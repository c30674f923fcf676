import Torrentkino.Shr.Config

/-!
# `shr/random.c`

Everything random comes from two sources outside the program, `random()` and
`/dev/urandom`.  They are the sequences of what will be read from them; a
statement about every program run is one about every such pair of sequences.
-/

namespace Torrentkino

open Memory

/-- What the two sources are going to deliver. -/
structure Random where
  numbers : Nat → Nat
  urandom : Nat → UInt8

namespace Random

/-- `random()` -/
def draw (rnd : Random) : Nat × Random :=
  (rnd.numbers 0, { rnd with numbers := fun i => rnd.numbers (i + 1) })

end Random

/-- `rand_urandom` -/
def randUrandom (rnd : Random) (size : Nat) : Bytes × Random :=
  (copy rnd.urandom 0 size, { rnd with urandom := fun i => rnd.urandom (i + size) })

/-- `do rand_urandom(..) while (exists && i < max)`: a random key that is not
in use, with the given number of retries, or the last one tried. -/
def randUnused (used : Bytes → Bool) (size : Nat) : Nat → Random → Bytes × Random
  | 0, rnd => randUrandom rnd size
  | retries + 1, rnd =>
      let id := randUrandom rnd size
      if used id.1 then randUnused used size retries id.2 else id

theorem length_randUnused
    (used : Bytes → Bool) (size retries : Nat) (rnd : Random) :
    (randUnused used size retries rnd).1.length = size := by
  induction retries generalizing rnd with
  | zero =>
      simp [randUnused, randUrandom]
  | succ retries ih =>
      simp only [randUnused]
      split
      · exact ih _
      · simp [randUrandom]

end Torrentkino
