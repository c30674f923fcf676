import Torrentkino.Shr.Random

/-!
# `p2p/time.c`

Points in time, in seconds, from the clock reading `time_now` of the daemon and
the jitter that `random()` adds.
-/

namespace Torrentkino

/-- `time_add_1_min` -/
def timeAdd1Min (now : Int) : Int :=
  now + 60

/-- `time_add_30_min` -/
def timeAdd30Min (now : Int) : Int :=
  now + 1800

/-- The shape of the three functions below. -/
def timeAddApprox (base jitter : Nat) (now : Int) (rnd : Random) : Int × Random :=
  let (n, rnd) := rnd.draw
  (now + base + (n % jitter : Nat), rnd)

/-- `time_add_5_sec_approx` -/
def timeAdd5SecApprox : Int → Random → Int × Random :=
  timeAddApprox 4 3

/-- `time_add_1_min_approx` -/
def timeAdd1MinApprox : Int → Random → Int × Random :=
  timeAddApprox 50 20

/-- `time_add_5_min_approx` -/
def timeAdd5MinApprox : Int → Random → Int × Random :=
  timeAddApprox 240 120

end Torrentkino
