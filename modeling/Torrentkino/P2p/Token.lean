import Torrentkino.P2p.Time
import Torrentkino.Shr.Table

/-!
# `p2p/token.c`

The tokens that the daemon hands out with its replies to `get_peers` and asks
for in an `announce_peer`.
-/

namespace Torrentkino

open Memory

/-- `TOKEN_SIZE` -/
def tokenSize : Nat := 8

/-- `TOKEN_SIZE_MAX` -/
def tokenSizeMax : Nat := 20

/-- `struct obj_tkn` -/
structure Tkn where
  id : Bytes
  id_length : id.length = tokenSize
  time : Int
deriving DecidableEq, Repr

/-- `struct obj_token` -/
structure Token where
  tokens : Table Tkn

/-- `tkn_init` -/
def tknInit : Token where
  tokens := .init 10 (by decide)

/-- `tkn_create` -/
def tknCreate (s : Token) (rnd : Random) : Bytes × Random :=
  randUnused (hashExists s.tokens.hash) tokenSize 999 rnd

/-- `tkn_put` -/
def tknPut (now : Int) (s : Token) (rnd : Random) : Token × Random :=
  let id := tknCreate s rnd
  let tkn :=
    { id := id.1
      id_length := length_randUnused _ _ _ _
      time := timeAdd30Min now }
  ({ s with tokens := s.tokens.append id.1 tkn }, id.2)

/-- `tkn_del` -/
def tknDel (s : Token) (r : Ref) : Token :=
  match s.tokens.heap.get r with
  | none => s
  | some tkn => { s with tokens := s.tokens.remove r tkn.id }

/-- `tkn_expire` -/
def tknExpire (now : Int) (s : Token) : Token :=
  s.tokens.list.foldl
    (fun s r => if (s.tokens.heap.get r).any fun tkn => now > tkn.time then tknDel s r else s) s

/-- `tkn_validate`, for the `TOKEN_SIZE` bytes behind the pointer. -/
def tknValidate (s : Token) (id : Mem) : Bool :=
  (s.tokens.find (copy id 0 tokenSize)).isSome

/-- `tkn_read`: the newest token, or a null pointer. -/
def tknRead (s : Token) : Option Bytes :=
  (s.tokens.list.getLast?.bind s.tokens.heap.get).map (·.id)

end Torrentkino
