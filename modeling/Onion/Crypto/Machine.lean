import Onion.Lib.Logged
import Onion.Lib.Bytes

/-!
# The machine the crypto code runs on

The crypto routines compute with 64-bit words (`u64`) and 128-bit products (`u128`).  A word is a
natural number; every operation that could leave its width goes through `word`, which reduces the
result as the hardware does and logs `Event.wrap` when that loses anything.  The log of a run also
records each call of a field routine with its operands and result, each `GeP3` produced, and each
access past the end of a scratch vector.
-/

namespace Onion

/-- `Fe`: a field element mod `2^255 - 19` in 5 limbs of 51 bits -/
@[ext] structure Fe where
  v0 : Nat
  v1 : Nat
  v2 : Nat
  v3 : Nat
  v4 : Nat
deriving DecidableEq

/-- `GeP3`: extended coordinates, `x = X/Z`, `y = Y/Z`, `T = XY/Z` -/
structure GeP3 where
  X : Fe
  Y : Fe
  Z : Fe
  T : Fe
deriving DecidableEq

inductive Event where
  | wrap
  | outOfRange
  | add (a b r : Fe)
  | sub (a b r : Fe)
  | mul (a b r : Fe)
  | sq (a r : Fe)
  | invert (a r : Fe)
  | toBytes (a : Fe) (r : Bytes 32)
  | point (p : GeP3)

abbrev Run := Logged Event

/-- one event, no result -/
def emit (e : Event) : Run Unit := ⟨(), [e]⟩

/-- the unsigned result `n` of an operation in a register of `w` bits -/
def word (w n : Nat) : Run Nat := ⟨n % 2^w, if n < 2^w then [] else [.wrap]⟩

def u64 (n : Nat) : Run Nat := word 64 n
def u128 (n : Nat) : Run Nat := word 128 n

/-- `a - b` in a 64-bit register -/
def sub64 (a b : Nat) : Run Nat := ⟨(a + 2^64 - b) % 2^64, if b ≤ a then [] else [.wrap]⟩

/-- `reduce_mask_51` -/
def M : Nat := 2^51 - 1

theorem and_M (x : Nat) : x &&& M = x % 2^51 := Nat.and_two_pow_sub_one_eq_mod x 51

end Onion
