import Onion.Crypto.Ge25519

/-!
# `incremental.cpp`: the walk `a0*B, a0*B + 8B, ...`

The scratch vectors of the stepper are lists that only grow; a read or write past the end of a
vector is logged.  Counters of type `size_t` and `uint64_t` are kept modulo `2^64`.
-/

namespace Onion

/-- the carry loop of `scalar_add_8i`: it stops when the carry is gone -/
def addCarry : List UInt8 → Nat → List UInt8
  | [], _ => []
  | x :: xs, carry =>
    if carry = 0 then x :: xs
    else
      let v := x.toNat + (carry &&& 0xff)
      UInt8.ofNat (v &&& 0xff) :: addCarry xs (carry >>> 8 + v >>> 8)

/-- the register holds the bytes of the addend that are left and the ripple carry: it never wraps -/
theorem addCarry_fits (x : UInt8) {carry : Nat} (h : carry < 2^64) :
    x.toNat + (carry &&& 0xff) < 2^64 ∧
      carry >>> 8 + (x.toNat + (carry &&& 0xff)) >>> 8 < 2^64 := by
  have hx := x.toNat_lt
  have hand : carry &&& 0xff ≤ 0xff := Nat.and_le_right
  rw [Nat.shiftRight_eq_div_pow, Nat.shiftRight_eq_div_pow]
  omega

theorem addCarry_length (b : List UInt8) (carry : Nat) : (addCarry b carry).length = b.length := by
  induction b generalizing carry with
  | nil => rfl
  | cons x xs ih =>
    rw [addCarry]
    split
    · rfl
    · rw [List.length_cons, List.length_cons, ih]

def scalarAdd8i (a0 : Bytes 32) (i : Nat) : Bytes 32 :=
  ⟨addCarry a0.1 (i * 8 % 2^64), (addCarry_length _ _).trans a0.2⟩

/-! ## vectors -/

section
variable {α : Type}

/-- `v[i]` -/
def vget (v : List α) (i : Nat) (default : α) : Run α :=
  ⟨v.getD i default, if i < v.length then [] else [.outOfRange]⟩

/-- `v[i] = x` -/
def vset (v : List α) (i : Nat) (x : α) : Run (List α) :=
  ⟨v.set i x, if i < v.length then [] else [.outOfRange]⟩

/-- `v.resize(n)`, when `n` is larger than the size -/
def vgrow (v : List α) (n : Nat) (default : α) : List α := v ++ List.replicate (n - v.length) default

end

/-! ## the stepper

`IncrementalStepper` and `IncrementalStepperX4` run the same code over different points, field
elements and output buffers. -/

/-- what the two steppers differ in: points `P`, addends `Q`, field elements `E`, buffers `O` -/
structure StepOps (P Q E O : Type) where
  Y : P → E
  Z : P → E
  zero : E
  madd : P → Q → Run P
  mul : E → E → Run E
  invert : E → Run E
  /-- write the encodings of `y` at index `i` of the buffers -/
  store : O → Nat → E → Run O

structure Stepper (P Q E : Type) where
  cur : P
  step8b : Q
  consumed : Nat
  ys : List E
  z : List E
  prefix_ : List E

section
variable {P Q E O : Type}

/-- the scratch is sized on the first batch and grows with larger ones -/
def Stepper.resize (zero : E) (st : Stepper P Q E) (n : Nat) : Stepper P Q E :=
  if st.ys.length < n then
    { st with
      ys := vgrow st.ys n zero
      z := vgrow st.z n zero
      prefix_ := vgrow st.prefix_ n zero }
  else st

variable (ops : StepOps P Q E O)

/-- first loop: keep `Y` and `Z` of the point, and step -/
def walkStep (i : Nat) (st : Stepper P Q E) : Run (Stepper P Q E) := do
  let ys ← vset st.ys i (ops.Y st.cur)
  let z ← vset st.z i (ops.Z st.cur)
  let cur ← ops.madd st.cur st.step8b
  return { st with ys := ys, z := z, cur := cur }

/-- second loop: `prefix[i] = prefix[i-1] * z[i]` (round `i` of the model is `i+1` of the source) -/
def prefixStep (z : List E) (i : Nat) (pre : List E) : Run (List E) := do
  let a ← vget pre i ops.zero
  let b ← vget z (i + 1) ops.zero
  vset pre (i + 1) (← ops.mul a b)

/-- third loop: one `y` from the running inverse, which then drops the factor `z[i]` -/
def backStep (ys z pre : List E) (i : Nat) (s : O × E) : Run (O × E) := do
  let zinv ← (if i = 0 then pure s.2 else do ops.mul s.2 (← vget pre (i - 1) ops.zero) : Run E)
  let y ← ops.mul (← vget ys i ops.zero) zinv
  let out ← ops.store s.1 i y
  let inv ← (if i = 0 then pure s.2 else do ops.mul s.2 (← vget z i ops.zero) : Run E)
  return (out, inv)

def Stepper.nextBatchImpl (st : Stepper P Q E) (out : O) (n : Nat) : Run (Stepper P Q E × O) := do
  let st ← Logged.forUp (walkStep ops) n (st.resize ops.zero n)
  let pre ← vset st.prefix_ 0 (← vget st.z 0 ops.zero)
  let pre ← Logged.forUp (prefixStep ops st.z) (n - 1) pre
  let inv ← ops.invert (← vget pre ((n + 2^64 - 1) % 2^64) ops.zero)
  let s ← Logged.forDown (backStep ops st.ys st.z pre) n (out, inv)
  return ({ st with prefix_ := pre, consumed := (st.consumed + n) % 2^64 }, s.1)

/-- one call after the other, each with its own buffers and size; for each call the counter before
it and the buffers after it -/
def Stepper.nextBatches (st : Stepper P Q E) :
    List (O × Nat) → Run (Stepper P Q E × List (Nat × O))
  | [] => return (st, [])
  | (out, n) :: calls => do
    let r ← st.nextBatchImpl ops out n
    let rest ← r.1.nextBatches calls
    return (rest.1, (st.consumed, r.2) :: rest.2)

end

/-! ## the scalar stepper -/

abbrev IncrementalStepper := Stepper GeP3 GeCachedAffine Fe

/-- `fe_to_bytes(out[i], y)` -/
def storeY (out : List (Bytes 32)) (i : Nat) (y : Fe) : Run (List (Bytes 32)) := do
  vset out i (← feToBytes y)

def stepOps : StepOps GeP3 GeCachedAffine Fe (List (Bytes 32)) where
  Y := GeP3.Y
  Z := GeP3.Z
  zero := ⟨0, 0, 0, 0, 0⟩
  madd := geMadd
  mul := feMul
  invert := feInvert
  store := storeY

def eight : Bytes 32 := Bytes.ofNat 32 8

def IncrementalStepper.new (a0 : Bytes 32) : Run IncrementalStepper := do
  let cur ← geScalarmultBase a0
  let step8b ← geToCachedAffine (← geScalarmultBase eight)
  return ⟨cur, step8b, 0, [], [], []⟩

/-- `next_batch` on a span -/
def IncrementalStepper.nextBatch (st : IncrementalStepper) (out : List (Bytes 32)) :
    Run (IncrementalStepper × List (Bytes 32)) := st.nextBatchImpl stepOps out out.length

/-- construct a stepper and call `next_batch` on each buffer -/
def IncrementalStepper.run (a0 : Bytes 32) (outs : List (List (Bytes 32))) :
    Run (IncrementalStepper × List (Nat × List (Bytes 32))) := do
  let st ← IncrementalStepper.new a0
  st.nextBatches stepOps (outs.map fun out => (out, out.length))

end Onion
