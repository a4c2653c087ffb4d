import Onion.Crypto.Fe25519

/-!
# `fe25519x4.cpp`: four field elements at once

A vector register is four 64-bit lanes, and every intrinsic works on each lane by itself.  The
columns of the two big products are kept as expressions (`Col`), written as the source writes
them, and `Col.eval` runs one of them on vectors.
-/

namespace Onion

/-! ## vectors of four lanes -/

/-- `__m256i` as four 64-bit lanes -/
abbrev M256 := Vector Nat 4

def M256.lane (a : M256) (l : Fin 4) : Nat := a[l]

def vSet1 (x : Nat) : M256 := Vector.replicate 4 x

/-- a vector operation, lane by lane; `ok` says that nothing is lost -/
def vOp (f : Fin 4 → Nat) (ok : Fin 4 → Prop) [∀ l, Decidable (ok l)] : Run M256 :=
  ⟨Vector.ofFn f, if ∀ l, ok l then [] else [.wrap]⟩

def vAdd (a b : M256) : Run M256 :=
  vOp (fun l => (a.lane l + b.lane l) % 2^64) fun l => a.lane l + b.lane l < 2^64

/-- `_mm256_mul_epu32`: it reads only the low 32 bits of each lane -/
def vMul (a b : M256) : Run M256 :=
  vOp (fun l => a.lane l % 2^32 * (b.lane l % 2^32)) fun l => a.lane l < 2^32 ∧ b.lane l < 2^32

/-- `a + (0 - b)` in two's complement -/
def vSub (a b : M256) : Run M256 :=
  vOp (fun l => (a.lane l + (2^64 - b.lane l) % 2^64) % 2^64) fun l => b.lane l ≤ a.lane l

def vAnd (a : M256) (x : Nat) : M256 := Vector.ofFn fun l => a.lane l &&& x
def vShr (a : M256) (n : Nat) : M256 := Vector.ofFn fun l => a.lane l >>> n

def vShl (a : M256) (n : Nat) : Run M256 :=
  vOp (fun l => a.lane l <<< n % 2^64) fun l => a.lane l <<< n < 2^64

def vScale (a : M256) (k : Nat) : Run M256 :=
  match k with
  | 2 => vShl a 1
  | 4 => vShl a 2
  | 19 => do vAdd (← vAdd (← vShl a 4) (← vShl a 1)) a
  | k => vMul a (vSet1 k)

/-- `Fe4`: limb `i` of the four elements is the vector `v[i]`; even limbs have 26 bits, odd ones 25 -/
abbrev Fe4 := Vector M256 10

/-! ## columns -/

/-- a column of a product: `mul i j` is `v_mul(in2[i], in[j])` -/
inductive Col where
  | mul (i j : Fin 10)
  | add (a b : Col)
  | scale (a : Col) (k : Nat)

def Col.eval (in2 in1 : Fe4) : Col → Run M256
  | mul i j => vMul in2[i] in1[j]
  | add a b => do vAdd (← a.eval in2 in1) (← b.eval in2 in1)
  | scale a k => do vScale (← a.eval in2 in1) k

namespace Col

def fproduct : Vector Col 19 := #v[
  mul 0 0,
  add (mul 0 1) (mul 1 0),
  add (scale (mul 1 1) 2) (add (mul 0 2) (mul 2 0)),
  add (add (mul 1 2) (mul 2 1)) (add (mul 0 3) (mul 3 0)),
  add (mul 2 2) (add (scale (add (mul 1 3) (mul 3 1)) 2) (add (mul 0 4) (mul 4 0))),
  add (add (mul 2 3) (mul 3 2)) (add (add (mul 1 4) (mul 4 1)) (add (mul 0 5) (mul 5 0))),
  add (scale (add (mul 3 3) (add (mul 1 5) (mul 5 1))) 2)
    (add (add (mul 2 4) (mul 4 2)) (add (mul 0 6) (mul 6 0))),
  add (add (mul 3 4) (mul 4 3)) (add (add (mul 2 5) (mul 5 2))
    (add (add (mul 1 6) (mul 6 1)) (add (mul 0 7) (mul 7 0)))),
  add (mul 4 4) (add (scale (add (add (mul 3 5) (mul 5 3)) (add (mul 1 7) (mul 7 1))) 2)
    (add (add (mul 2 6) (mul 6 2)) (add (mul 0 8) (mul 8 0)))),
  add (add (mul 4 5) (mul 5 4)) (add (add (mul 3 6) (mul 6 3)) (add (add (mul 2 7) (mul 7 2))
    (add (add (mul 1 8) (mul 8 1)) (add (mul 0 9) (mul 9 0))))),
  add (scale (add (mul 5 5) (add (add (mul 3 7) (mul 7 3)) (add (mul 1 9) (mul 9 1)))) 2)
    (add (add (mul 4 6) (mul 6 4)) (add (mul 2 8) (mul 8 2))),
  add (add (mul 5 6) (mul 6 5)) (add (add (mul 4 7) (mul 7 4))
    (add (add (mul 3 8) (mul 8 3)) (add (mul 2 9) (mul 9 2)))),
  add (mul 6 6) (add (scale (add (mul 5 7) (mul 7 5)) 2)
    (add (scale (add (mul 3 9) (mul 9 3)) 2) (add (mul 4 8) (mul 8 4)))),
  add (add (mul 6 7) (mul 7 6)) (add (add (mul 5 8) (mul 8 5)) (add (mul 4 9) (mul 9 4))),
  add (scale (add (mul 7 7) (add (mul 5 9) (mul 9 5))) 2) (add (mul 6 8) (mul 8 6)),
  add (add (mul 7 8) (mul 8 7)) (add (mul 6 9) (mul 9 6)),
  add (mul 8 8) (scale (add (mul 7 9) (mul 9 7)) 2),
  add (mul 8 9) (mul 9 8),
  scale (mul 9 9) 2]

def fsquareInner : Vector Col 19 := #v[
  mul 0 0,
  scale (mul 0 1) 2,
  scale (add (mul 1 1) (mul 0 2)) 2,
  scale (add (mul 1 2) (mul 0 3)) 2,
  add (mul 2 2) (add (scale (mul 1 3) 4) (scale (mul 0 4) 2)),
  scale (add (mul 2 3) (add (mul 1 4) (mul 0 5))) 2,
  scale (add (mul 3 3) (add (mul 2 4) (add (mul 0 6) (scale (mul 1 5) 2)))) 2,
  scale (add (mul 3 4) (add (mul 2 5) (add (mul 1 6) (mul 0 7)))) 2,
  add (mul 4 4) (scale (add (mul 2 6) (add (mul 0 8) (scale (add (mul 1 7) (mul 3 5)) 2))) 2),
  scale (add (mul 4 5) (add (mul 3 6) (add (mul 2 7) (add (mul 1 8) (mul 0 9))))) 2,
  scale (add (mul 5 5) (add (mul 4 6) (add (mul 2 8) (scale (add (mul 3 7) (mul 1 9)) 2)))) 2,
  scale (add (mul 5 6) (add (mul 4 7) (add (mul 3 8) (mul 2 9)))) 2,
  add (mul 6 6) (scale (add (mul 4 8) (scale (add (mul 5 7) (mul 3 9)) 2)) 2),
  scale (add (mul 6 7) (add (mul 5 8) (mul 4 9))) 2,
  scale (add (mul 7 7) (add (mul 6 8) (scale (mul 5 9) 2))) 2,
  scale (add (mul 7 8) (mul 6 9)) 2,
  add (mul 8 8) (scale (mul 7 9) 4),
  scale (mul 8 9) 2,
  scale (mul 9 9) 2]

end Col

/-! ## reduction -/

/-- `t[i] += 19 * t[i+10]` for `i = 0 .. 8`; the source runs downwards, and no step reads what
another one writes -/
def freduceDegree (t : Vector M256 19) : Run Fe4 :=
  Logged.all fun i : Fin 10 =>
    if h : i.val + 10 < 19 then do vAdd t[i] (← vScale t[i.val + 10] 19) else pure t[i]

/-- the carry `over` of limb `lo`, `n` bits wide, into `hi` -/
def vCarry (lo hi : M256) (n : Nat) : Run (M256 × M256) := do
  let carry := vShr lo n
  return (vAnd lo (2^n - 1), ← vAdd hi carry)

/-- `freduce_coefficients`, with its loop written out -/
def freduceCoefficients (t : Fe4) : Run Fe4 := do
  let (t0, t1) ← vCarry t[0] t[1] 26
  let (t1, t2) ← vCarry t1 t[2] 25
  let (t2, t3) ← vCarry t2 t[3] 26
  let (t3, t4) ← vCarry t3 t[4] 25
  let (t4, t5) ← vCarry t4 t[5] 26
  let (t5, t6) ← vCarry t5 t[6] 25
  let (t6, t7) ← vCarry t6 t[7] 26
  let (t7, t8) ← vCarry t7 t[8] 25
  let (t8, t9) ← vCarry t8 t[9] 26
  let (t9, t10) ← vCarry t9 (vSet1 0) 25
  let t0 ← vAdd t0 (← vScale t10 19)
  let (t0, t1) ← vCarry t0 t1 26
  return #v[t0, t1, t2, t3, t4, t5, t6, t7, t8, t9]

/-- the shared body of `fe4_mul` and `fe4_sq` -/
def fe4Product (cols : Vector Col 19) (a b : Fe4) : Run Fe4 := do
  let t ← Logged.all fun i : Fin 19 => cols[i].eval a b
  freduceCoefficients (← freduceDegree t)

def fe4Mul (a b : Fe4) : Run Fe4 := fe4Product Col.fproduct a b
def fe4Sq (a : Fe4) : Run Fe4 := fe4Product Col.fsquareInner a a

def fe4Add (a b : Fe4) : Run Fe4 := do
  freduceCoefficients (← Logged.all fun i : Fin 10 => vAdd a[i] b[i])

/-- the limbs of `8p` -/
def bias : Vector Nat 10 := Vector.ofFn fun i =>
  if i.val = 0 then 8 * 0x3ffffed else if i.val % 2 = 1 then 8 * 0x1ffffff else 8 * 0x3ffffff

def fe4Sub (a b : Fe4) : Run Fe4 := do
  freduceCoefficients (← Logged.all fun i : Fin 10 => do vSub (← vAdd a[i] (vSet1 bias[i])) b[i])

def fe4Invert (z : Fe4) : Run Fe4 := invertChain fe4Mul fe4Sq z

/-! ## loading -/

/-- four bytes as a little-endian word -/
def rd32 (b : Bytes 32) (start : Nat) : Nat := b.toNat / 256^start % 2^32

/-- the `expand` lambda of `fe4_load` -/
def expand (b : Bytes 32) : Vector Nat 10 := #v[
  rd32 b 0 >>> 0 &&& 0x3ffffff,
  rd32 b 3 >>> 2 &&& 0x1ffffff,
  rd32 b 6 >>> 3 &&& 0x3ffffff,
  rd32 b 9 >>> 5 &&& 0x1ffffff,
  rd32 b 12 >>> 6 &&& 0x3ffffff,
  rd32 b 16 >>> 0 &&& 0x1ffffff,
  rd32 b 19 >>> 1 &&& 0x3ffffff,
  rd32 b 22 >>> 3 &&& 0x1ffffff,
  rd32 b 25 >>> 4 &&& 0x3ffffff,
  rd32 b 28 >>> 6 &&& 0x1ffffff]

def fe4Load (b : Vector (Bytes 32) 4) : Fe4 :=
  Vector.ofFn fun i => Vector.ofFn fun l => (expand b[l])[i]

/-! ## storing -/

/-- ten `int32_t` limbs -/
abbrev Limbs32 := Vector (BitVec 32) 10

/-- the carry out of a negative limb, and what it leaves: `(rest, carry)` -/
def signedCarry (x : BitVec 32) (n : Nat) : BitVec 32 × BitVec 32 :=
  let mask := x.sshiftRight 31
  let carry := -((x &&& mask).sshiftRight n)
  (x + carry <<< n, carry)

/-- one pass of signed carries -/
def signedPass (x : Limbs32) : Limbs32 :=
  let r0 := signedCarry x[0] 26
  let r1 := signedCarry (x[1] - r0.2) 25
  let r2 := signedCarry (x[2] - r1.2) 26
  let r3 := signedCarry (x[3] - r2.2) 25
  let r4 := signedCarry (x[4] - r3.2) 26
  let r5 := signedCarry (x[5] - r4.2) 25
  let r6 := signedCarry (x[6] - r5.2) 26
  let r7 := signedCarry (x[7] - r6.2) 25
  let r8 := signedCarry (x[8] - r7.2) 26
  let r9 := signedCarry (x[9] - r8.2) 25
  #v[r0.1 - r9.2 * 19, r1.1, r2.1, r3.1, r4.1, r5.1, r6.1, r7.1, r8.1, r9.1]

/-- the carry out of a limb, and what it leaves -/
def limbCarry (x : BitVec 32) (n : Nat) : BitVec 32 × BitVec 32 :=
  (x &&& BitVec.ofNat 32 (2^n - 1), x.sshiftRight n)

/-- one pass of carries -/
def carryPass (x : Limbs32) : Limbs32 :=
  let r0 := limbCarry x[0] 26
  let r1 := limbCarry (x[1] + r0.2) 25
  let r2 := limbCarry (x[2] + r1.2) 26
  let r3 := limbCarry (x[3] + r2.2) 25
  let r4 := limbCarry (x[4] + r3.2) 26
  let r5 := limbCarry (x[5] + r4.2) 25
  let r6 := limbCarry (x[6] + r5.2) 26
  let r7 := limbCarry (x[7] + r6.2) 25
  let r8 := limbCarry (x[8] + r7.2) 26
  let r9 := limbCarry (x[9] + r8.2) 25
  #v[r0.1 + 19 * r9.2, r1.1, r2.1, r3.1, r4.1, r5.1, r6.1, r7.1, r8.1, r9.1]

def s32Gte (x y : BitVec 32) : BitVec 32 := ~~~((x - y).sshiftRight 31)

def s32Eq (x y : BitVec 32) : BitVec 32 :=
  let x := ~~~(x ^^^ y)
  let x := x &&& x <<< 16
  let x := x &&& x <<< 8
  let x := x &&& x <<< 4
  let x := x &&& x <<< 2
  let x := x &&& x <<< 1
  x.sshiftRight 31

/-- the limbs of `p` -/
def limbsP : Limbs32 := #v[0x3ffffed, 0x1ffffff, 0x3ffffff, 0x1ffffff, 0x3ffffff, 0x1ffffff,
  0x3ffffff, 0x1ffffff, 0x3ffffff, 0x1ffffff]

/-- conditional subtraction of `p` -/
def subP (x : Limbs32) : Limbs32 :=
  let mask := s32Gte x[0] limbsP[0]
  let mask := mask &&& s32Eq x[1] limbsP[1] &&& s32Eq x[2] limbsP[2] &&& s32Eq x[3] limbsP[3] &&&
    s32Eq x[4] limbsP[4] &&& s32Eq x[5] limbsP[5] &&& s32Eq x[6] limbsP[6] &&&
    s32Eq x[7] limbsP[7] &&& s32Eq x[8] limbsP[8] &&& s32Eq x[9] limbsP[9]
  Vector.ofFn fun i => x[i] - (mask &&& limbsP[i])

/-- the `F` lambda: or the low byte in, write the other three -/
def putLimb (o : Bytes 32) (x : BitVec 32) (s : Nat) : Bytes 32 :=
  let byte (n : Nat) : UInt8 := UInt8.ofNat (x.sshiftRight n &&& 0xff).toNat
  (((o.set s (o.get s ||| byte 0)).set (s + 1) (byte 8)).set (s + 2) (byte 16)).set (s + 3) (byte 24)

/-- the serialisation that ends `contract` -/
def putLimbs (x : Limbs32) : Bytes 32 :=
  let o := Bytes.ofNat 32 0
  let o := putLimb o x[0] 0
  let o := putLimb o (x[1] <<< 2) 3
  let o := putLimb o (x[2] <<< 3) 6
  let o := putLimb o (x[3] <<< 5) 9
  let o := putLimb o (x[4] <<< 6) 12
  let o := putLimb o x[5] 16
  let o := putLimb o (x[6] <<< 1) 19
  let o := putLimb o (x[7] <<< 3) 22
  let o := putLimb o (x[8] <<< 4) 25
  putLimb o (x[9] <<< 6) 28

/-- the extra signed carry between the two kinds of pass -/
def signedFirst (x : Limbs32) : Limbs32 :=
  let r0 := signedCarry x[0] 26
  #v[r0.1, x[1] - r0.2, x[2], x[3], x[4], x[5], x[6], x[7], x[8], x[9]]

/-- the `contract` lambda of `fe4_store_y`, on one lane -/
def contract (src : Vector Nat 10) : Bytes 32 :=
  let input : Limbs32 := src.map (BitVec.ofNat 32)
  let input := signedPass (signedPass input)
  let input := signedFirst input
  let input := carryPass (carryPass input)
  putLimbs (subP input)

def fe4StoreY (f : Fe4) : Vector (Bytes 32) 4 :=
  Vector.ofFn fun l => contract (f.map fun v => v.lane l)

end Onion
