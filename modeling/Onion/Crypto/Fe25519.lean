import Onion.Crypto.Machine

/-!
# `fe25519.cpp`: the scalar field

Each routine works on the words of its operands exactly as the source does, and ends by logging
the call.  A sum of several products is one `u128`: its partial sums wrap only if the whole does.
-/

namespace Onion

/-- log the call and return its result -/
def called (e : Fe → Event) (r : Fe) : Run Fe := ⟨r, [e r]⟩

/-- eight bytes from `off` on, the last one first: `r = (r << 8) | s[off + i]` -/
def load64 (s : Bytes 32) (off : Nat) : Nat :=
  (List.range 8).foldr (fun i r => (r <<< 8) % 2^64 ||| (s.get (off + i)).toNat) 0

/-- bit 255 is ignored -/
def feFromBytes (s : Bytes 32) : Fe :=
  let x0 := load64 s 0
  let x1 := load64 s 8
  let x2 := load64 s 16
  let x3 := load64 s 24
  { v0 := x0 &&& M
    v1 := (x0 >>> 51 ||| (x1 <<< 13) % 2^64) &&& M
    v2 := (x1 >>> 38 ||| (x2 <<< 26) % 2^64) &&& M
    v3 := (x2 >>> 25 ||| (x3 <<< 39) % 2^64) &&& M
    v4 := x3 >>> 12 &&& M }

/-- the `carry` lambda of `fe_to_bytes` -/
def carry (t : Fe) : Run Fe := do
  let t1 ← u64 (t.v1 + t.v0 >>> 51)
  let t2 ← u64 (t.v2 + t1 >>> 51)
  let t3 ← u64 (t.v3 + t2 >>> 51)
  let t4 ← u64 (t.v4 + t3 >>> 51)
  return ⟨t.v0 &&& M, t1 &&& M, t2 &&& M, t3 &&& M, t4⟩

/-- the `carry_full` lambda of `fe_to_bytes` -/
def carryFull (t : Fe) : Run Fe := do
  let t ← carry t
  let t0 ← u64 (t.v0 + 19 * (t.v4 >>> 51))
  return { t with v0 := t0, v4 := t.v4 &&& M }

/-- the `write51` lambda: the eight bytes of `(lo >> shift) | (hi << (51 - shift))` -/
def write51 (lo hi shift : Nat) : List UInt8 :=
  leBytes 8 (lo >>> shift ||| (hi <<< (51 - shift)) % 2^64)

theorem write51_length (lo hi shift : Nat) : (write51 lo hi shift).length = 8 := leBytes_length _ _

def feToBytes (f : Fe) : Run (Bytes 32) := do
  let t ← carryFull f
  let t ← carryFull t
  let t0 ← u64 (t.v0 + 19)
  let t ← carryFull { t with v0 := t0 }
  let t0 ← u64 (t.v0 + (M + 1 - 19))
  let t1 ← u64 (t.v1 + M)
  let t2 ← u64 (t.v2 + M)
  let t3 ← u64 (t.v3 + M)
  let t4 ← u64 (t.v4 + M)
  let t ← carry ⟨t0, t1, t2, t3, t4⟩
  let t4 := t.v4 &&& M
  let out : Bytes 32 :=
    ⟨write51 t.v0 t.v1 0 ++ write51 t.v1 t.v2 13 ++ write51 t.v2 t.v3 26 ++ write51 t.v3 t4 39,
      by simp only [List.length_append, write51_length]⟩
  emit (.toBytes f out)
  return out

def feAdd (a b : Fe) : Run Fe := do
  let r0 ← u64 (a.v0 + b.v0)
  let r1 ← u64 (a.v1 + b.v1)
  let r2 ← u64 (a.v2 + b.v2)
  let r3 ← u64 (a.v3 + b.v3)
  let r4 ← u64 (a.v4 + b.v4)
  called (.add a b) ⟨r0, r1, r2, r3, r4⟩

/-- `8 * (2^51 - 19)` and `8 * (2^51 - 1)` -/
def two54m152 : Nat := 2^54 - 152
def two54m8 : Nat := 2^54 - 8

def feSub (a b : Fe) : Run Fe := do
  let t0 ← sub64 (← u64 (a.v0 + two54m152)) b.v0
  let t1 ← sub64 (← u64 (a.v1 + two54m8)) b.v1
  let t2 ← sub64 (← u64 (a.v2 + two54m8)) b.v2
  let t3 ← sub64 (← u64 (a.v3 + two54m8)) b.v3
  let t4 ← sub64 (← u64 (a.v4 + two54m8)) b.v4
  let t1 ← u64 (t1 + t0 >>> 51)
  let t2 ← u64 (t2 + t1 >>> 51)
  let t3 ← u64 (t3 + t2 >>> 51)
  let t4 ← u64 (t4 + t3 >>> 51)
  let t0 ← u64 ((t0 &&& M) + 19 * (t4 >>> 51))
  let t1 ← u64 ((t1 &&& M) + t0 >>> 51)
  called (.sub a b) ⟨t0 &&& M, t1, t2 &&& M, t3 &&& M, t4 &&& M⟩

/-- the carry chain that ends `fe_mul` and `fe_sq` -/
def feCarry (t0 t1 t2 t3 t4 : Nat) : Run Fe := do
  let o0 := t0 % 2^64 &&& M
  let c ← u64 (t0 >>> 51)
  let t1 ← u128 (t1 + c)
  let o1 := t1 % 2^64 &&& M
  let c ← u64 (t1 >>> 51)
  let t2 ← u128 (t2 + c)
  let o2 := t2 % 2^64 &&& M
  let c ← u64 (t2 >>> 51)
  let t3 ← u128 (t3 + c)
  let o3 := t3 % 2^64 &&& M
  let c ← u64 (t3 >>> 51)
  let t4 ← u128 (t4 + c)
  let o4 := t4 % 2^64 &&& M
  let c ← u64 (t4 >>> 51)
  let o0 ← u64 (o0 + c * 19)
  let o1 ← u64 (o1 + o0 >>> 51)
  let o2 ← u64 (o2 + o1 >>> 51)
  return ⟨o0 &&& M, o1 &&& M, o2, o3, o4⟩

def feMul (a b : Fe) : Run Fe := do
  let t0 := a.v0 * b.v0
  let t1 ← u128 (a.v0 * b.v1 + a.v1 * b.v0)
  let t2 ← u128 (a.v0 * b.v2 + a.v2 * b.v0 + a.v1 * b.v1)
  let t3 ← u128 (a.v0 * b.v3 + a.v3 * b.v0 + a.v1 * b.v2 + a.v2 * b.v1)
  let t4 ← u128 (a.v0 * b.v4 + a.v4 * b.v0 + a.v3 * b.v1 + a.v1 * b.v3 + a.v2 * b.v2)
  let r4 ← u64 (a.v4 * 19)
  let r1 ← u64 (a.v1 * 19)
  let r2 ← u64 (a.v2 * 19)
  let r3 ← u64 (a.v3 * 19)
  let t0 ← u128 (t0 + (r4 * b.v1 + r1 * b.v4 + r2 * b.v3 + r3 * b.v2))
  let t1 ← u128 (t1 + (r4 * b.v2 + r2 * b.v4 + r3 * b.v3))
  let t2 ← u128 (t2 + (r4 * b.v3 + r3 * b.v4))
  let t3 ← u128 (t3 + r4 * b.v4)
  called (.mul a b) (← feCarry t0 t1 t2 t3 t4)

def feSq (a : Fe) : Run Fe := do
  let d0 ← u64 (a.v0 * 2)
  let d1 ← u64 (a.v1 * 2)
  let d2 ← u64 (a.v2 * 2 * 19)
  let d419 ← u64 (a.v4 * 19)
  let d4 ← u64 (d419 * 2)
  let r319 ← u64 (a.v3 * 19)
  let t0 ← u128 (a.v0 * a.v0 + d4 * a.v1 + d2 * a.v3)
  let t1 ← u128 (d0 * a.v1 + d4 * a.v2 + a.v3 * r319)
  let t2 ← u128 (d0 * a.v2 + a.v1 * a.v1 + d4 * a.v3)
  let t3 ← u128 (d0 * a.v3 + d1 * a.v2 + a.v4 * d419)
  let t4 ← u128 (d0 * a.v4 + d1 * a.v3 + a.v2 * a.v2)
  called (.sq a) (← feCarry t0 t1 t2 t3 t4)

/-- `t = sq(t); for (i = 1; i < n; ++i) t = sq(t)` -/
def sqTimes {E : Type} (sq : E → Run E) (n : Nat) (t : E) : Run E := Logged.forUp (fun _ t => sq t) n t

/-- `z^(p-2)` by the standard addition chain, the same for both field implementations -/
def invertChain {E : Type} (mul : E → E → Run E) (sq : E → Run E) (z : E) : Run E := do
  let z2 ← sq z
  let t ← sq z2
  let t ← sq t
  let z9 ← mul t z
  let z11 ← mul z9 z2
  let t ← sq z11
  let z2_5_0 ← mul t z9
  let t ← sqTimes sq 5 z2_5_0
  let z2_10_0 ← mul t z2_5_0
  let t ← sqTimes sq 10 z2_10_0
  let z2_20_0 ← mul t z2_10_0
  let t ← sqTimes sq 20 z2_20_0
  let t ← mul t z2_20_0
  let t ← sqTimes sq 10 t
  let z2_50_0 ← mul t z2_10_0
  let t ← sqTimes sq 50 z2_50_0
  let z2_100_0 ← mul t z2_50_0
  let t ← sqTimes sq 100 z2_100_0
  let t ← mul t z2_100_0
  let t ← sqTimes sq 50 t
  let t ← mul t z2_50_0
  let t ← sqTimes sq 5 t
  mul t z11

def feInvert (z : Fe) : Run Fe := do called (.invert z) (← invertChain feMul feSq z)

end Onion
