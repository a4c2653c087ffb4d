import Onion.Crypto.Fe25519

/-!
# `ge25519.cpp`: points in extended coordinates

Every `GeP3` a routine produces is logged, so that a statement about the log of a run is one about
every point of the run.
-/

namespace Onion

/-- `2d` -/
def kD2 : Fe := ⟨0x69b9426b2f159, 0x35050762add7a, 0x3cf44c0038052, 0x6738cc7407977, 0x2406d9dc56dff⟩

/-- log the point and return it -/
def made (p : GeP3) : Run GeP3 := ⟨p, [.point p]⟩

def geBasepoint : Run GeP3 := made
  { X := ⟨0x62d608f25d51a, 0x412a4b4f6592a, 0x75b7171a4b31d, 0x1ff60527118fe, 0x216936d3cd6e5⟩
    Y := ⟨0x6666666666658, 0x4cccccccccccc, 0x1999999999999, 0x3333333333333, 0x6666666666666⟩
    Z := ⟨1, 0, 0, 0, 0⟩
    T := ⟨0x68ab3a5b7dda3, 0x0eea2a5eadbb, 0x2af8df483c27e, 0x332b375274732, 0x67875f0fd78b7⟩ }

structure GeCached where
  YplusX : Fe
  YminusX : Fe
  Z : Fe
  T2d : Fe

/-- the cached form of an affine point: no `Z` -/
structure GeCachedAffine where
  YplusX : Fe
  YminusX : Fe
  T2d : Fe

def geToCached (p : GeP3) : Run GeCached := do
  let yplusx ← feAdd p.Y p.X
  let yminusx ← feSub p.Y p.X
  let t2d ← feMul p.T kD2
  return ⟨yplusx, yminusx, p.Z, t2d⟩

def geToCachedAffine (p : GeP3) : Run GeCachedAffine := do
  let zinv ← feInvert p.Z
  let x ← feMul p.X zinv
  let y ← feMul p.Y zinv
  let t ← feMul x y
  let yplusx ← feAdd y x
  let yminusx ← feSub y x
  let t2d ← feMul t kD2
  return ⟨yplusx, yminusx, t2d⟩

def geAdd (p : GeP3) (q : GeCached) : Run GeP3 := do
  let a ← feMul (← feSub p.Y p.X) q.YminusX
  let b ← feMul (← feAdd p.Y p.X) q.YplusX
  let c ← feMul q.T2d p.T
  let d ← feMul p.Z q.Z
  let d ← feAdd d d
  let e ← feSub b a
  let f ← feSub d c
  let g ← feAdd d c
  let h ← feAdd b a
  made ⟨← feMul e f, ← feMul g h, ← feMul f g, ← feMul e h⟩

def geMadd (p : GeP3) (q : GeCachedAffine) : Run GeP3 := do
  let a ← feMul (← feSub p.Y p.X) q.YminusX
  let b ← feMul (← feAdd p.Y p.X) q.YplusX
  let c ← feMul q.T2d p.T
  let d ← feAdd p.Z p.Z
  let e ← feSub b a
  let f ← feSub d c
  let g ← feAdd d c
  let h ← feAdd b a
  made ⟨← feMul e f, ← feMul g h, ← feMul f g, ← feMul e h⟩

def geDouble (p : GeP3) : Run GeP3 := do
  let A ← feSq p.X
  let B ← feSq p.Y
  let C ← feAdd (← feSq p.Z) (← feSq p.Z)
  let H ← feAdd A B
  let E ← feSub H (← feSq (← feAdd p.X p.Y))
  let G ← feSub A B
  let F ← feAdd C G
  made ⟨← feMul E F, ← feMul G H, ← feMul F G, ← feMul E H⟩

/-- one bit of the scalar, from the top: double, and add the base if it is set -/
def scalarBit (base : GeCached) (b bit : Nat) (r : GeP3) : Run GeP3 := do
  let r ← geDouble r
  if (b >>> bit) &&& 1 = 1 then geAdd r base else return r

/-- one byte of the scalar; bit 255 is masked out -/
def scalarByte (scalar : Bytes 32) (base : GeCached) (byte : Nat) (r : GeP3) : Run GeP3 :=
  let b := (scalar.get byte).toNat
  let b := if byte = 31 then b &&& 0x7f else b
  Logged.forDown (scalarBit base b) 8 r

def geScalarmultBase (scalar : Bytes 32) : Run GeP3 := do
  let r ← made ⟨⟨0, 0, 0, 0, 0⟩, ⟨1, 0, 0, 0, 0⟩, ⟨1, 0, 0, 0, 0⟩, ⟨0, 0, 0, 0, 0⟩⟩
  let base ← geToCached (← geBasepoint)
  Logged.forDown (scalarByte scalar base) 32 r

/-- set the top bit of the last byte: the sign of `x` -/
def setSign (out : Bytes 32) (sign : UInt8) : Bytes 32 :=
  out.set 31 (out.get 31 ||| sign <<< 7)

def geEncode (p : GeP3) : Run (Bytes 32) := do
  let zinv ← feInvert p.Z
  let x ← feMul p.X zinv
  let y ← feMul p.Y zinv
  let out ← feToBytes y
  let xb ← feToBytes x
  return setSign out (xb.get 0 &&& 1)

end Onion
