import Onion.Lib.Indexed
import Onion.Lib.Bytes

/-!
# `sha3.cpp`: SHA3-256

The state is 25 lanes of 64 bits.  A `Sha3_256` carries that its buffer is never full between calls.
-/

namespace Onion

def kRoundConstants : List UInt64 :=
  [0x0000000000000001, 0x0000000000008082, 0x800000000000808a,
   0x8000000080008000, 0x000000000000808b, 0x0000000080000001,
   0x8000000080008081, 0x8000000000008009, 0x000000000000008a,
   0x0000000000000088, 0x0000000080008009, 0x000000008000000a,
   0x000000008000808b, 0x800000000000008b, 0x8000000000008089,
   0x8000000000008003, 0x8000000000008002, 0x8000000000000080,
   0x000000000000800a, 0x800000008000000a, 0x8000000080008081,
   0x8000000000008080, 0x0000000080000001, 0x8000000080008008]

def kRotc : List UInt64 :=
  [1, 3, 6, 10, 15, 21, 28, 36, 45, 55, 2, 14, 27, 41, 56, 8, 25, 43, 62, 18, 39, 61, 20, 44]

def kPiln : List (Fin 25) :=
  [10, 7, 11, 17, 18, 3, 5, 16, 8, 21, 24, 4, 15, 23, 19, 13, 12, 2, 20, 14, 22, 9, 6, 1]

abbrev Lanes := Vector UInt64 25

def rotl64 (x n : UInt64) : UInt64 := x <<< n ||| x >>> (64 - n)

/-- lane `i` of row `j`, where both wrap around at 5 -/
def lane5 (st : Lanes) (j i : Nat) : UInt64 :=
  st.get ⟨5 * (j % 5) + i % 5, by omega⟩

/-- the column parity `bc[i]` -/
def parity (st : Lanes) (i : Nat) : UInt64 :=
  lane5 st 0 i ^^^ lane5 st 1 i ^^^ lane5 st 2 i ^^^ lane5 st 3 i ^^^ lane5 st 4 i

def theta (st : Lanes) : Lanes :=
  Vector.ofFn fun k => st[k] ^^^ (parity st (k + 4) ^^^ rotl64 (parity st (k + 1)) 1)

/-- rho and pi in one pass: each lane takes the rotated lane that the pass displaced last -/
def rhoPi (st : Lanes) : Lanes :=
  ((kPiln.zip kRotc).foldl (fun (s : Lanes × UInt64) jr =>
    (s.1.set jr.1 (rotl64 s.2 jr.2), s.1[jr.1])) (st, st[1])).1

def chi (st : Lanes) : Lanes :=
  Vector.ofFn fun k =>
    st[k] ^^^ (~~~ lane5 st (k / 5) (k + 1) &&& lane5 st (k / 5) (k + 2))

def iota (rc : UInt64) (st : Lanes) : Lanes := st.set 0 (st[0] ^^^ rc)

def keccakf (st : Lanes) : Lanes :=
  kRoundConstants.foldl (fun st rc => iota rc (chi (rhoPi (theta st)))) st

/-- `Sha3_256::rate` -/
def rate : Nat := 136

structure Sha3_256 where
  state : Lanes
  buf : Bytes rate
  bufLen : Nat
  bufLen_lt : bufLen < rate

namespace Sha3_256

def new : Sha3_256 := ⟨Vector.replicate 25 0, Bytes.ofNat rate 0, 0, by decide⟩

/-- eight bytes of the buffer as a lane -/
def bufLane (buf : Bytes rate) (i : Nat) : UInt64 :=
  [7, 6, 5, 4, 3, 2, 1, 0].foldl (fun lane j => lane <<< 8 ||| (buf.get (i * 8 + j)).toUInt64) 0

def absorbBlock (state : Lanes) (buf : Bytes rate) : Lanes :=
  keccakf (Vector.ofFn fun i => if i.val < rate / 8 then state[i] ^^^ bufLane buf i else state[i])

def updateByte (h : Sha3_256) (b : UInt8) : Sha3_256 :=
  let buf := h.buf.set h.bufLen b
  if hlt : h.bufLen + 1 < rate then ⟨h.state, buf, h.bufLen + 1, hlt⟩
  else ⟨absorbBlock h.state buf, buf, 0, by decide⟩

def update (h : Sha3_256) (data : List UInt8) : Sha3_256 := data.foldl updateByte h

/-- the buffer of the last block: zeros, the domain and the padding bits -/
def padded (h : Sha3_256) : Bytes rate :=
  let buf : Bytes rate :=
    ⟨(List.range rate).map fun i => if i < h.bufLen then h.buf.get i else 0, by simp⟩
  let buf := buf.set h.bufLen 0x06
  buf.set (rate - 1) (buf.get (rate - 1) ||| 0x80)

def finalize (h : Sha3_256) : Bytes 32 :=
  let state := absorbBlock h.state h.padded
  ⟨(List.range 32).map fun k => (lane5 state 0 (k / 8) >>> UInt64.ofNat (8 * (k % 8))).toUInt8,
    by simp⟩

end Sha3_256

end Onion
