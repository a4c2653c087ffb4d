import Onion.Lib.WordBytes
import Onion.Device.Field32
import Onion.Device.Kernel
import Onion.Crypto.FeBytes

/-!
# The bytes of the device fields, and the bridge from the host

* `fedFromBytes`, `fedToBytes`   `device_field32.cuh`: eight words, reduced by three passes of
                     conditional subtraction;
* `fed51FromBytes`, `fed51ToBytes`   `device_field.cuh`, the port of the host code;
* `toDeviceFe32`, `toDeviceFe51`   `to_device_fe` for each backend;
* `device_bytes`     both backends write the bytes of the host.
-/

namespace Onion
open Logged

/-! ## `device_field32.cuh` -/

def loadFe32 (s : Bytes 32) : Fe32 := ⟨loadWords 8 s.1, loadWords_length 8 s.1⟩

def storeFe32 (w : Fe32) : Bytes 32 :=
  ⟨w.1.flatMap wordBytes, (flatMap_wordBytes_length w.1).trans (congrArg (4 * ·) w.2)⟩

/-- `w[7] &= 0x7fffffff` -/
def dropSign (w : Fe32) : Fe32 :=
  ⟨w.1.set 7 (w.1.getD 7 0 &&& 0x7fffffff), List.length_set.trans w.2⟩

def fedFromBytes (s : Bytes 32) : Fe32 := dropSign (loadFe32 s)

def pWords : Fe32 := ⟨0xffffffed :: List.replicate 6 0xffffffff ++ [0x7fffffff], rfl⟩

/-- one pass: `t = w - p`, kept if nothing was borrowed -/
def subPass (w : Fe32) : Fe32 :=
  let t := subtract w.1 pWords.1 0
  if t.2 = 0 then ⟨t.1, (subtract_length (w.2.trans pWords.2.symm) 0).trans w.2⟩ else w

def fedToBytes (a : Fe32) : Bytes 32 := storeFe32 (subPass (subPass (subPass a)))

/-- the 32-bit backend, as the kernel uses it -/
def field32 : DeviceField Fe32 := ⟨fedAdd, fedSub, fedMul, fedSq, fedFromBytes, fedToBytes⟩

/-! ## `device_field.cuh` -/

def fed51FromBytes (s : Bytes 32) : Fe := feFromBytes s

def fed51ToBytes (f : Fe) : Run (Bytes 32) := feToBytes f

/-- the 51-bit backend, on words that wrap -/
def field51 : DeviceField Fe where
  add a b := (feAdd a b).val
  sub a b := (feSub a b).val
  mul a b := (feMul a b).val
  sq a := (feSq a).val
  fromBytes := fed51FromBytes
  toBytes f := (fed51ToBytes f).val

/-! ## `device_field_select.cuh` -/

/-- through the canonical bytes, which are decoded as `fed_from_bytes` does -/
def toDeviceFe32 (f : Fe) : Run Fe32 := do
  let b ← feToBytes f
  return dropSign (loadFe32 b)

/-- the layout is the same: the limbs are copied -/
def toDeviceFe51 (f : Fe) : Fe := ⟨f.v0, f.v1, f.v2, f.v3, f.v4⟩

theorem field32_toDeviceFe (f : Fe) : field32.toDeviceFe f = (toDeviceFe32 f).val := rfl

/-! ## decoding -/

theorem dropSign_val (w : Fe32) : (dropSign w).val = w.val % 2^255 := by
  have hlt : w.val < 2^256 := w.val_lt
  have hset := wordsVal_set w.1 (i := 7) (by rw [w.2]; norm_num) (w.1.getD 7 0 &&& 0x7fffffff)
  have hmask : (0x7fffffff : UInt32).toNat = 2^31 - 1 := rfl
  rw [UInt32.toNat_and, hmask, Nat.and_two_pow_sub_one_eq_mod, wordsVal_getD] at hset
  have hval : (dropSign w).val + 2^224 * (w.val / 2^224 % 2^32)
      = w.val + 2^224 * (w.val / 2^224 % 2^32 % 2^31) := hset
  omega

theorem loadFe32_val (s : Bytes 32) : (loadFe32 s).val = s.toNat := by
  have hload : (loadFe32 s).val = s.toNat % (2^32)^8 := wordsVal_loadWords 8 s.1
  rw [hload]
  exact Nat.mod_eq_of_lt s.toNat_lt

theorem fedFromBytes_val (s : Bytes 32) : (fedFromBytes s).val = s.toNat % 2^255 := by
  rw [fedFromBytes, dropSign_val, loadFe32_val]

/-- the kernel's model uploads through the bytes; the copied limbs stand for the same element -/
theorem field51_toDeviceFe {f : Fe} (hf : f.Bnd (2^54)) :
    (field51.toDeviceFe f).toFp = (toDeviceFe51 f).toFp := by
  have hlt := ZMod.val_lt f.toFp
  have hp := p25519_add
  have hval : (field51.toDeviceFe f).val = f.toFp.val := by
    have h : (field51.toDeviceFe f).val = (feToBytes f).val.toNat % 2^255 := feFromBytes_val _
    rw [h, (feToBytes_ok hf).2]
    exact Nat.mod_eq_of_lt (by omega)
  rw [Fe.toFp, hval]
  exact ZMod.natCast_zmod_val f.toFp

/-! ## encoding -/

theorem storeFe32_toNat (w : Fe32) : (storeFe32 w).toNat = w.val := le_flatMap_wordBytes w.1

theorem pWords_val : pWords.val = P25519 := by decide

theorem subPass_val (w : Fe32) :
    (subPass w).val = if P25519 ≤ w.val then w.val - P25519 else w.val := by
  have hlt : w.val < 2^256 := w.val_lt
  have hlen := w.2.trans pWords.2.symm
  obtain ⟨hval, hle⟩ := subtract_val hlen (show (0 : UInt64).toNat ≤ 1 by decide)
  have hrest := wordsVal_lt (subtract w.1 pWords.1 0).1
  rw [subtract_length hlen 0, w.2] at hrest
  rw [w.2] at hval
  have hp : wordsVal pWords.1 = P25519 := pWords_val
  have hsum : wordsVal (subtract w.1 pWords.1 0).1 + wordsVal pWords.1
      = w.val + 2^256 * (subtract w.1 pWords.1 0).2.toNat := hval
  rw [hp] at hsum
  have hP : P25519 = 2^255 - 19 := rfl
  by_cases h0 : (subtract w.1 pWords.1 0).2 = 0
  · have e : subPass w = ⟨(subtract w.1 pWords.1 0).1, (subtract_length hlen 0).trans w.2⟩ := if_pos h0
    have hz : (subtract w.1 pWords.1 0).2.toNat = 0 := UInt64.toNat_inj.mpr h0
    rw [e, if_pos (by omega)]
    show wordsVal (subtract w.1 pWords.1 0).1 = _
    omega
  · have e : subPass w = w := if_neg h0
    have hz : (subtract w.1 pWords.1 0).2.toNat ≠ 0 := fun h => h0 (UInt64.toNat_inj.mp h)
    rw [e, if_neg (by omega)]

/-- `2^256 < 3p`: the passes reach the canonical value -/
theorem fedToBytes_toNat (a : Fe32) : (fedToBytes a).toNat = a.val % P25519 := by
  have hlt : a.val < 2^256 := a.val_lt
  have hP : P25519 = 2^255 - 19 := rfl
  rw [fedToBytes, storeFe32_toNat, subPass_val, subPass_val, subPass_val, hP]
  generalize a.val = n at hlt ⊢
  split_ifs <;> omega

/-! ## both backends -/

/-- **Device bytes**: every element of the host is written by either backend as the host writes it;
any eight words are written reduced; and decoding drops bit 255 only. -/
theorem device_bytes {f : Fe} (hf : f.Bnd (2^54)) (w : Fe32) (s : Bytes 32) :
    Ok (toDeviceFe32 f) (fun d => fedToBytes d = (feToBytes f).val) ∧
      Ok (fed51ToBytes (toDeviceFe51 f)) (fun b => b = (feToBytes f).val) ∧
      (fedToBytes w).toNat = w.val % P25519 ∧
      (fedFromBytes s).val = s.toNat % 2^255 ∧ (fed51FromBytes s).val = s.toNat % 2^255 := by
  have hhost := feToBytes_ok hf
  refine ⟨?_, hhost.mono fun b hb => Bytes.toNat_inj (hb.trans hhost.2.symm), fedToBytes_toNat w,
    fedFromBytes_val s, feFromBytes_val s⟩
  refine hhost.bind fun b hb => Holds.pure (Bytes.toNat_inj ?_)
  have hlt := ZMod.val_lt f.toFp
  have hp := p25519_add
  have hval : (fedFromBytes b).val = f.toFp.val := by
    rw [fedFromBytes_val, hb]
    exact Nat.mod_eq_of_lt (by omega)
  rw [hhost.2, ← Nat.mod_eq_of_lt hlt, ← hval]
  exact fedToBytes_toNat _

/-- `2^256 - 1` on the device, and `2p` from the host -/
theorem device_bytes_wrap : (fedToBytes ones).toNat = 37 ∧
    (fedToBytes (toDeviceFe32 ⟨2^52 - 38, 2^52 - 2, 2^52 - 2, 2^52 - 2, 2^52 - 2⟩).val) =
      (feToBytes ⟨2^52 - 38, 2^52 - 2, 2^52 - 2, 2^52 - 2, 2^52 - 2⟩).val := by
  have hf : Fe.Bnd ⟨2^52 - 38, 2^52 - 2, 2^52 - 2, 2^52 - 2, 2^52 - 2⟩ (2^54) :=
    ⟨by decide, by decide, by decide, by decide, by decide⟩
  obtain ⟨h1, -, h2, -⟩ := device_bytes hf ones (Bytes.ofNat 32 0)
  refine ⟨h2.trans ?_, h1.2⟩
  decide +kernel

end Onion
