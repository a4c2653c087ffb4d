import Onion.Crypto.StepperX4

/-!
# `ge_p3x4_unpack`: out of the four lanes

The lanes are read back through their bytes, as they were packed.

* `geP3x4Unpack_ok`    a lane read back stands for the point of the lane;
* `addChainX4_ok`      any number of additions in the lanes, between packing and unpacking;
* `unpack_encode`      the encoding is that of as many scalar additions.
-/

namespace Onion
open Logged

def fe4ExtractLane (f : Fe4) (lane : Fin 4) : Fe := feFromBytes (fe4StoreY f)[lane]

def geP3x4Unpack (p : GeP3x4) (lane : Fin 4) : GeP3 :=
  ⟨fe4ExtractLane p.X lane, fe4ExtractLane p.Y lane, fe4ExtractLane p.Z lane,
    fe4ExtractLane p.T lane⟩

/-- pack, add `q` to every lane `n` times, and encode a lane -/
def addChainX4 (p : Vector GeP3 4) (q : GeP3) (n : Nat) (lane : Fin 4) : Run (Bytes 32) := do
  let packed ← geP3x4Pack p
  let qx4 ← geCachedAffinex4Broadcast (← geToCachedAffine q)
  let res ← forUp (fun _ r => geMaddX4 r qx4) n packed
  geEncode (geP3x4Unpack res lane)

/-- add `q` to a point `n` times, and encode it -/
def addChain (p q : GeP3) (n : Nat) : Run (Bytes 32) := do
  let q ← geToCachedAffine q
  let res ← forUp (fun _ r => geMadd r q) n p
  geEncode res

/-! ## a lane -/

theorem fe4ExtractLane_ok {f : Fe4} (hf : f.Bnd (2^27)) (l : Fin 4) :
    (fe4ExtractLane f l).Bnd (2^51) ∧ (fe4ExtractLane f l).toFp = f.toFp l := by
  have hlt : (f.toFp l).val < 2^255 := by
    have h1 := ZMod.val_lt (f.toFp l)
    have h2 := p25519_add
    omega
  refine ⟨feFromBytes_bnd _, ?_⟩
  rw [fe4ExtractLane, Fe.toFp, feFromBytes_val, fe4StoreY_ok hf, Nat.mod_eq_of_lt hlt,
    ZMod.natCast_zmod_val]

theorem geP3x4Unpack_ok {p : GeP3x4} {A : Fin 4 → EdPoint} (hp : RepX4 p A) (l : Fin 4) :
    Rep (geP3x4Unpack p l) (A l) := by
  obtain ⟨bx, ex⟩ := fe4ExtractLane_ok hp.X l
  obtain ⟨bY, ey⟩ := fe4ExtractLane_ok hp.Y l
  obtain ⟨bz, ez⟩ := fe4ExtractLane_ok hp.Z l
  obtain ⟨bt, et⟩ := fe4ExtractLane_ok hp.T l
  refine ⟨bx, bY, bz, bt, ?_⟩
  have h := hp.rep l
  rw [← ex, ← ey, ← ez, ← et] at h
  exact h

/-! ## chains of additions -/

theorem addChain_ok {p q : GeP3} {A Q : EdPoint} (hp : Rep p A) (hq : Rep q Q) (n : Nat) :
    Ok (addChain p q n) fun r => r = encodePoint (A + n • Q) := by
  refine (geToCachedAffine_ok hq).bind fun c hc => ?_
  refine (Holds.forUp (fun k r => Rep r (A + k • Q)) n ?_ fun k r _ hr => ?_).bind
    fun r hr => geEncode_ok hr
  · rw [zero_smul, add_zero]
    exact hp
  · rw [succ_nsmul, ← add_assoc]
    exact geMadd_ok hr hc

theorem addChainX4_ok {p : Vector GeP3 4} {A : Fin 4 → EdPoint} {q : GeP3} {Q : EdPoint}
    (hp : ∀ l : Fin 4, Rep p[l] (A l)) (hq : Rep q Q) (n : Nat) (l : Fin 4) :
    Ok (addChainX4 p q n l) fun r => r = encodePoint (A l + n • Q) := by
  refine (geP3x4Pack_ok hp).bind fun packed hpacked => ?_
  refine (geToCachedAffine_ok hq).bind fun c hc => ?_
  refine (geCachedAffinex4Broadcast_ok hc).bind fun qx4 hqx4 => ?_
  refine (Holds.forUp (fun k r => RepX4 r fun l => A l + k • Q) n ?_ fun k r _ hr => ?_).bind
    fun r hr => geEncode_ok (geP3x4Unpack_ok hr l)
  · simp only [zero_smul, add_zero]
    exact hpacked
  · simp only [succ_nsmul, ← add_assoc]
    exact geMaddX4_ok hr hqx4

/-- **Four lanes add as one.**  For all valid points, and any number of additions of a valid point
between packing and unpacking (none included): nothing wraps, and each lane is read back with the
encoding that as many scalar additions give. -/
theorem unpack_encode {p : Vector GeP3 4} {q : GeP3} (hp : ∀ l : Fin 4, p[l].Valid) (hq : q.Valid)
    (n : Nat) (l : Fin 4) :
    (∀ e ∈ (addChainX4 p q n l).log ++ (addChain p[l] q n).log, e.Good) ∧
      (addChainX4 p q n l).val = (addChain p[l] q n).val ∧
      (addChain p[l] q n).val = encodePoint (p[l].affine (hp l) + n • q.affine hq) := by
  obtain ⟨hlog4, hval4⟩ := addChainX4_ok (fun l => (hp l).rep) hq.rep n l
  obtain ⟨hlog, hval⟩ := addChain_ok (hp l).rep hq.rep n
  refine ⟨fun e he => ?_, hval4.trans hval.symm, hval⟩
  rcases List.mem_append.mp he with he | he
  · exact hlog4 e he
  · exact hlog e he

/-- the base point in every lane, added twice -/
theorem unpack_encode_thrice :
    let b := geBasepoint.val
    let p := Vector.replicate 4 b
    (∀ e ∈ (addChainX4 p b 2 3).log ++ (addChain p[(3 : Fin 4)] b 2).log, e.Good) ∧
      (addChainX4 p b 2 3).val = (addChain p[(3 : Fin 4)] b 2).val := by
  intro b p
  obtain ⟨hb, -⟩ := geBasepoint_ok.2.valid
  have hp : ∀ l : Fin 4, p[l].Valid := fun l => by
    rw [Vector.getElem_replicate_fin]
    exact hb
  obtain ⟨hlog, hval, -⟩ := unpack_encode hp hb 2 3
  exact ⟨hlog, hval⟩

end Onion
