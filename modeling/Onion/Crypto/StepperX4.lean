import Onion.Crypto.IncrementalX4
import Onion.Crypto.Fe4Bytes
import Onion.Crypto.Stepper

/-!
# The four-lane stepper writes the streams of four scalar steppers

* `geMaddX4_ok`        the formula of `ge_madd`, in every lane;
* `stepExactX4`        the four-lane operations are exact;
* `x4_streams`         lane for lane the outputs and counters of the scalar stepper.
-/

namespace Onion
open Logged TwistedEdwards

/-! ## points in four lanes -/

/-- the coordinates of `p` stand, in lane `l`, for the point `A l` -/
structure RepX4 (p : GeP3x4) (A : Fin 4 → EdPoint) : Prop where
  X : p.X.Bnd (2^27)
  Y : p.Y.Bnd (2^27)
  Z : p.Z.Bnd (2^27)
  T : p.T.Bnd (2^27)
  rep : ∀ l, Represents (p.X.toFp l) (p.Y.toFp l) (p.Z.toFp l) (p.T.toFp l) (A l)

/-- `q` caches the affine coordinates of `Q` in every lane -/
structure AffineRepX4 (q : GeCachedAffinex4) (Q : EdPoint) : Prop where
  yplusx : q.YplusX.Bnd (2^27)
  yminusx : q.YminusX.Bnd (2^27)
  t2d : q.T2d.Bnd (2^27)
  yplusx_eq : ∀ l, q.YplusX.toFp l = Q.y + Q.x
  yminusx_eq : ∀ l, q.YminusX.toFp l = Q.y - Q.x
  t2d_eq : ∀ l, q.T2d.toFp l = Q.x * Q.y * (2 * ed25519.d)

theorem Fe4.Bnd.wide {f : Fe4} (h : f.Bnd (2^26)) : f.Bnd (2^27) := h.mono (by norm_num)

theorem geMaddX4_ok {p : GeP3x4} {q : GeCachedAffinex4} {A : Fin 4 → EdPoint} {Q : EdPoint}
    (hp : RepX4 p A) (hq : AffineRepX4 q Q) :
    Ok (geMaddX4 p q) fun r => RepX4 r fun l => A l + Q := by
  unfold geMaddX4
  refine (fe4Sub_ok hp.Y hp.X).bind fun s ⟨bs, es⟩ => ?_
  refine (fe4Mul_ok bs.wide hq.yminusx).bind fun a ⟨ba, ea⟩ => ?_
  refine (fe4Add_ok hp.Y hp.X).bind fun u ⟨bu, eu⟩ => ?_
  refine (fe4Mul_ok bu.wide hq.yplusx).bind fun b ⟨bb, eb⟩ => ?_
  refine (fe4Mul_ok hq.t2d hp.T).bind fun c ⟨bc, ec⟩ => ?_
  refine (fe4Add_ok hp.Z hp.Z).bind fun d ⟨bd, ed⟩ => ?_
  refine (fe4Sub_ok bb.wide ba.wide).bind fun e ⟨be, ee⟩ => ?_
  refine (fe4Sub_ok bd.wide bc.wide).bind fun f ⟨bf, ef⟩ => ?_
  refine (fe4Add_ok bd.wide bc.wide).bind fun g ⟨bg, eg⟩ => ?_
  refine (fe4Add_ok bb.wide ba.wide).bind fun h ⟨bh, eh⟩ => ?_
  refine (fe4Mul_ok be.wide bf.wide).bind fun x ⟨bx, ex⟩ => ?_
  refine (fe4Mul_ok bg.wide bh.wide).bind fun y ⟨bY, ey⟩ => ?_
  refine (fe4Mul_ok bf.wide bg.wide).bind fun z ⟨bz, ez⟩ => ?_
  refine (fe4Mul_ok be.wide bh.wide).bind fun t ⟨bt, et⟩ => ?_
  refine Holds.pure ⟨bx.wide, bY.wide, bz.wide, bt.wide, fun l => ?_⟩
  rw [ex, ey, ez, et, ee, ef, eg, eh, ea, eb, ec, ed, es, eu, hq.yplusx_eq, hq.yminusx_eq,
    hq.t2d_eq]
  exact Represents.madd (hp.rep l) Q

/-! ## packing -/

theorem fe4Load_toFp {f : Fe} {b : Vector (Bytes 32) 4} {l : Fin 4}
    (h : (b[l]).toNat = f.toFp.val) : Fe4.toFp (fe4Load b) l = f.toFp := by
  have hlt : f.toFp.val < 2^255 := by
    have h1 := ZMod.val_lt f.toFp
    have h2 := p25519_add
    omega
  rw [Fe4.toFp, fe4Load_val, h, Nat.mod_eq_of_lt hlt, ZMod.natCast_zmod_val]

theorem load4_ok {f : Vector Fe 4} (hf : ∀ l : Fin 4, (f[l]).Bnd (2^54)) :
    Ok (load4 f) fun r => r.Bnd (2^27) ∧ ∀ l : Fin 4, r.toFp l = (f[l]).toFp := by
  refine (Holds.all fun l => feToBytes_ok (hf l)).bind fun b hb => Holds.pure ?_
  exact ⟨(fe4Load_bnd b).wide, fun l => fe4Load_toFp (hb l)⟩

theorem fe4Broadcast_ok {f : Fe} (hf : f.Bnd (2^54)) :
    Ok (fe4Broadcast f) fun r => r.Bnd (2^27) ∧ ∀ l, r.toFp l = f.toFp := by
  refine (feToBytes_ok hf).bind fun b hb => Holds.pure ?_
  refine ⟨(fe4Load_bnd _).wide, fun l => fe4Load_toFp ?_⟩
  rw [← hb]
  fin_cases l <;> rfl

theorem geP3x4Pack_ok {p : Vector GeP3 4} {A : Fin 4 → EdPoint} (hp : ∀ l : Fin 4, Rep p[l] (A l)) :
    Ok (geP3x4Pack p) fun r => RepX4 r A := by
  have wide {f : GeP3 → Fe} (h : ∀ l : Fin 4, (f p[l]).Bnd (2^51)) (l : Fin 4) :
      ((p.map f)[l]).Bnd (2^54) := by
    have e : (p.map f)[l] = f p[l] := by simp
    rw [e]
    exact (h l).mono (by norm_num)
  unfold geP3x4Pack
  refine (load4_ok (wide fun l => (hp l).X)).bind fun X ⟨bX, eX⟩ => ?_
  refine (load4_ok (wide fun l => (hp l).Y)).bind fun Y ⟨bY, eY⟩ => ?_
  refine (load4_ok (wide fun l => (hp l).Z)).bind fun Z ⟨bZ, eZ⟩ => ?_
  refine (load4_ok (wide fun l => (hp l).T)).bind fun T ⟨bT, eT⟩ => ?_
  refine Holds.pure ⟨bX, bY, bZ, bT, fun l => ?_⟩
  have h := (hp l).rep
  rw [eX, eY, eZ, eT]
  simpa using h

theorem geCachedAffinex4Broadcast_ok {q : GeCachedAffine} {Q : EdPoint} (hq : AffineRep q Q) :
    Ok (geCachedAffinex4Broadcast q) fun r => AffineRepX4 r Q := by
  unfold geCachedAffinex4Broadcast
  refine (fe4Broadcast_ok (hq.yplusx.mono (by norm_num))).bind fun a ⟨ba, ea⟩ => ?_
  refine (fe4Broadcast_ok (hq.yminusx.mono (by norm_num))).bind fun b ⟨bb, eb⟩ => ?_
  refine (fe4Broadcast_ok (hq.t2d.mono (by norm_num))).bind fun t ⟨bt, et⟩ => ?_
  exact Holds.pure ⟨ba, bb, bt, fun l => (ea l).trans hq.yplusx_eq,
    fun l => (eb l).trans hq.yminusx_eq, fun l => (et l).trans hq.t2d_eq⟩

/-! ## the stepper -/

theorem storeY4_ok {out : Out4} {i : Nat} {y : Fe4} (hy : y.Bnd (2^27))
    (hi : ∀ l : Fin 4, i < (out[l]).length) :
    Ok (storeY4 out i y) fun o => ∀ l : Fin 4, o[l] = (out[l]).set i (canonBytes (y.toFp l)) := by
  refine (Holds.all fun l => vset_ok (hi l)).mono fun o ho l => ?_
  have e : (fe4StoreY y)[l] = canonBytes (y.toFp l) :=
    Bytes.toNat_inj ((fe4StoreY_ok hy l).trans (canonBytes_toNat _).symm)
  rw [ho l, e]

/-- the four-lane operations are exact -/
def stepExactX4 : Exact stepOpsX4 (Fin 4) where
  good f := f.Bnd (2^27)
  val := Fe4.toFp
  rep := RepX4
  addend := AffineRepX4
  read out l := out[l]
  slot h := ⟨h.Y, h.Z, fun l => ⟨(h.rep l).z_ne, (h.rep l).y_eq⟩⟩
  madd := geMaddX4_ok
  mul := fe4Mul_exact
  invert := fe4Invert_ok
  store := storeY4_ok

theorem newX4_ok (a0 : Vector (Bytes 32) 4) : Ok (IncrementalStepperX4.new a0)
    (Walking stepExactX4 (fun l => (a0[l]).toNat % 2^255) 0) := by
  refine (Holds.all fun l => geScalarmultBase_ok a0[l]).bind fun p hp => ?_
  refine (geP3x4Pack_ok hp).bind fun cur hcur => ?_
  refine (geScalarmultBase_ok eight).bind fun e he => ?_
  have h8 : eight.toNat % 2^255 = 8 := by decide
  rw [h8] at he
  refine (geToCachedAffine_ok he).bind fun q hq => ?_
  exact (geCachedAffinex4Broadcast_ok hq).bind fun q4 hq4 => Holds.pure ⟨hcur, hq4, rfl, rfl, rfl⟩

/-- the calls a caller can make: `n` is a `size_t`, at least one, and the vectors hold `n` entries -/
def Calls (calls : List (Out4 × Nat)) : Prop :=
  ∀ call ∈ calls, 0 < call.2 ∧ call.2 < 2^64 ∧ ∀ l : Fin 4, call.2 ≤ (call.1[l]).length

theorem runX4_ok (a0 : Vector (Bytes 32) 4) {calls : List (Out4 × Nat)} (h : Calls calls) :
    Ok (IncrementalStepperX4.run a0 calls) fun r =>
      Walking stepExactX4 (fun l => (a0[l]).toNat % 2^255) (calls.map Prod.snd).sum r.1 ∧
      ∀ l : Fin 4, r.2.map (fun c => (c.1, c.2[l])) =
        walkCalls ((a0[l]).toNat % 2^255) 0 (calls.map fun c => (c.1[l], c.2)) := by
  refine (newX4_ok a0).bind fun st hst => (nextBatches_ok stepExactX4 hst calls h).mono ?_
  rintro r ⟨hw, hr⟩
  rw [Nat.zero_add] at hw
  exact ⟨hw, hr⟩

/-- the entries that a call wrote -/
theorem walkCalls_take (a c : Nat) (calls : List (List (Bytes 32) × Nat)) :
    List.zipWith (fun (n : Nat) (r : Nat × List (Bytes 32)) => (r.1, r.2.take n))
      (calls.map Prod.snd) (walkCalls a c calls) = walkOutputs a c (calls.map Prod.snd) := by
  induction calls generalizing c with
  | nil => rfl
  | cons call calls ih =>
    rw [List.map_cons, walkCalls, List.zipWith_cons_cons, walkOutputs, ih,
      List.take_left' (walkBytes_length _ _ _)]

/-- **Lane for lane the scalar stepper**: the counter before each call, the entries each call
writes, and the counter at the end. -/
theorem x4_streams (a0 : Vector (Bytes 32) 4) (calls : List (Out4 × Nat)) (h : Calls calls)
    (l : Fin 4) (outs : List (List (Bytes 32))) (hs : outs.map List.length = calls.map Prod.snd) :
    let r4 := (IncrementalStepperX4.run a0 calls).val
    let r := (IncrementalStepper.run a0[l] outs).val
    List.zipWith (fun (n : Nat) (c : Nat × Out4) => (c.1, (c.2[l]).take n)) (calls.map Prod.snd) r4.2
      = r.2 ∧ r4.1.consumed = r.1.consumed := by
  intro r4 r
  obtain ⟨hw4, hr4⟩ := (runX4_ok a0 h).2
  have hsizes : Sizes outs := fun o ho => by
    have hm : o.length ∈ calls.map Prod.snd := hs ▸ List.mem_map_of_mem ho
    obtain ⟨call, hc, he⟩ := List.mem_map.mp hm
    exact he ▸ ⟨(h call hc).1, (h call hc).2.1⟩
  obtain ⟨hw, hr⟩ := (run_ok a0[l] hsizes).2
  refine ⟨?_, hw4.consumed.trans (hs ▸ hw.consumed.symm)⟩
  have hz := walkCalls_take ((a0[l]).toNat % 2^255) 0 (calls.map fun c => (c.1[l], c.2))
  rw [← hr4 l, List.zipWith_map_right, List.map_map] at hz
  rw [hr, hs]
  exact hz

def fourLanes : Vector (Bytes 32) 4 := Vector.ofFn fun l => Bytes.ofNat 32 (8 * (l + 1))

/-- three candidates in each lane, then two, in buffers for four -/
def twoCalls : List (Out4 × Nat) :=
  [3, 2].map fun n => (Vector.replicate 4 (List.replicate 4 (Bytes.ofNat 32 0)), n)

theorem twoCalls_calls : Calls twoCalls := by
  intro call hc
  obtain ⟨n, hn, rfl⟩ := List.mem_map.mp hc
  have hn : 1 ≤ n ∧ n ≤ 3 := by
    have hall : ∀ n ∈ [3, 2], 1 ≤ n ∧ n ≤ 3 := by decide
    exact hall n hn
  refine ⟨hn.1, by dsimp only; omega, fun l => ?_⟩
  rw [Vector.getElem_replicate_fin, List.length_replicate]
  dsimp only
  omega

/-- every lane of two calls -/
theorem x4_streams_two :
    let outs := [3, 2].map fun n => List.replicate n (Bytes.ofNat 32 0)
    let r4 := (IncrementalStepperX4.run fourLanes twoCalls).val
    ∀ l : Fin 4, let r := (IncrementalStepper.run fourLanes[l] outs).val
      List.zipWith (fun (n : Nat) (c : Nat × Out4) => (c.1, (c.2[l]).take n))
        (twoCalls.map Prod.snd) r4.2 = r.2 ∧ r4.1.consumed = r.1.consumed := by
  intro outs r4 l
  have h := x4_streams fourLanes twoCalls twoCalls_calls l outs rfl
  -- plain unification would run the steppers
  with_reducible exact h

end Onion
