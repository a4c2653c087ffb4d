import Onion.Crypto.Walk

/-!
# What a stepper returns, and what its field calls receive

* `stepper_outputs`    any sequence of calls returns the affine `y` of the points of the walk, and
                       the counter modulo `2^64`;
* `fe_calls_exact`     along any run no machine operation wraps and every field call is exact.
-/

namespace Onion
open Logged

/-! ## the scalar stepper -/

theorem storeY_ok {out : List (Bytes 32)} {i : Nat} {y : Fe} (hy : y.Bnd (2^54))
    (hi : i < out.length) :
    Ok (storeY out i y) fun o => o = out.set i (canonBytes y.toFp) := by
  refine (feToBytes_ok hy).bind fun b hb => ?_
  have e : b = canonBytes y.toFp := Bytes.toNat_inj (hb.trans (canonBytes_toNat _).symm)
  rw [← e]
  exact vset_ok hi

/-- the scalar operations are exact, in their one lane -/
def stepExact : Exact stepOps Unit where
  good f := f.Bnd (2^54)
  val f _ := f.toFp
  rep p A := Rep p (A ())
  addend := AffineRep
  read out _ := out
  slot h := ⟨h.Y.mono (by norm_num), h.Z.mono (by norm_num), fun _ => ⟨h.rep.z_ne, h.rep.y_eq⟩⟩
  madd := geMadd_ok
  mul := feMul_exact
  invert hz := (feInvert_ok hz).mono fun _ hr => ⟨hr.1, fun _ => hr.2⟩
  store hy hi := (storeY_ok hy (hi ())).mono fun _ ho _ => ho

theorem new_ok (a0 : Bytes 32) : Ok (IncrementalStepper.new a0)
    (Walking stepExact (fun _ => a0.toNat % 2^255) 0) := by
  refine (geScalarmultBase_ok a0).bind fun cur hcur => ?_
  refine (geScalarmultBase_ok eight).bind fun p hp => ?_
  have h8 : eight.toNat % 2^255 = 8 := by decide
  rw [h8] at hp
  exact (geToCachedAffine_ok hp).bind fun q hq => Holds.pure ⟨hcur, hq, rfl, rfl, rfl⟩

/-- the batch sizes a caller can pass: `size_t`, at least one -/
def Sizes (outs : List (List (Bytes 32))) : Prop := ∀ o ∈ outs, 0 < o.length ∧ o.length < 2^64

instance (outs : List (List (Bytes 32))) : Decidable (Sizes outs) :=
  inferInstanceAs (Decidable (∀ o ∈ outs, 0 < o.length ∧ o.length < 2^64))

/-- the calls on a stepper from `a`: the counter before each, and its outputs -/
def walkOutputs (a c : Nat) : List Nat → List (Nat × List (Bytes 32))
  | [] => []
  | n :: ns => (c % 2^64, walkBytes a c n) :: walkOutputs a (c + n) ns

theorem walkCalls_full (a c : Nat) (outs : List (List (Bytes 32))) :
    walkCalls a c (outs.map fun o => (o, o.length)) = walkOutputs a c (outs.map List.length) := by
  induction outs generalizing c with
  | nil => rfl
  | cons o outs ih =>
    rw [List.map_cons, List.map_cons, walkCalls, walkOutputs, ih, List.drop_length, List.append_nil]

theorem run_ok (a0 : Bytes 32) {outs : List (List (Bytes 32))} (h : Sizes outs) :
    Ok (IncrementalStepper.run a0 outs) fun r =>
      Walking stepExact (fun _ => a0.toNat % 2^255) (outs.map List.length).sum r.1 ∧
      r.2 = walkOutputs (a0.toNat % 2^255) 0 (outs.map List.length) := by
  refine (new_ok a0).bind fun st hst => ?_
  refine (nextBatches_ok stepExact hst (outs.map fun o => (o, o.length)) fun call hc => ?_).mono
    fun r ⟨hw, hr⟩ => ⟨?_, ?_⟩
  · obtain ⟨o, ho, rfl⟩ := List.mem_map.mp hc
    exact ⟨(h o ho).1, (h o ho).2, fun _ => le_rfl⟩
  · rwa [List.map_map, Nat.zero_add] at hw
  · have hr := hr ()
    rw [List.map_map] at hr
    rw [← walkCalls_full]
    exact (List.map_id _).symm.trans hr

theorem walkOutputs_length (a c : Nat) (ns : List Nat) :
    (walkOutputs a c ns).length = ns.length := by
  induction ns generalizing c with
  | nil => rfl
  | cons n ns ih => rw [walkOutputs, List.length_cons, List.length_cons, ih]

theorem walkOutputs_getElem? (a c : Nat) (ns : List Nat) (m : Nat) :
    (walkOutputs a c ns)[m]? = ns[m]?.map fun n =>
      ((c + (ns.take m).sum) % 2^64, walkBytes a (c + (ns.take m).sum) n) := by
  induction ns generalizing c m with
  | nil => rfl
  | cons n ns ih =>
    cases m with
    | zero => rfl
    | succ m =>
      rw [walkOutputs, List.getElem?_cons_succ, List.getElem?_cons_succ, ih, List.take_succ_cons,
        List.sum_cons, Nat.add_assoc]

/-- **The outputs of a stepper.**  Output `k` of a call made after `c` outputs is the canonical
encoding of the affine `y` of `(a0 + 8 (c + k)) B`; the counter is `c` modulo `2^64`. -/
theorem stepper_outputs (a0 : Bytes 32) (h255 : a0.toNat < 2^255)
    (outs : List (List (Bytes 32))) (h : Sizes outs) :
    let r := (IncrementalStepper.run a0 outs).val
    r.1.consumed = (outs.map List.length).sum % 2^64 ∧ r.2.length = outs.length ∧
    ∀ m call, r.2[m]? = some call → let c := ((outs.map List.length).take m).sum
      call.1 = c % 2^64 ∧ outs[m]?.map List.length = some call.2.length ∧
      ∀ k b, call.2[k]? = some b →
        b.toNat = ((a0.toNat + 8 * (c + k)) • basePoint).y.val ∧ b.toNat < P25519 := by
  obtain ⟨hw, hr⟩ := (run_ok a0 h).2
  rw [Nat.mod_eq_of_lt h255] at hr
  refine ⟨hw.consumed, ?_, fun m call hm => ?_⟩
  · rw [hr, walkOutputs_length, List.length_map]
  rw [hr, walkOutputs_getElem?, Option.map_eq_some_iff] at hm
  obtain ⟨n, hn, rfl⟩ := hm
  rw [List.getElem?_map] at hn
  refine ⟨by rw [Nat.zero_add], by rw [hn, walkBytes_length], fun k b hb => ?_⟩
  have hk : k < n := by
    have h := (List.getElem?_eq_some_iff.mp hb).1
    rwa [walkBytes_length] at h
  rw [walkBytes_getElem? hk] at hb
  obtain rfl := Option.some.inj hb
  rw [canonBytes_toNat, Nat.zero_add]
  exact ⟨rfl, ZMod.val_lt _⟩

/-- two calls on one stepper -/
theorem stepper_outputs_eight :
    let r := (IncrementalStepper.run eight [[eight], [eight, eight]]).val
    r.1.consumed = 3 ∧ r.2.length = 2 ∧ ∀ m call, r.2[m]? = some call →
      let c := ([1, 2].take m).sum
      call.1 = c % 2^64 ∧ [[eight], [eight, eight]][m]?.map List.length = some call.2.length ∧
      ∀ k b, call.2[k]? = some b →
        b.toNat = ((eight.toNat + 8 * (c + k)) • basePoint).y.val ∧ b.toNat < P25519 :=
  stepper_outputs eight (by decide) [[eight], [eight, eight]] (by decide)

/-- the counter is a 64-bit word: after `2^44` batches of `2^20` it is back at zero -/
theorem consumed_wraps :
    let outs := List.replicate (2^44) (List.replicate (2^20) eight)
    eight.toNat < 2^255 ∧ Sizes outs ∧
      (IncrementalStepper.run eight outs).val.1.consumed = 0 ∧
      (outs.map List.length).sum = 2^64 := by
  intro outs
  have hsizes : Sizes outs := by
    intro o ho
    rw [List.eq_of_mem_replicate ho, List.length_replicate]
    decide
  have hsum : (outs.map List.length).sum = 2^64 := by
    rw [List.map_replicate, List.length_replicate, List.sum_replicate, smul_eq_mul, ← pow_add]
  have hc := (run_ok eight hsizes).2.1.consumed
  rw [hsum] at hc
  exact ⟨by decide, hsizes, hc, hsum⟩

/-! ## exactness of every field call -/

/-- every event of the run is a good one -/
def Clean {α : Type} (x : Run α) : Prop := ∀ e ∈ x.log, e.Good

/-- the points the routines can produce from scalars -/
inductive Made : GeP3 → Prop
  | base (s : Bytes 32) : Made (geScalarmultBase s).val
  | madd {p q : GeP3} : Made p → Made q → Made (geMadd p (geToCachedAffine q).val).val
  | add {p q : GeP3} : Made p → Made q → Made (geAdd p (geToCached q).val).val
  | double {p : GeP3} : Made p → Made (geDouble p).val

theorem Made.rep {p : GeP3} (h : Made p) : ∃ P, Rep p P := by
  induction h with
  | base s => exact ⟨_, (geScalarmultBase_ok s).2⟩
  | madd _ _ ihp ihq =>
    obtain ⟨P, hP⟩ := ihp
    obtain ⟨Q, hQ⟩ := ihq
    exact ⟨_, (geMadd_ok hP (geToCachedAffine_ok hQ).2).2⟩
  | add _ _ ihp ihq =>
    obtain ⟨P, hP⟩ := ihp
    obtain ⟨Q, hQ⟩ := ihq
    exact ⟨_, (geAdd_ok hP (geToCached_ok hQ).2).2⟩
  | double _ ih =>
    obtain ⟨P, hP⟩ := ih
    exact ⟨_, (geDouble_ok hP).2⟩

/-- **No field call loses a bit.**  Scalar multiplication, every routine on the points made from
it, and every walk of a stepper log only good events: exact results, limbs of points at most
`2^51`, and neither a wrap nor an access out of range. -/
theorem fe_calls_exact :
    (∀ s, Clean (geScalarmultBase s)) ∧
    (∀ p q, Made p → Made q →
      (p.X.Bnd (2^51) ∧ p.Y.Bnd (2^51) ∧ p.Z.Bnd (2^51) ∧ p.T.Bnd (2^51)) ∧
      Clean (geToCached q >>= geAdd p) ∧ Clean (geToCachedAffine q >>= geMadd p) ∧
      Clean (geDouble p) ∧ Clean (geEncode p)) ∧
    ∀ a0 outs, Sizes outs → Clean (IncrementalStepper.run a0 outs) := by
  refine ⟨fun s => (geScalarmultBase_ok s).1, fun p q hp hq => ?_, fun a0 outs h =>
    (run_ok a0 h).1⟩
  obtain ⟨P, hP⟩ := hp.rep
  obtain ⟨Q, hQ⟩ := hq.rep
  have hadd := (geToCached_ok hQ).bind fun r hr => geAdd_ok hP hr
  have hmadd := (geToCachedAffine_ok hQ).bind fun r hr => geMadd_ok hP hr
  exact ⟨hP.good, hadd.1, hmadd.1, (geDouble_ok hP).1, (geEncode_ok hP).1⟩

end Onion
