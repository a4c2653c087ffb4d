import Onion.Crypto.Stepper
import Onion.Device.KernelWalk

/-!
# Three batch inversions of one list of pairs

The inversions of the host and of the kernel read their pairs `(Y, Z)` off a walk; here the walk is
any list.

* `hostDivides`       scratch vectors that begin with the pairs;
* `pairWalk`          the walk of a thread that reads the pairs one after the other;
* `batch_inversions`  the host and both variants of the kernel write the same quotients, those of
                      dividing each pair by itself.
-/

namespace Onion
open Logged

def quotientOf (p : Fp × Fp) : Bytes 32 := canonBytes (p.1 * p.2⁻¹)

/-! ## the host -/

def hostPair (p : Fe × Fe) : Fp × Fp := (p.1.toFp, p.2.toFp)

/-- a pair that the host can divide -/
structure HostPair (p : Fe × Fe) : Prop where
  y : p.1.Bnd (2^54)
  z : p.2.Bnd (2^54)
  z_ne : p.2.toFp ≠ 0

theorem getD_of_take {α β : Type} {v : List α} {l : List β} {f : β → α}
    (h : v.take l.length = l.map f) (d : α) {k : Nat} (hk : k < l.length) :
    v.getD k d = f l[k] := by
  have e := congrArg (fun w => w.getD k d) h
  simp only [List.getD_eq_getElem?_getD, List.getElem?_take, hk, if_true, List.getElem?_map,
    List.getElem?_eq_getElem hk, Option.map_some, Option.getD_some] at e
  rw [List.getD_eq_getElem?_getD, e]

section
variable {pairs : List (Fe × Fe)} (hpairs : ∀ p ∈ pairs, HostPair p)
include hpairs

theorem hostDivides {st : IncrementalStepper} (hys : st.ys.take pairs.length = pairs.map Prod.fst)
    (hz : st.z.take pairs.length = pairs.map Prod.snd) {k : Nat} (hk : k < pairs.length) :
    Divides stepExact.field (fun _ => pairs[k].1.toFp * pairs[k].2.toFp⁻¹)
      (st.ys.getD k stepOps.zero) (st.z.getD k stepOps.zero) := by
  have hp := hpairs pairs[k] (List.getElem_mem hk)
  rw [getD_of_take hys _ hk, getD_of_take hz _ hk]
  refine ⟨hp.y, hp.z, fun _ => hp.z_ne, fun _ => ?_⟩
  show pairs[k].1.toFp = pairs[k].1.toFp * pairs[k].2.toFp⁻¹ * pairs[k].2.toFp
  rw [mul_assoc, inv_mul_cancel₀ hp.z_ne, mul_one]

theorem batchInvert_pairs (hpos : pairs ≠ []) (hlt : pairs.length < 2^64) {st : IncrementalStepper}
    (hys : st.ys.take pairs.length = pairs.map Prod.fst)
    (hz : st.z.take pairs.length = pairs.map Prod.snd) (hpre : pairs.length ≤ st.prefix_.length)
    {out : List (Bytes 32)} (hout : pairs.length ≤ out.length) :
    Ok (st.batchInvert stepOps out pairs.length) fun r =>
      r.2 = pairs.map (quotientOf ∘ hostPair) ++ out.drop pairs.length := by
  have hlen {v : List Fe} {f : Fe × Fe → Fe} (h : v.take pairs.length = pairs.map f) :
      pairs.length ≤ v.length := by
    have e := congrArg List.length h
    rw [List.length_take, List.length_map] at e
    omega
  -- the quotients by index, as the loops count
  obtain ⟨q, hq⟩ : ∃ q : Nat → Fp, ∀ k (hk : k < pairs.length),
      q k = pairs[k].1.toFp * pairs[k].2.toFp⁻¹ := by
    refine ⟨fun k => (pairs.map fun p => p.1.toFp * p.2.toFp⁻¹).getD k 0, fun k hk => ?_⟩
    show (pairs.map fun p => p.1.toFp * p.2.toFp⁻¹).getD k 0 = _
    rw [List.getD_eq_getElem _ _ (by rwa [List.length_map]), List.getElem_map]
  have hquot : quotientBytes q pairs.length = pairs.map (quotientOf ∘ hostPair) := by
    refine List.ext_getElem (by simp) fun k h1 h2 => ?_
    have hk : k < pairs.length := by rwa [quotientBytes_length] at h1
    simp only [quotientBytes, List.getElem_map, List.getElem_range, hq k hk]
    rfl
  refine (batchInvert_ok stepExact.field (q := fun k _ => q k) (List.length_pos_iff.mpr hpos) hlt
    (hlen hys) (hlen hz) hpre (fun _ => hout) fun k hk => ?_).mono fun r hr => ?_
  · rw [hq k hk]
    exact hostDivides hpairs hys hz hk
  · rw [← hquot]
    exact hr.2 ()

end

theorem divide_ok {p : Fe × Fe} (hp : HostPair p) :
    Ok (do feToBytes (← feMul p.1 (← feInvert p.2))) fun b => b = quotientOf (hostPair p) := by
  refine (feInvert_ok hp.z).bind fun zinv ⟨bz, ez⟩ => ?_
  refine (feMul_ok hp.y bz).bind fun y ⟨bY, ey⟩ => (feToBytes_ok (bY.mono (by norm_num))).mono ?_
  intro b hb
  apply Bytes.toNat_inj
  rw [hb, ey, ez, quotientOf, canonBytes_toNat]
  rfl

/-! ## the kernel -/

namespace DeviceField
variable {F : Type} {fd : DeviceField F} {val : F → Fp}

/-- a thread that reads the pairs one after the other -/
def pairWalk (fd : DeviceField F) (pairs : List (F × F)) : DevWalk F Nat where
  Y i := (pairs.getD i (fd.one, fd.one)).1
  Z i := (pairs.getD i (fd.one, fd.one)).2
  next i := i + 1

def devPair (val : F → Fp) (p : F × F) : Fp × Fp := (val p.1, val p.2)

theorem pairWalk_next (pairs : List (F × F)) (k : Nat) : (fd.pairWalk pairs).next^[k] 0 = k := by
  induction k with
  | zero => rfl
  | succ k ih =>
    rw [Function.iterate_succ_apply', ih]
    rfl

theorem quotients_map (q : List Fp) (y z : Nat → Fp)
    (h : ∀ k (hk : k < q.length), y k * (z k)⁻¹ = q[k]) :
    ((quotients y z q.length).map (Prod.map id canonBytes)).reverse =
      (List.range q.length).zip (q.map canonBytes) := by
  rw [quotients, List.map_map, ← List.map_reverse, List.reverse_reverse]
  refine List.ext_getElem (by simp) fun k h1 h2 => ?_
  have hk : k < q.length := by rwa [List.length_map, List.length_range] at h1
  simp only [List.getElem_map, List.getElem_range, List.getElem_zip, Function.comp_apply, Prod.map,
    id, h k hk]

theorem steps_pairs (hfd : fd.Exact val) (inv : BatchInversion) {pairs : List (F × F)}
    (hpos : pairs ≠ []) (hne : ∀ p ∈ pairs, val p.2 ≠ 0) :
    ((fd.steps (fd.pairWalk pairs) inv pairs.length 0).map (Prod.map id fd.toBytes)).reverse =
      (List.range pairs.length).zip (pairs.map (quotientOf ∘ devPair val)) := by
  have hbytes : Prod.map id fd.toBytes = Prod.map (id : Nat → Nat) canonBytes ∘ Prod.map id val := by
    funext p
    rw [Function.comp_apply, Prod.map, Prod.map, Prod.map, hfd.toBytes]
    rfl
  have hget (k : Nat) (hk : k < pairs.length) :
      pairs.getD k (fd.one, fd.one) = pairs[k] := List.getD_eq_getElem _ _ hk
  have hval := steps_val hfd (fd.pairWalk pairs) 0 inv (List.length_pos_iff.mpr hpos)
    fun k hk => by
      rw [pairWalk_next]
      show val (pairs.getD k (fd.one, fd.one)).2 ≠ 0
      rw [hget k hk]
      exact hne _ (List.getElem_mem hk)
  have hmap := quotients_map (pairs.map fun p => val p.1 * (val p.2)⁻¹)
    (fun k => val ((fd.pairWalk pairs).Y ((fd.pairWalk pairs).next^[k] 0)))
    (fun k => val ((fd.pairWalk pairs).Z ((fd.pairWalk pairs).next^[k] 0))) fun k hk => by
      rw [pairWalk_next, List.getElem_map]
      show val (pairs.getD k (fd.one, fd.one)).1 * (val (pairs.getD k (fd.one, fd.one)).2)⁻¹ = _
      rw [hget k (by rwa [List.length_map] at hk)]
  rw [List.length_map, ← hval, List.map_map, List.map_map, ← hbytes] at hmap
  exact hmap

end DeviceField

/-! ## all of them -/

/-- **The batch inversions agree**: the same pairs, not zero in the divisor, are divided alike by the
host, by both variants of the kernel over any exact field, and one by one. -/
theorem batch_inversions {F : Type} {fd : DeviceField F} {val : F → Fp} (hfd : fd.Exact val)
    {host : List (Fe × Fe)} {dev : List (F × F)}
    (hsame : dev.map (DeviceField.devPair val) = host.map hostPair)
    (hhost : ∀ p ∈ host, HostPair p) (hpos : host ≠ []) (hlt : host.length < 2^64)
    {st : IncrementalStepper} (hys : st.ys.take host.length = host.map Prod.fst)
    (hz : st.z.take host.length = host.map Prod.snd) (hpre : host.length ≤ st.prefix_.length)
    {out : List (Bytes 32)} (hout : host.length ≤ out.length) (inv : BatchInversion) :
    let quotients := host.map (quotientOf ∘ hostPair)
    Ok (st.batchInvert stepOps out host.length) (fun r => r.2 = quotients ++ out.drop host.length) ∧
      ((fd.steps (fd.pairWalk dev) inv host.length 0).map (Prod.map id fd.toBytes)).reverse =
        (List.range host.length).zip quotients ∧
      (∀ p ∈ host, Ok (do feToBytes (← feMul p.1 (← feInvert p.2)))
        fun b => b = quotientOf (hostPair p)) ∧
      dev.map (fun p => fd.toBytes (fd.mul p.1 (fd.invert p.2))) = quotients := by
  intro quotients
  have hlen : dev.length = host.length := by
    have e := congrArg List.length hsame
    rwa [List.length_map, List.length_map] at e
  have hquot : dev.map (quotientOf ∘ DeviceField.devPair val) = quotients := by
    rw [← List.map_map, hsame, List.map_map]
  have hne : ∀ p ∈ dev, val p.2 ≠ 0 := by
    intro p hp
    have hmem : DeviceField.devPair val p ∈ host.map hostPair := hsame ▸ List.mem_map_of_mem hp
    obtain ⟨r, hr, e⟩ := List.mem_map.mp hmem
    have hzr := (hhost r hr).z_ne
    rwa [show r.2.toFp = val p.2 from congrArg Prod.snd e] at hzr
  have hdev : dev ≠ [] := by
    rw [← List.length_pos_iff, hlen]
    exact List.length_pos_iff.mpr hpos
  refine ⟨batchInvert_pairs hhost hpos hlt hys hz hpre hout, ?_, fun p hp => divide_ok (hhost p hp), ?_⟩
  · have h := DeviceField.steps_pairs hfd inv hdev hne
    rwa [hlen, hquot] at h
  · rw [← hquot]
    refine List.map_congr_left fun p _ => ?_
    rw [hfd.toBytes, hfd.mul, DeviceField.invert_val hfd]
    rfl

/-- `2/3` and `0/1`, in a scratch vector that is longer than the batch -/
theorem batch_inversions_two :
    let two : Fe := ⟨2, 0, 0, 0, 0⟩
    let three : Fe := ⟨3, 0, 0, 0, 0⟩
    let zero : Fe := ⟨0, 0, 0, 0, 0⟩
    let host := [(two, three), (zero, three)]
    let quotients := host.map (quotientOf ∘ hostPair)
    let st : IncrementalStepper := ⟨⟨zero, zero, zero, zero⟩, ⟨zero, zero, zero⟩, 0, [two, zero, two],
      [three, three, two], [zero, zero, zero]⟩
    let out := List.replicate 3 (Bytes.ofNat 32 0)
    (st.batchInvert stepOps out 2).val.2 = quotients ++ [Bytes.ofNat 32 0] ∧
      ∀ inv, ((exactField.steps (exactField.pairWalk (host.map hostPair)) inv 2 0).map
        (Prod.map id canonBytes)).reverse = [0, 1].zip quotients := by
  intro two three zero host quotients st out
  have hne : three.toFp ≠ 0 := by
    intro h
    exact absurd ((fp_eq_iff 3 0).mp (h.trans Nat.cast_zero.symm)) (by decide)
  have hhost : ∀ p ∈ host, HostPair p := by
    simp only [host, List.forall_mem_cons, List.not_mem_nil, false_imp_iff, implies_true, and_true]
    exact ⟨⟨by decide, by decide, hne⟩, ⟨by decide, by decide, hne⟩⟩
  have hsame : (host.map hostPair).map (DeviceField.devPair id) = host.map hostPair := by
    rw [List.map_map]
    rfl
  have hys : st.ys.take host.length = host.map Prod.fst := rfl
  have hz : st.z.take host.length = host.map Prod.snd := rfl
  have hout : host.length ≤ out.length := by decide
  have h := batch_inversions exactField_exact hsame hhost (by simp [host]) (by simp [host]) hys hz
    (by decide) hout
  exact ⟨(h .fusedCombo).1.2, fun inv => (h inv).2.1⟩

end Onion
