import Onion.Crypto.Incremental
import Onion.Crypto.FeBytes
import Mathlib.Algebra.BigOperators.Group.Finset.Basic

/-!
# The batch inversion of `next_batch_impl`

The second and the third loop divide `n` pairs with one inversion, whatever the first loop has put
into the scratch vectors.

* `ExactField`        field elements in lanes, on which the operations of a stepper are exact;
* `Stepper.batchInvert`   the two loops (`nextBatchImpl_eq`);
* `prefix_ok`         the second loop leaves the products of the first `k+1` divisors;
* `backStep_ok`       a round of the third: the running inverse is that of the first `i` divisors;
* `batchInvert_ok`    the outputs are the quotients.
-/

namespace Onion
open Logged Finset

/-! ## vectors -/

section
variable {α β : Type} {v : List α} {i : Nat} {x d : α}

theorem ok_vget {f : α → Run β} {Q : β → Prop} (h : i < v.length) (k : Ok (f (v.getD i d)) Q) :
    Ok (vget v i d >>= f) Q := by
  refine Holds.bind (Q := fun t => t = v.getD i d) ⟨fun e he => ?_, rfl⟩ fun t ht => ht ▸ k
  rw [vget, if_pos h] at he
  exact absurd he (by simp)

theorem vset_ok (h : i < v.length) : Ok (vset v i x) fun w => w = v.set i x := by
  refine ⟨fun e he => ?_, rfl⟩
  rw [vset, if_pos h] at he
  exact absurd he (by simp)

theorem getD_set_self (h : i < v.length) : (v.set i x).getD i d = x := by
  simp [List.getD_eq_getElem?_getD, h]

theorem getD_set_ne {j : Nat} (h : i ≠ j) : (v.set i x).getD j d = v.getD j d := by
  simp [List.getD_eq_getElem?_getD, List.getElem?_set_ne h]

theorem vgrow_length (v : List α) (n : Nat) (d : α) (h : v.length ≤ n) :
    (vgrow v n d).length = n := by
  rw [vgrow, List.length_append, List.length_replicate]
  omega

end

/-! ## exact fields -/

section
variable {P Q E O L : Type}

/-- the field operations of a stepper compute exactly in every lane `L` -/
structure ExactField (ops : StepOps P Q E O) (L : Type) where
  good : E → Prop
  val : E → L → Fp
  read : O → L → List (Bytes 32)
  mul : ExactMul ops.mul good val
  invert : ∀ {z}, good z → Ok (ops.invert z) fun r => good r ∧ ∀ l, val r l = (val z l)⁻¹
  store : ∀ {out i y}, good y → (∀ l, i < (read out l).length) → Ok (ops.store out i y) fun out' =>
    ∀ l, read out' l = (read out l).set i (canonBytes (val y l))

/-- the two loops after the walk: the prefix products and the outputs -/
def Stepper.batchInvert (ops : StepOps P Q E O) (st : Stepper P Q E) (out : O) (n : Nat) :
    Run (List E × O) := do
  let pre ← vset st.prefix_ 0 (← vget st.z 0 ops.zero)
  let pre ← Logged.forUp (prefixStep ops st.z) (n - 1) pre
  let inv ← ops.invert (← vget pre ((n + 2^64 - 1) % 2^64) ops.zero)
  let s ← Logged.forDown (backStep ops st.ys st.z pre) n (out, inv)
  return (pre, s.1)

theorem nextBatchImpl_eq (ops : StepOps P Q E O) (st : Stepper P Q E) (out : O) (n : Nat) :
    st.nextBatchImpl ops out n = (do
      let st ← Logged.forUp (walkStep ops) n (st.resize ops.zero n)
      let r ← st.batchInvert ops out n
      return ({ st with prefix_ := r.1, consumed := (st.consumed + n) % 2^64 }, r.2)) := by
  simp only [Stepper.nextBatchImpl, Stepper.batchInvert, bind_assoc, pure_bind]

variable {ops : StepOps P Q E O} (ex : ExactField ops L) {n : Nat}

/-- a pair that is still to be divided: `y = q * z` -/
structure Divides (q : L → Fp) (y z : E) : Prop where
  y_good : ex.good y
  z_good : ex.good z
  z_ne : ∀ l, ex.val z l ≠ 0
  y_eq : ∀ l, ex.val y l = q l * ex.val z l

/-! ## the second loop -/

/-- the product of the first `i` entries -/
def prodZ (z : List E) (i : Nat) (l : L) : Fp := ∏ j ∈ range i, ex.val (z.getD j ops.zero) l

theorem prodZ_succ (z : List E) (i : Nat) (l : L) :
    prodZ ex z (i + 1) l = prodZ ex z i l * ex.val (z.getD i ops.zero) l := prod_range_succ _ _

theorem prodZ_ne {z : List E} (hz : ∀ k < n, ∀ l, ex.val (z.getD k ops.zero) l ≠ 0) :
    ∀ i ≤ n, ∀ l, prodZ ex z i l ≠ 0 := fun i hi l =>
  prod_ne_zero_iff.mpr fun j hj => hz j (by have := mem_range.mp hj; omega) l

/-- entry `k` of the prefix products -/
def IsPrefix (z pre : List E) (k : Nat) : Prop :=
  ex.good (pre.getD k ops.zero) ∧ ∀ l, ex.val (pre.getD k ops.zero) l = prodZ ex z (k + 1) l

theorem prefix_ok {z pre : List E} (hz : n ≤ z.length) (hpre : n ≤ pre.length)
    (hb : ∀ k < n, ex.good (z.getD k ops.zero)) (h0 : IsPrefix ex z pre 0) :
    Ok (forUp (prefixStep ops z) (n - 1) pre) fun p =>
      p.length = pre.length ∧ ∀ k < n, IsPrefix ex z p k := by
  have key := Holds.forUp (G := Event.Good) (fun i (p : List E) => p.length = pre.length ∧
    ∀ k ≤ i, IsPrefix ex z p k) (n - 1) (f := prefixStep ops z) (s := pre)
    ⟨rfl, fun k hk => (Nat.le_zero.mp hk) ▸ h0⟩ ?_
  · exact key.mono fun p hp => ⟨hp.1, fun k hk => hp.2 k (by omega)⟩
  rintro i p hi ⟨hlen, hp⟩
  obtain ⟨hbi, hvi⟩ := hp i le_rfl
  refine ok_vget (by omega) (ok_vget (by omega) ?_)
  refine (ex.mul _ _ hbi (hb (i + 1) (by omega))).bind fun r ⟨br, er⟩ =>
    (vset_ok (by omega)).mono fun w hw => ?_
  rw [hw]
  refine ⟨by rw [List.length_set, hlen], fun k hk => ?_⟩
  by_cases hki : i + 1 = k
  · rw [← hki, IsPrefix, getD_set_self (by omega)]
    refine ⟨br, fun l => ?_⟩
    rw [prodZ_succ, ← hvi, er]
  · rw [IsPrefix, getD_set_ne hki]
    exact hp k (by omega)

/-! ## the third loop -/

/-- before round `i` the running inverse is that of the first `i` factors, and the outputs from
`i` to `n` are written -/
structure Back (z : List E) (q : Nat → L → Fp) (out : O) (n i : Nat) (s : O × E) : Prop where
  inv_good : ex.good s.2
  inv_eq : 0 < i → ∀ l, ex.val s.2 l = (prodZ ex z i l)⁻¹
  len : ∀ l, (ex.read s.1 l).length = (ex.read out l).length
  done : ∀ l k, i ≤ k → k < n → (ex.read s.1 l)[k]? = some (canonBytes (q k l))
  rest : ∀ l k, n ≤ k → (ex.read s.1 l)[k]? = (ex.read out l)[k]?

theorem Back.store {z : List E} {q : Nat → L → Fp} {out o : O} {i : Nat} {s : O × E} {y : E}
    (h : Back ex z q out n (i + 1) s) (hi : i < n) (hout : ∀ l, n ≤ (ex.read out l).length)
    (hy : ∀ l, ex.val y l = q i l)
    (ho : ∀ l, ex.read o l = (ex.read s.1 l).set i (canonBytes (ex.val y l))) :
    (∀ l, (ex.read o l).length = (ex.read out l).length) ∧
      (∀ l k, i ≤ k → k < n → (ex.read o l)[k]? = some (canonBytes (q k l))) ∧
      ∀ l k, n ≤ k → (ex.read o l)[k]? = (ex.read out l)[k]? := by
  refine ⟨fun l => ?_, fun l k hik hk => ?_, fun l k hk => ?_⟩
  · rw [ho, List.length_set, h.len]
  · rw [ho, List.getElem?_set]
    by_cases hki : i = k
    · rw [if_pos hki, if_pos (by rw [h.len]; exact hi.trans_le (hout l)), hy, hki]
    · rw [if_neg hki]
      exact h.done l k (by omega) hk
  · rw [ho, List.getElem?_set_ne (by omega)]
    exact h.rest l k hk

theorem backStep_ok {ys z pre : List E} {q : Nat → L → Fp} {out : O} {i : Nat} {s : O × E}
    (hi : i < n) (hys : n ≤ ys.length) (hz : n ≤ z.length) (hpre : n ≤ pre.length)
    (hout : ∀ l, n ≤ (ex.read out l).length) (hP : ∀ k < n, IsPrefix ex z pre k)
    (hslot : ∀ k < n, Divides ex (q k) (ys.getD k ops.zero) (z.getD k ops.zero))
    (h : Back ex z q out n (i + 1) s) : Ok (backStep ops ys z pre i s) (Back ex z q out n i) := by
  have hne := prodZ_ne ex fun k hk => (hslot k hk).z_ne
  have hsi := hslot i hi
  have hinv := h.inv_eq (Nat.succ_pos i)
  simp only [prodZ_succ] at hinv
  unfold backStep
  -- the inverse of this `z`
  refine Holds.bind (Q := fun zinv =>
    ex.good zinv ∧ ∀ l, ex.val zinv l = (ex.val (z.getD i ops.zero) l)⁻¹) ?_ fun zinv ⟨bz, ez⟩ => ?_
  · split
    · rename_i h0
      refine Holds.pure ⟨h.inv_good, fun l => ?_⟩
      rw [hinv, h0, prodZ, range_zero, prod_empty, one_mul]
    · rename_i h0
      obtain ⟨bp, ep⟩ := hP (i - 1) (by omega)
      refine ok_vget (by omega) ((ex.mul _ _ h.inv_good bp).mono fun r hr => ⟨hr.1, fun l => ?_⟩)
      have hi0 := hne i hi.le l
      have hzi := hsi.z_ne l
      rw [hr.2, hinv, ep, Nat.sub_add_cancel (by omega)]
      field_simp
  -- the output
  refine ok_vget (by omega) ((ex.mul _ _ hsi.y_good bz).bind fun y ⟨bY, ey⟩ => ?_)
  refine (ex.store bY fun l => by rw [h.len]; exact hi.trans_le (hout l)).bind fun o ho => ?_
  have hy : ∀ l, ex.val y l = q i l := fun l => by
    rw [ey, ez, hsi.y_eq, mul_assoc, mul_inv_cancel₀ (hsi.z_ne l), mul_one]
  obtain ⟨hlen, hdone, hrest⟩ := h.store ex hi hout hy ho
  -- the inverse without this `z`
  refine Holds.bind (Q := fun inv => ex.good inv ∧ (0 < i → ∀ l, ex.val inv l = (prodZ ex z i l)⁻¹))
    ?_ fun inv ⟨bi, ei⟩ => Holds.pure ⟨bi, ei, hlen, hdone, hrest⟩
  split
  · rename_i h0
    exact Holds.pure ⟨h.inv_good, fun hpos => absurd hpos (by omega)⟩
  · refine ok_vget (by omega) ((ex.mul _ _ h.inv_good hsi.z_good).mono
      fun r hr => ⟨hr.1, fun _ l => ?_⟩)
    have hi0 := hne i hi.le l
    have hzi := hsi.z_ne l
    rw [hr.2, hinv]
    field_simp

/-! ## both loops -/

def quotientBytes (q : Nat → Fp) (n : Nat) : List (Bytes 32) :=
  (List.range n).map fun k => canonBytes (q k)

@[simp] theorem quotientBytes_length (q : Nat → Fp) (n : Nat) : (quotientBytes q n).length = n := by
  rw [quotientBytes, List.length_map, List.length_range]

theorem quotientBytes_getElem? (q : Nat → Fp) {n k : Nat} (hk : k < n) :
    (quotientBytes q n)[k]? = some (canonBytes (q k)) := by
  rw [quotientBytes, List.getElem?_map, List.getElem?_range hk]
  rfl

/-- **The batch inversion** writes the quotients of `n` pairs, and nothing after them. -/
theorem batchInvert_ok {st : Stepper P Q E} {q : Nat → L → Fp} {out : O} (hpos : 0 < n)
    (hlt : n < 2^64) (hys : n ≤ st.ys.length) (hz : n ≤ st.z.length) (hpre : n ≤ st.prefix_.length)
    (hout : ∀ l, n ≤ (ex.read out l).length)
    (hslot : ∀ k < n, Divides ex (q k) (st.ys.getD k ops.zero) (st.z.getD k ops.zero)) :
    Ok (st.batchInvert ops out n) fun r => r.1.length = st.prefix_.length ∧
      ∀ l, ex.read r.2 l = quotientBytes (q · l) n ++ (ex.read out l).drop n := by
  unfold Stepper.batchInvert
  refine ok_vget (by omega) ((vset_ok (by omega)).bind fun pre hset => ?_)
  have hlen : pre.length = st.prefix_.length := by rw [hset, List.length_set]
  have hp0 : IsPrefix ex st.z pre 0 := by
    rw [IsPrefix, hset, getD_set_self (by omega)]
    refine ⟨(hslot 0 hpos).z_good, fun l => ?_⟩
    rw [prodZ, prod_range_one]
  refine (prefix_ok ex hz (by omega) (fun k hk => (hslot k hk).z_good) hp0).bind
    fun pre ⟨hplen, hP⟩ => ?_
  have hlast : (n + 2^64 - 1) % 2^64 = n - 1 := by omega
  obtain ⟨bl, el⟩ := hP (n - 1) (by omega)
  rw [hlast]
  refine ok_vget (by omega) ((ex.invert bl).bind fun inv ⟨binv, einv⟩ => ?_)
  rw [Nat.sub_add_cancel hpos] at el
  have back := Holds.forDown (G := Event.Good) (Back ex st.z q out n) n
    (f := backStep ops st.ys st.z pre) (s := (out, inv))
    ⟨binv, fun _ l => by rw [einv, el], fun _ => rfl, fun l k h1 h2 => absurd h2 (by omega),
      fun _ _ _ => rfl⟩
    fun i s hi hs => backStep_ok ex hi (by omega) (by omega) (by omega) hout hP hslot hs
  refine back.bind fun s hs => Holds.pure ⟨hplen.trans hlen, fun l => ?_⟩
  apply List.ext_getElem?
  intro k
  by_cases hk : k < n
  · rw [hs.done l k (Nat.zero_le k) hk, List.getElem?_append_left (by rwa [quotientBytes_length]),
      quotientBytes_getElem? _ hk]
  · have hk' : n ≤ k := Nat.le_of_not_lt hk
    rw [hs.rest l k hk', List.getElem?_append_right (by rwa [quotientBytes_length]),
      quotientBytes_length, List.getElem?_drop, Nat.add_sub_cancel' hk']

end

end Onion
