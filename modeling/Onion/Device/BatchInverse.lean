import Onion.Device.Kernel

/-!
# The batch inversions divide

* `DeviceField.Exact`   the operations are exact arithmetic on what `val` reads;
* `invert_val`          the addition chain inverts;
* `fused_eq`, `stash_eq`   what the arrays hold after the forward pass;
* `fusedBack_val`, `legacyBack_val`   the backward pass, with the running inverse as invariant;
* `steps_val`           both inversions give `Y / Z` of every step, from the last to the first.
-/

namespace Onion
open Finset Logged

namespace DeviceField
variable {F S : Type} {fd : DeviceField F} {val : F → Fp}

/-- exact arithmetic modulo `2^255 - 19` -/
structure Exact (fd : DeviceField F) (val : F → Fp) : Prop where
  add : ∀ a b, val (fd.add a b) = val a + val b
  sub : ∀ a b, val (fd.sub a b) = val a - val b
  mul : ∀ a b, val (fd.mul a b) = val a * val b
  sq : ∀ a, val (fd.sq a) = val a * val a
  fromBytes : ∀ b, val (fd.fromBytes b) = ((b.toNat % 2^255 : Nat) : Fp)
  toBytes : ∀ a, fd.toBytes a = canonBytes (val a)

section
variable (hfd : fd.Exact val)
include hfd

theorem one_val : val fd.one = 1 := by
  have h1 : (Bytes.ofNat 32 1).toNat % 2^255 = 1 := by
    rw [Bytes.toNat_ofNat]
    norm_num
  rw [one, hfd.fromBytes, h1, Nat.cast_one]

theorem invert_val (z : F) : val (fd.invert z) = (val z)⁻¹ := by
  have hmul : ExactMul (fun a b => pure (fd.mul a b)) (fun _ : F => True)
      fun f (_ : Unit) => val f := fun a b _ _ => Holds.pure ⟨trivial, fun _ => hfd.mul a b⟩
  have hsq : ExactSq (fun a => pure (fd.sq a)) (fun _ : F => True)
      fun f (_ : Unit) => val f := fun a _ => Holds.pure ⟨trivial, fun _ => hfd.sq a⟩
  exact (invertChain_ok hsq hmul trivial (z := z)).2.2 ()

end

/-! ## the forward passes -/

section
variable (w : DevWalk F S) (start : S)

def product (fd : DeviceField F) : Nat → F
  | 0 => fd.one
  | j+1 => fd.mul (product fd j) (w.Z (w.next^[j] start))

theorem product_val (hfd : fd.Exact val) (j : Nat) :
    val (product w start fd j) = ∏ k ∈ range j, val (w.Z (w.next^[k] start)) := by
  induction j with
  | zero => rw [product, one_val hfd, range_zero, prod_empty]
  | succ j ih => rw [product, hfd.mul, ih, prod_range_succ]

theorem map_range_succ {α : Type} (f : Nat → α) (n : Nat) :
    (List.range (n + 1)).map f = (List.range n).map f ++ [f n] := by
  rw [List.range_succ, List.map_append, List.map_singleton]

theorem fused_eq (M : Nat) : (fd.fusedStep w)^[M] ⟨[], [], fd.one, start⟩ =
    ⟨(List.range M).map fun j => fd.mul (w.Y (w.next^[j] start)) (product w start fd j),
      (List.range M).map fun j => w.Z (w.next^[j] start), product w start fd M,
      w.next^[M] start⟩ := by
  induction M with
  | zero => rfl
  | succ M ih =>
    rw [Function.iterate_succ_apply', ih, fusedStep, map_range_succ, map_range_succ,
      Function.iterate_succ_apply', product]

theorem stash_eq (M : Nat) : (stash w)^[M] ⟨[], [], start⟩ =
    ⟨(List.range M).map fun j => w.Y (w.next^[j] start),
      (List.range M).map fun j => w.Z (w.next^[j] start), w.next^[M] start⟩ := by
  induction M with
  | zero => rfl
  | succ M ih =>
    rw [Function.iterate_succ_apply', ih, stash, map_range_succ, map_range_succ,
      Function.iterate_succ_apply']

end

/-! ## the backward passes

`y i`, `z i` are the values of step `i`; before step `i` the running value is `1 / z 0 ... z i`. -/

section
variable {y z : Nat → Fp} {M : Nat}

theorem getD_map_range {α : Type} (f : Nat → α) (d : α) {i : Nat} (hi : i < M) :
    ((List.range M).map f).getD i d = f i := by
  rw [List.getD_eq_getElem?_getD, List.getElem?_map, List.getElem?_range hi]
  rfl

theorem inv_mul_last {i : Nat} (hz : z i ≠ 0) :
    (∏ k ∈ range (i + 1), z k)⁻¹ * z i = (∏ k ∈ range i, z k)⁻¹ := by
  rw [prod_range_succ, mul_inv, mul_assoc, inv_mul_cancel₀ hz, mul_one]

theorem inv_mul_init {i : Nat} (hz : ∀ k < i, z k ≠ 0) :
    (∏ k ∈ range (i + 1), z k)⁻¹ * ∏ k ∈ range i, z k = (z i)⁻¹ := by
  have hne : ∏ k ∈ range i, z k ≠ 0 := prod_ne_zero_iff.mpr fun k hk => hz k (mem_range.mp hk)
  rw [prod_range_succ, mul_inv, mul_right_comm, inv_mul_cancel₀ hne, one_mul]

theorem reverse_range_succ (n : Nat) : (List.range (n + 1)).reverse = n :: (List.range n).reverse := by
  rw [List.range_succ, List.reverse_append, List.reverse_singleton, List.singleton_append]

/-- the quotients of the first `i` steps, from the last to the first -/
def quotients (y z : Nat → Fp) (i : Nat) : List (Nat × Fp) :=
  (List.range i).reverse.map fun k => (k, y k * (z k)⁻¹)

variable (hfd : fd.Exact val) (hz : ∀ k < M, z k ≠ 0)
include hfd hz

theorem fusedBack_val {combo zs : List F} (i : Nat) (hi : i ≤ M) (run : F)
    (hcombo : ∀ k < i, val (combo.getD k fd.one) = y k * ∏ m ∈ range k, z m)
    (hzs : ∀ k < i, val (zs.getD k fd.one) = z k) (hrun : val run = (∏ k ∈ range i, z k)⁻¹) :
    (fd.fusedBack combo zs i run).map (Prod.map id val) = quotients y z i := by
  induction i generalizing run with
  | zero => rfl
  | succ i ih =>
    have hlast : val (fd.mul run (combo.getD i fd.one)) = y i * (z i)⁻¹ := by
      rw [hfd.mul, hrun, hcombo i (by omega), mul_left_comm, inv_mul_init fun k hk => hz k (by omega)]
    have hnext : val (if i ≠ 0 then fd.mul run (zs.getD i fd.one) else run) =
        (∏ k ∈ range i, z k)⁻¹ ∨ i = 0 := by
      by_cases h0 : i = 0
      · exact Or.inr h0
      · left
        rw [if_pos h0, hfd.mul, hrun, hzs i (by omega), inv_mul_last (hz i (by omega))]
    rw [quotients, reverse_range_succ, List.map_cons, fusedBack, List.map_cons, Prod.map, hlast]
    refine congrArg _ ?_
    rcases hnext with hnext | rfl
    · exact ih (by omega) _ (fun k hk => hcombo k (by omega)) (fun k hk => hzs k (by omega)) hnext
    · rfl

theorem legacyBack_val {ys zs pre : List F} (i : Nat) (hi : i ≤ M) (inv : F)
    (hys : ∀ k < i, val (ys.getD k fd.one) = y k) (hzs : ∀ k < i, val (zs.getD k fd.one) = z k)
    (hpre : ∀ k < i, val (pre.getD k fd.one) = ∏ m ∈ range (k + 1), z m)
    (hinv : val inv = (∏ k ∈ range i, z k)⁻¹) :
    (fd.legacyBack ys zs pre i inv).map (Prod.map id val) = quotients y z i := by
  induction i generalizing inv with
  | zero => rfl
  | succ i ih =>
    have hzinv : val (if i = 0 then inv else fd.mul inv (pre.getD (i - 1) fd.one)) = (z i)⁻¹ := by
      by_cases h0 : i = 0
      · rw [if_pos h0, hinv, h0, prod_range_one]
      · rw [if_neg h0, hfd.mul, hinv, hpre (i - 1) (by omega), Nat.sub_add_cancel (by omega),
          inv_mul_init fun k hk => hz k (by omega)]
    have hnext : val (if i ≠ 0 then fd.mul inv (zs.getD i fd.one) else inv) =
        (∏ k ∈ range i, z k)⁻¹ ∨ i = 0 := by
      by_cases h0 : i = 0
      · exact Or.inr h0
      · left
        rw [if_pos h0, hfd.mul, hinv, hzs i (by omega), inv_mul_last (hz i (by omega))]
    rw [quotients, reverse_range_succ, List.map_cons, legacyBack, List.map_cons, Prod.map, hfd.mul,
      hzinv, hys i (by omega)]
    refine congrArg _ ?_
    rcases hnext with hnext | rfl
    · exact ih (by omega) _ (fun k hk => hys k (by omega)) (fun k hk => hzs k (by omega))
        (fun k hk => hpre k (by omega)) hnext
    · rfl

end

/-! ## a whole batch -/

section
variable {M : Nat} (hfd : fd.Exact val)
include hfd

theorem prefixes_val {zs : List F} {z : Nat → Fp} (hzs : ∀ k < M, val (zs.getD k fd.one) = z k)
    (i : Nat) (hi : i < M) : (fd.prefixes zs i).length = i + 1 ∧
      ∀ k ≤ i, val ((fd.prefixes zs i).getD k fd.one) = ∏ m ∈ range (k + 1), z m := by
  induction i with
  | zero =>
    refine ⟨rfl, fun k hk => ?_⟩
    rw [Nat.le_zero.mp hk, prod_range_one]
    exact hzs 0 hi
  | succ i ih =>
    obtain ⟨hlen, hval⟩ := ih (by omega)
    rw [prefixes]
    refine ⟨by rw [List.length_append, hlen, List.length_singleton], fun k hk => ?_⟩
    by_cases hki : k = i + 1
    · rw [hki, List.getD_append_right _ _ _ _ hlen.le, hlen, Nat.sub_self, List.getD_cons_zero,
        hfd.mul, hval i le_rfl, hzs _ hi, prod_range_succ _ (i + 1)]
    · rw [List.getD_append _ _ _ _ (by omega)]
      exact hval k (by omega)

/-- both inversions: `Y / Z` of every step, from the last to the first -/
theorem steps_val (w : DevWalk F S) (start : S) (inv : BatchInversion) (hM : 0 < M)
    (hz : ∀ k < M, val (w.Z (w.next^[k] start)) ≠ 0) :
    (fd.steps w inv M start).map (Prod.map id val) =
      quotients (fun k => val (w.Y (w.next^[k] start))) (fun k => val (w.Z (w.next^[k] start))) M := by
  have hzs : ∀ k < M, val (((List.range M).map fun j => w.Z (w.next^[j] start)).getD k fd.one) =
      val (w.Z (w.next^[k] start)) := fun k hk => by rw [getD_map_range _ _ hk]
  cases inv with
  | fusedCombo =>
    rw [steps, fusedSteps, fused_eq]
    refine fusedBack_val hfd hz M le_rfl _ (fun k hk => ?_) hzs ?_
    · rw [getD_map_range _ _ hk, hfd.mul, product_val w start hfd]
    · rw [invert_val hfd, product_val w start hfd]
  | threeArrays =>
    obtain ⟨-, hpre⟩ := prefixes_val hfd hzs (M - 1) (by omega)
    rw [steps, legacySteps, stash_eq]
    refine legacyBack_val hfd hz M le_rfl _ (fun k hk => ?_) hzs (fun k hk => hpre k (by omega)) ?_
    · rw [getD_map_range _ _ hk]
    · rw [invert_val hfd, hpre (M - 1) le_rfl, Nat.sub_add_cancel hM]

end

end DeviceField

end Onion
