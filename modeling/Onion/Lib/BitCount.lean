import Onion.Lib.BitString
import Mathlib.Data.Set.Card

/-!
# How many bit strings start with a given one

* `ncard_bits`         there are `2^n` bit strings of length `n`;
* `ncard_extensions`   of these, `2^(n - k)` start with a given string of length `k`.
-/

theorem setOf_length_eq (n : Nat) :
    { m : List Bool | m.length = n } = ((Finset.range (2^n)).image (bits n) : Finset (List Bool)) := by
  ext m
  rw [Set.mem_ofPred_eq, Finset.mem_coe, Finset.mem_image]
  constructor
  · rintro rfl
    exact ⟨bitsValue m, Finset.mem_range.mpr (bitsValue_lt m), bits_bitsValue m⟩
  · rintro ⟨x, -, rfl⟩
    exact bits_length n x

theorem ncard_bits (n : Nat) : { m : List Bool | m.length = n }.ncard = 2^n := by
  have hinj : Set.InjOn (bits n) (Finset.range (2^n)) := fun x hx y hy h =>
    bits_inj (Finset.mem_range.mp hx) (Finset.mem_range.mp hy) h
  rw [setOf_length_eq, Set.ncard_coe_finset, Finset.card_image_of_injOn hinj, Finset.card_range]

theorem ncard_extensions {l : List Bool} {n : Nat} (h : l.length ≤ n) :
    { m : List Bool | m.length = n ∧ l <+: m }.ncard = 2^(n - l.length) := by
  have himage : (l ++ ·) '' { m : List Bool | m.length = n - l.length } =
      { m : List Bool | m.length = n ∧ l <+: m } := by
    ext m
    rw [Set.mem_ofPred_eq]
    constructor
    · rintro ⟨t, ht, rfl⟩
      rw [Set.mem_ofPred_eq] at ht
      exact ⟨by rw [List.length_append]; omega, List.prefix_append l t⟩
    · rintro ⟨hm, t, rfl⟩
      rw [List.length_append] at hm
      exact ⟨t, Nat.eq_sub_of_add_eq' hm, rfl⟩
  have hinj : Function.Injective fun t => l ++ t := fun _ _ e => List.append_cancel_left e
  rw [← himage, Set.ncard_image_of_injective _ hinj, ncard_bits]
