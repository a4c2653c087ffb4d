import Onion.Crypto.Fe25519
import Onion.Crypto.Field25519

/-!
# The field routines are exact

`Event.Good` says what each logged event promises: no machine operation wrapped, and every call
returned the exact field result.  One lemma per routine (`feAdd_ok`, `feSub_ok`, `feMul_ok`,
`feSq_ok`) proves that its run is good for operands within its bounds, and bounds its result.
-/

namespace Onion
open Logged

/-! ## values and bounds -/

def Fe.val (f : Fe) : Nat := f.v0 + 2^51 * f.v1 + 2^102 * f.v2 + 2^153 * f.v3 + 2^204 * f.v4

def Fe.toFp (f : Fe) : Fp := (f.val : Fp)

structure Fe.Bnd (f : Fe) (B : Nat) : Prop where
  v0 : f.v0 ≤ B
  v1 : f.v1 ≤ B
  v2 : f.v2 ≤ B
  v3 : f.v3 ≤ B
  v4 : f.v4 ≤ B

theorem Fe.Bnd.mono {f : Fe} {A B : Nat} (h : f.Bnd A) (hAB : A ≤ B) : f.Bnd B :=
  ⟨h.v0.trans hAB, h.v1.trans hAB, h.v2.trans hAB, h.v3.trans hAB, h.v4.trans hAB⟩

theorem Fe.toFp_eq {f : Fe} {n k : Nat} (h : f.val + P25519 * k = n) : f.toFp = (n : Fp) := by
  rw [← h, Nat.cast_add, Nat.cast_mul, ZMod.natCast_self, zero_mul, add_zero]
  rfl

theorem Fe.congruent_iff {f : Fe} {n : Nat} : f.toFp = (n : Fp) ↔ f.val ≡ n [MOD P25519] :=
  fp_eq_iff f.val n

/-- what an event of a good run says -/
def Event.Good : Event → Prop
  | .wrap => False
  | .outOfRange => False
  | .add a b r => r.toFp = a.toFp + b.toFp
  | .sub a b r => r.toFp = a.toFp - b.toFp
  | .mul a b r => r.toFp = a.toFp * b.toFp
  | .sq a r => r.toFp = a.toFp * a.toFp
  | .invert a r => r.toFp = a.toFp⁻¹
  | .toBytes a r => r.toNat = a.toFp.val
  | .point p => p.X.Bnd (2^51) ∧ p.Y.Bnd (2^51) ∧ p.Z.Bnd (2^51) ∧ p.T.Bnd (2^51)

/-- a run without a bad event, whose result satisfies `Q` -/
abbrev Ok {α : Type} (x : Run α) (Q : α → Prop) : Prop := Holds Event.Good x Q

/-! ## rules for machine operations -/

section
variable {α : Type} {Q : α → Prop}

theorem ok_word {w n : Nat} {f : Nat → Run α} (h : n < 2^w) (k : ∀ t, t = n → Ok (f t) Q) :
    Ok (word w n >>= f) Q := by
  refine Holds.bind (Q := fun t => t = n) ⟨fun e he => ?_, Nat.mod_eq_of_lt h⟩ k
  rw [word, if_pos h] at he
  exact absurd he (by simp)

theorem ok_sub64 {a b : Nat} {f : Nat → Run α} (ha : a < 2^64) (h : b ≤ a)
    (k : ∀ t, t + b = a → Ok (f t) Q) : Ok (sub64 a b >>= f) Q := by
  refine Holds.bind (Q := fun t => t + b = a) ⟨fun e he => ?_, ?_⟩ k
  · rw [sub64, if_pos h] at he
    exact absurd he (by simp)
  · show (a + 2^64 - b) % 2^64 + b = a
    omega

theorem ok_emit {e : Event} {f : Unit → Run α} (h : e.Good) (k : Ok (f ()) Q) :
    Ok (emit e >>= f) Q := by
  refine Holds.bind (Q := fun _ => True) ⟨fun e' he => ?_, trivial⟩ fun _ _ => k
  rw [List.mem_singleton.mp he]
  exact h

theorem ok_called {e : Fe → Event} {r : Fe} {Q : Fe → Prop} (h : (e r).Good) (hr : Q r) :
    Ok (called e r) Q := by
  refine ⟨fun e' he => ?_, hr⟩
  rw [List.mem_singleton.mp he]
  exact h

end

/-! ## `fe_add` and `fe_sub` -/

theorem feAdd_ok {a b : Fe} {A B : Nat} (ha : a.Bnd A) (hb : b.Bnd B) (h : A + B < 2^64) :
    Ok (feAdd a b) fun r => r.Bnd (A + B) ∧ r.toFp = a.toFp + b.toFp := by
  obtain ⟨ha0, ha1, ha2, ha3, ha4⟩ := ha
  obtain ⟨hb0, hb1, hb2, hb3, hb4⟩ := hb
  refine ok_word (by omega) fun r0 e0 => ?_
  refine ok_word (by omega) fun r1 e1 => ?_
  refine ok_word (by omega) fun r2 e2 => ?_
  refine ok_word (by omega) fun r3 e3 => ?_
  refine ok_word (by omega) fun r4 e4 => ?_
  have hval : Fe.toFp ⟨r0, r1, r2, r3, r4⟩ = a.toFp + b.toFp := by
    unfold Fe.toFp
    rw [← Nat.cast_add]
    congr 1
    simp only [Fe.val]
    omega
  exact ok_called hval ⟨⟨by simp only; omega, by simp only; omega, by simp only; omega,
    by simp only; omega, by simp only; omega⟩, hval⟩

theorem feSub_ok {a b : Fe} {A : Nat} (ha : a.Bnd A) (hA : A ≤ 2^54) (hb : b.Bnd (2^54 - 152)) :
    Ok (feSub a b) fun r => r.Bnd (2^51) ∧ r.toFp = a.toFp - b.toFp := by
  obtain ⟨ha0, ha1, ha2, ha3, ha4⟩ := ha
  obtain ⟨hb0, hb1, hb2, hb3, hb4⟩ := hb
  unfold feSub two54m152 two54m8
  simp only [and_M, Nat.shiftRight_eq_div_pow]
  -- the biased limbs
  refine ok_word (by omega) fun s0 f0 => ok_sub64 (by omega) (by omega) fun t0 e0 => ?_
  refine ok_word (by omega) fun s1 f1 => ok_sub64 (by omega) (by omega) fun t1 e1 => ?_
  refine ok_word (by omega) fun s2 f2 => ok_sub64 (by omega) (by omega) fun t2 e2 => ?_
  refine ok_word (by omega) fun s3 f3 => ok_sub64 (by omega) (by omega) fun t3 e3 => ?_
  refine ok_word (by omega) fun s4 f4 => ok_sub64 (by omega) (by omega) fun t4 e4 => ?_
  -- the carry chain
  refine ok_word (by omega) fun u1 g1 => ?_
  refine ok_word (by omega) fun u2 g2 => ?_
  refine ok_word (by omega) fun u3 g3 => ?_
  refine ok_word (by omega) fun u4 g4 => ?_
  refine ok_word (by omega) fun u0 g0 => ?_
  refine ok_word (by omega) fun w1 g5 => ?_
  have hval : Fe.toFp ⟨u0 % 2^51, w1, u2 % 2^51, u3 % 2^51, u4 % 2^51⟩ = a.toFp - b.toFp := by
    have h := Fe.toFp_eq (f := ⟨u0 % 2^51, w1, u2 % 2^51, u3 % 2^51, u4 % 2^51⟩)
      (n := t0 + 2^51 * t1 + 2^102 * t2 + 2^153 * t3 + 2^204 * t4) (k := u4 / 2^51)
      (by simp only [Fe.val, P25519]; omega)
    have h2 : (t0 + 2^51 * t1 + 2^102 * t2 + 2^153 * t3 + 2^204 * t4) + b.val
        = a.val + P25519 * 8 := by
      simp only [Fe.val, P25519]; omega
    rw [h, eq_sub_iff_add_eq]
    unfold Fe.toFp
    rw [← Nat.cast_add, h2, Nat.cast_add, Nat.cast_mul, ZMod.natCast_self, zero_mul, add_zero]
  exact ok_called hval ⟨⟨by simp only; omega, by simp only; omega, by simp only; omega,
    by simp only; omega, by simp only; omega⟩, hval⟩

/-! ## `fe_mul` and `fe_sq` -/

/-- the carry chain keeps the value and brings every limb down to `2^51` -/
theorem feCarry_ok {t0 t1 t2 t3 t4 : Nat} (h0 : t0 ≤ 77 * 2^108) (h1 : t1 ≤ 77 * 2^108)
    (h2 : t2 ≤ 77 * 2^108) (h3 : t3 ≤ 77 * 2^108) (h4 : t4 ≤ 5 * 2^108) :
    Ok (feCarry t0 t1 t2 t3 t4) fun r => r.Bnd (2^51) ∧
      r.toFp = ((t0 + 2^51 * t1 + 2^102 * t2 + 2^153 * t3 + 2^204 * t4 : Nat) : Fp) := by
  unfold feCarry
  simp only [and_M, Nat.shiftRight_eq_div_pow]
  refine ok_word (by omega) fun c0 e0 => ok_word (by omega) fun u1 f1 => ?_
  refine ok_word (by omega) fun c1 e1 => ok_word (by omega) fun u2 f2 => ?_
  refine ok_word (by omega) fun c2 e2 => ok_word (by omega) fun u3 f3 => ?_
  refine ok_word (by omega) fun c3 e3 => ok_word (by omega) fun u4 f4 => ?_
  refine ok_word (by omega) fun c4 e4 => ?_
  refine ok_word (by omega) fun o0 g0 => ?_
  refine ok_word (by omega) fun o1 g1 => ?_
  refine ok_word (by omega) fun o2 g2 => Holds.pure ⟨?_, ?_⟩
  · exact ⟨by simp only; omega, by simp only; omega, by simp only; omega, by simp only; omega,
      by simp only; omega⟩
  · -- the value needs no bounds
    clear h0 h1 h2 h3 h4
    exact Fe.toFp_eq (k := c4) (by simp only [Fe.val, P25519]; omega)

theorem feMul_ok {a b : Fe} (ha : a.Bnd (2^54)) (hb : b.Bnd (2^54)) :
    Ok (feMul a b) fun r => r.Bnd (2^51) ∧ r.toFp = a.toFp * b.toFp := by
  obtain ⟨ha0, ha1, ha2, ha3, ha4⟩ := ha
  obtain ⟨hb0, hb1, hb2, hb3, hb4⟩ := hb
  -- the ten columns, each against its number of products
  have h1 : a.v0 * b.v1 + a.v1 * b.v0 ≤ 2^54 * 2^54 + 2^54 * 2^54 := by gcongr
  have h2 : a.v0 * b.v2 + a.v2 * b.v0 + a.v1 * b.v1 ≤ 2^54 * 2^54 + 2^54 * 2^54 + 2^54 * 2^54 := by
    gcongr
  have h3 : a.v0 * b.v3 + a.v3 * b.v0 + a.v1 * b.v2 + a.v2 * b.v1
      ≤ 2^54 * 2^54 + 2^54 * 2^54 + 2^54 * 2^54 + 2^54 * 2^54 := by gcongr
  have h4 : a.v0 * b.v4 + a.v4 * b.v0 + a.v3 * b.v1 + a.v1 * b.v3 + a.v2 * b.v2
      ≤ 2^54 * 2^54 + 2^54 * 2^54 + 2^54 * 2^54 + 2^54 * 2^54 + 2^54 * 2^54 := by gcongr
  have k0 : a.v0 * b.v0 + (a.v4 * 19 * b.v1 + a.v1 * 19 * b.v4 + a.v2 * 19 * b.v3
      + a.v3 * 19 * b.v2) ≤ 2^54 * 2^54 + (2^54 * 19 * 2^54 + 2^54 * 19 * 2^54
      + 2^54 * 19 * 2^54 + 2^54 * 19 * 2^54) := by gcongr
  have k1 : a.v4 * 19 * b.v2 + a.v2 * 19 * b.v4 + a.v3 * 19 * b.v3
      ≤ 2^54 * 19 * 2^54 + 2^54 * 19 * 2^54 + 2^54 * 19 * 2^54 := by gcongr
  have k2 : a.v4 * 19 * b.v3 + a.v3 * 19 * b.v4 ≤ 2^54 * 19 * 2^54 + 2^54 * 19 * 2^54 := by gcongr
  have k3 : a.v4 * 19 * b.v4 ≤ 2^54 * 19 * 2^54 := by gcongr
  unfold feMul
  refine ok_word (by omega) fun t1 e1 => ok_word (by omega) fun t2 e2 => ?_
  refine ok_word (by omega) fun t3 e3 => ok_word (by omega) fun t4 e4 => ?_
  refine ok_word (by omega) fun r4 f4 => ok_word (by omega) fun r1 f1 => ?_
  refine ok_word (by omega) fun r2 f2 => ok_word (by omega) fun r3 f3 => ?_
  subst f4 f1 f2 f3
  refine ok_word (by omega) fun u0 g0 => ok_word (by omega) fun u1 g1 => ?_
  refine ok_word (by omega) fun u2 g2 => ok_word (by omega) fun u3 g3 => ?_
  refine (feCarry_ok (by omega) (by omega) (by omega) (by omega) (by omega)).bind fun r hr => ?_
  obtain ⟨hbnd, hval⟩ := hr
  have hmul : r.toFp = a.toFp * b.toFp := by
    rw [hval, g0, g1, g2, g3, e1, e2, e3, e4]
    unfold Fe.toFp Fe.val
    push_cast
    linear_combination (-((a.v1 * b.v4 + a.v2 * b.v3 + a.v3 * b.v2 + a.v4 * b.v1 : Fp)
      + 2^51 * (a.v2 * b.v4 + a.v3 * b.v3 + a.v4 * b.v2)
      + 2^102 * (a.v3 * b.v4 + a.v4 * b.v3) + 2^153 * (a.v4 * b.v4))) * fp_two_pow_255
  exact ok_called hmul ⟨hbnd, hmul⟩

theorem feSq_ok {a : Fe} (ha : a.Bnd (2^54)) :
    Ok (feSq a) fun r => r.Bnd (2^51) ∧ r.toFp = a.toFp * a.toFp := by
  obtain ⟨ha0, ha1, ha2, ha3, ha4⟩ := ha
  have k0 : a.v0 * a.v0 + a.v4 * 19 * 2 * a.v1 + a.v2 * 2 * 19 * a.v3
      ≤ 2^54 * 2^54 + 2^54 * 19 * 2 * 2^54 + 2^54 * 2 * 19 * 2^54 := by gcongr
  have k1 : a.v0 * 2 * a.v1 + a.v4 * 19 * 2 * a.v2 + a.v3 * (a.v3 * 19)
      ≤ 2^54 * 2 * 2^54 + 2^54 * 19 * 2 * 2^54 + 2^54 * (2^54 * 19) := by gcongr
  have k2 : a.v0 * 2 * a.v2 + a.v1 * a.v1 + a.v4 * 19 * 2 * a.v3
      ≤ 2^54 * 2 * 2^54 + 2^54 * 2^54 + 2^54 * 19 * 2 * 2^54 := by gcongr
  have k3 : a.v0 * 2 * a.v3 + a.v1 * 2 * a.v2 + a.v4 * (a.v4 * 19)
      ≤ 2^54 * 2 * 2^54 + 2^54 * 2 * 2^54 + 2^54 * (2^54 * 19) := by gcongr
  have k4 : a.v0 * 2 * a.v4 + a.v1 * 2 * a.v3 + a.v2 * a.v2
      ≤ 2^54 * 2 * 2^54 + 2^54 * 2 * 2^54 + 2^54 * 2^54 := by gcongr
  unfold feSq
  refine ok_word (by omega) fun d0 e0 => ok_word (by omega) fun d1 e1 => ?_
  refine ok_word (by omega) fun d2 e2 => ok_word (by omega) fun d419 e3 => ?_
  refine ok_word (by omega) fun d4 e4 => ok_word (by omega) fun r319 e5 => ?_
  subst e0 e1 e2 e3 e4 e5
  refine ok_word (by omega) fun t0 g0 => ok_word (by omega) fun t1 g1 => ?_
  refine ok_word (by omega) fun t2 g2 => ok_word (by omega) fun t3 g3 => ?_
  refine ok_word (by omega) fun t4 g4 => ?_
  refine (feCarry_ok (by omega) (by omega) (by omega) (by omega) (by omega)).bind fun r hr => ?_
  obtain ⟨hbnd, hval⟩ := hr
  have hsq : r.toFp = a.toFp * a.toFp := by
    rw [hval, g0, g1, g2, g3, g4]
    unfold Fe.toFp Fe.val
    push_cast
    linear_combination (-((2 * a.v1 * a.v4 + 2 * a.v2 * a.v3 : Fp)
      + 2^51 * (2 * a.v2 * a.v4 + a.v3 * a.v3)
      + 2^102 * (2 * a.v3 * a.v4) + 2^153 * (a.v4 * a.v4))) * fp_two_pow_255
  exact ok_called hsq ⟨hbnd, hsq⟩

/-- **Products and squares** modulo `2^255 - 19`, without any wrap of a 64-bit or 128-bit register. -/
theorem mul_sq_congruent {a b : Fe} (ha : a.Bnd (2^54)) (hb : b.Bnd (2^54)) :
    Ok (feMul a b) (fun r => r.Bnd (2^51) ∧ r.val ≡ a.val * b.val [MOD P25519]) ∧
      Ok (feSq a) (fun r => r.Bnd (2^51) ∧ r.val ≡ a.val^2 [MOD P25519]) ∧
      (feSq a).val.val ≡ (feMul a a).val.val [MOD P25519] := by
  have hsq := feSq_ok ha
  refine ⟨(feMul_ok ha hb).mono fun r hr => ⟨hr.1, Fe.congruent_iff.mp ?_⟩,
    hsq.mono fun r hr => ⟨hr.1, Fe.congruent_iff.mp ?_⟩, Fe.congruent_iff.mp ?_⟩
  · rw [hr.2, Nat.cast_mul]
    rfl
  · rw [hr.2, Nat.cast_pow, sq]
    rfl
  · exact hsq.2.2.trans (feMul_ok ha ha).2.2.symm

/-- every limb is `2^54 - 1` -/
theorem mul_sq_congruent_max :
    let a : Fe := ⟨2^54 - 1, 2^54 - 1, 2^54 - 1, 2^54 - 1, 2^54 - 1⟩
    (feMul a a).val.Bnd (2^51) ∧ (feSq a).val.Bnd (2^51) := by
  have ha : Fe.Bnd ⟨2^54 - 1, 2^54 - 1, 2^54 - 1, 2^54 - 1, 2^54 - 1⟩ (2^54) :=
    ⟨by decide, by decide, by decide, by decide, by decide⟩
  obtain ⟨h1, h2, -⟩ := mul_sq_congruent ha ha
  exact ⟨h1.2.1, h2.2.1⟩

end Onion
