import Onion.Crypto.Fe25519x4
import Onion.Crypto.FeInvert

/-!
# The four-lane field routines are exact in every lane

* `Col.eval_ok`        a column computes its polynomial, as long as its weight fits;
* `freduceCoefficients_ok`   the carry chain keeps the value and brings every limb below `2^26`;
* `fe4Mul_ok`, `fe4Sq_ok`, `fe4Add_ok`, `fe4Sub_ok`, `fe4Invert_ok`   the routines.
-/

namespace Onion
open Logged

/-! ## vector operations -/

section
variable {α : Type} {Q : α → Prop} {a b : M256} {f : M256 → Run α}

theorem lane_ofFn (f : Fin 4 → Nat) (l : Fin 4) : M256.lane (Vector.ofFn f) l = f l := by
  simp [M256.lane]

theorem ok_vOp {g : Fin 4 → Nat} {ok : Fin 4 → Prop} [∀ l, Decidable (ok l)] (h : ∀ l, ok l) :
    Ok (vOp g ok) fun t => ∀ l, t.lane l = g l := by
  refine ⟨fun e he => ?_, lane_ofFn g⟩
  rw [vOp, if_pos h] at he
  exact absurd he (by simp)

theorem vAdd_ok (h : ∀ l, a.lane l + b.lane l < 2^64) :
    Ok (vAdd a b) fun t => ∀ l, t.lane l = a.lane l + b.lane l :=
  (ok_vOp h).mono fun _ ht l => (ht l).trans (Nat.mod_eq_of_lt (h l))

theorem vSub_ok (ha : ∀ l, a.lane l < 2^64) (h : ∀ l, b.lane l ≤ a.lane l) :
    Ok (vSub a b) fun t => ∀ l, t.lane l = a.lane l - b.lane l :=
  (ok_vOp h).mono fun t ht l => by
    have h1 := ha l
    have h2 := h l
    rw [ht l]
    omega

theorem vMul_ok (ha : ∀ l, a.lane l < 2^32) (hb : ∀ l, b.lane l < 2^32) :
    Ok (vMul a b) fun t => ∀ l, t.lane l = a.lane l * b.lane l :=
  (ok_vOp fun l => ⟨ha l, hb l⟩).mono fun t ht l => by
    rw [ht l, Nat.mod_eq_of_lt (ha l), Nat.mod_eq_of_lt (hb l)]

theorem vShl_ok {n : Nat} (h : ∀ l, a.lane l * 2^n < 2^64) :
    Ok (vShl a n) fun t => ∀ l, t.lane l = a.lane l * 2^n :=
  (ok_vOp fun l => by rw [Nat.shiftLeft_eq]; exact h l).mono fun t ht l => by
    rw [ht l, Nat.shiftLeft_eq, Nat.mod_eq_of_lt (h l)]

theorem vScale_two (h : ∀ l, 2 * a.lane l < 2^64) :
    Ok (vScale a 2) fun t => ∀ l, t.lane l = 2 * a.lane l :=
  (vShl_ok fun l => by have := h l; omega).mono fun t ht l => by rw [ht l]; omega

theorem vScale_four (h : ∀ l, 4 * a.lane l < 2^64) :
    Ok (vScale a 4) fun t => ∀ l, t.lane l = 4 * a.lane l :=
  (vShl_ok fun l => by have := h l; omega).mono fun t ht l => by rw [ht l]; omega

theorem vScale_19 (h : ∀ l, 19 * a.lane l < 2^64) :
    Ok (vScale a 19) fun t => ∀ l, t.lane l = 19 * a.lane l := by
  refine (vShl_ok fun l => by have := h l; omega).bind fun x hx => ?_
  refine (vShl_ok fun l => by have := h l; omega).bind fun y hy => ?_
  refine (vAdd_ok fun l => by rw [hx, hy]; have := h l; omega).bind fun z hz => ?_
  refine (vAdd_ok fun l => by rw [hz, hx, hy]; have := h l; omega).mono fun t ht l => ?_
  rw [ht, hz, hx, hy]
  omega

end

/-! ## columns -/

namespace Col

/-- the polynomial of a column -/
def exact {R : Type} [CommSemiring R] (A B : Fin 10 → R) : Col → R
  | mul i j => A i * B j
  | add a b => a.exact A B + b.exact A B
  | scale a k => (k : R) * a.exact A B

/-- the number of products, with their factors -/
def weight : Col → Nat
  | mul _ _ => 1
  | add a b => a.weight + b.weight
  | scale a k => k * a.weight

/-- only the exact scalings occur -/
def Plain : Col → Prop
  | mul _ _ => True
  | add a b => a.Plain ∧ b.Plain
  | scale a k => (k = 2 ∨ k = 4) ∧ a.Plain

instance : (c : Col) → Decidable c.Plain
  | mul _ _ => .isTrue trivial
  | add a b => @instDecidableAnd _ _ (instDecidablePlain a) (instDecidablePlain b)
  | scale a _ => @instDecidableAnd _ _ inferInstance (instDecidablePlain a)

/-- a column of small enough weight is evaluated exactly in every lane -/
theorem eval_ok {a b : Fe4} (ha : ∀ (i : Fin 10) l, (a[i]).lane l < 2^27)
    (hb : ∀ (i : Fin 10) l, (b[i]).lane l < 2^27) (c : Col) (hc : c.Plain)
    (hw : c.weight < 2^10) :
    Ok (c.eval a b) fun r => ∀ l,
      r.lane l = c.exact (fun i => (a[i]).lane l) (fun i => (b[i]).lane l) ∧
      r.lane l ≤ c.weight * 2^54 := by
  induction c with
  | mul i j =>
    refine (vMul_ok (fun l => (ha i l).trans (by norm_num)) fun l =>
      (hb j l).trans (by norm_num)).mono fun r hr l => ⟨hr l, ?_⟩
    rw [hr l, weight]
    exact (Nat.mul_le_mul (ha i l).le (hb j l).le).trans (by norm_num)
  | add x y ihx ihy =>
    rw [weight] at hw
    refine (ihx hc.1 (by omega)).bind fun r hr => (ihy hc.2 (by omega)).bind fun s hs => ?_
    refine (vAdd_ok fun l => ?_).mono fun t ht l => ?_
    · have h1 := (hr l).2
      have h2 := (hs l).2
      omega
    · have h1 := (hr l).2
      have h2 := (hs l).2
      rw [ht l, (hr l).1, (hs l).1, exact, weight, ← (hr l).1, ← (hs l).1]
      exact ⟨rfl, by omega⟩
  | scale x k ih =>
    rw [weight] at hw
    obtain ⟨hk, hx⟩ := hc
    have hk0 : 0 < k := by omega
    have hwx : x.weight < 2^10 := lt_of_le_of_lt (Nat.le_mul_of_pos_left _ hk0) hw
    refine (ih hx hwx).bind fun r hr => ?_
    have hlt : ∀ l, k * r.lane l < 2^64 := fun l => by
      calc k * r.lane l ≤ k * (x.weight * 2^54) := Nat.mul_le_mul_left _ (hr l).2
        _ = k * x.weight * 2^54 := by rw [mul_assoc]
        _ < 2^64 := by omega
    have key : Ok (vScale r k) fun t => ∀ l, t.lane l = k * r.lane l := by
      rcases hk with rfl | rfl
      · exact vScale_two hlt
      · exact vScale_four hlt
    refine key.mono fun t ht l => ⟨?_, ?_⟩
    · rw [ht l, (hr l).1, exact, Nat.cast_id]
    · rw [ht l, weight, mul_assoc]
      exact Nat.mul_le_mul_left _ (hr l).2

end Col

/-! ## values and bounds of the lanes -/

def Fe4.val (f : Fe4) (l : Fin 4) : Nat :=
  f[0].lane l + 2^26 * f[1].lane l + 2^51 * f[2].lane l + 2^77 * f[3].lane l + 2^102 * f[4].lane l +
    2^128 * f[5].lane l + 2^153 * f[6].lane l + 2^179 * f[7].lane l + 2^204 * f[8].lane l +
    2^230 * f[9].lane l

def Fe4.toFp (f : Fe4) (l : Fin 4) : Fp := (f.val l : Fp)

def Fe4.Bnd (f : Fe4) (B : Nat) : Prop := ∀ (i : Fin 10) l, (f[i]).lane l < B

theorem Fe4.Bnd.mono {f : Fe4} {A B : Nat} (h : f.Bnd A) (hAB : A ≤ B) : f.Bnd B :=
  fun i l => (h i l).trans_le hAB

/-! ## reduction -/

theorem freduceDegree_ok {t : Vector M256 19} (ht : ∀ (i : Fin 19) l, (t[i]).lane l ≤ 2^58) :
    Ok (freduceDegree t) fun r => ∀ (i : Fin 10) l, (r[i]).lane l =
      (t[i.val]).lane l + if h : i.val + 10 < 19 then 19 * (t[i.val + 10]).lane l else 0 := by
  refine Holds.all (Q := fun (i : Fin 10) (x : M256) => ∀ l, x.lane l =
    (t[i.val]).lane l + if h : i.val + 10 < 19 then 19 * (t[i.val + 10]).lane l else 0) fun i => ?_
  split
  · rename_i h
    have h1 : ∀ l, (t[i.val + 10]).lane l ≤ 2^58 := ht ⟨i.val + 10, h⟩
    have h2 : ∀ l, (t[i.val]).lane l ≤ 2^58 := ht ⟨i.val, by omega⟩
    refine (vScale_19 fun l => by have := h1 l; omega).bind fun x hx => ?_
    refine (vAdd_ok fun l => ?_).mono fun y hy l => ?_
    · have := h1 l
      have := h2 l
      rw [hx l]
      show (t[i.val]).lane l + _ < _
      omega
    · rw [hy l, hx l]
      rfl
  · exact Holds.pure fun l => rfl

/-- a carry keeps `lo + 2^n * hi` and leaves `lo` below `2^n` -/
theorem ok_vCarry {α : Type} {Q : α → Prop} {f : M256 × M256 → Run α} {lo hi : M256} {n : Nat}
    (hn : 25 ≤ n) (hlo : ∀ l, lo.lane l ≤ 2^63 + 2^39) (hhi : ∀ l, hi.lane l ≤ 2^63)
    (k : ∀ x y : M256, (∀ l, x.lane l < 2^n) →
      (∀ l, x.lane l + 2^n * y.lane l = lo.lane l + 2^n * hi.lane l) →
      (∀ l, y.lane l ≤ 2^63 + 2^39) → Ok (f (x, y)) Q) : Ok (vCarry lo hi n >>= f) Q := by
  have hand : ∀ l, (vAnd lo (2^n - 1)).lane l = lo.lane l % 2^n := fun l => by
    rw [vAnd, lane_ofFn, Nat.and_two_pow_sub_one_eq_mod]
  have hshr : ∀ l, (vShr lo n).lane l = lo.lane l / 2^n := fun l => by
    rw [vShr, lane_ofFn, Nat.shiftRight_eq_div_pow]
  have hle : ∀ l, hi.lane l + lo.lane l / 2^n ≤ 2^63 + 2^39 := fun l => by
    have hdiv : lo.lane l / 2^n ≤ lo.lane l / 2^25 :=
      Nat.div_le_div_left (Nat.pow_le_pow_right (by norm_num) hn) (by norm_num)
    have := hlo l
    have := hhi l
    omega
  have hadd : Ok (vCarry lo hi n) fun r => (∀ l, r.1.lane l = lo.lane l % 2^n) ∧
      ∀ l, r.2.lane l = hi.lane l + lo.lane l / 2^n := by
    refine (vAdd_ok fun l => ?_).bind fun t ht => Holds.pure ⟨hand, fun l => ?_⟩
    · rw [hshr l]
      exact (hle l).trans_lt (by norm_num)
    · rw [ht l, hshr l]
  refine hadd.bind fun r hr => k r.1 r.2 (fun l => ?_) (fun l => ?_) fun l => (hr.2 l).trans_le (hle l)
  · rw [hr.1 l]
    exact Nat.mod_lt _ (Nat.two_pow_pos n)
  · rw [hr.1 l, hr.2 l, Nat.mul_add, Nat.add_left_comm, Nat.mod_add_div, Nat.add_comm]

/-- one round of carries brings every limb below `2^26` and keeps the value -/
theorem freduceCoefficients_ok {t : Fe4} (ht : ∀ (i : Fin 10) l, (t[i]).lane l ≤ 2^63) :
    Ok (freduceCoefficients t) fun r => r.Bnd (2^26) ∧ ∀ l, r.toFp l = t.toFp l := by
  have hset : ∀ l, (vSet1 0).lane l = 0 := fun l => by simp [vSet1, M256.lane]
  unfold freduceCoefficients
  refine ok_vCarry (by norm_num) (fun l => (ht 0 l).trans (by norm_num)) (ht 1)
    fun x0 u1 a0 b0 c1 => ?_
  refine ok_vCarry (by norm_num) c1 (ht 2) fun x1 u2 a1 b1 c2 => ?_
  refine ok_vCarry (by norm_num) c2 (ht 3) fun x2 u3 a2 b2 c3 => ?_
  refine ok_vCarry (by norm_num) c3 (ht 4) fun x3 u4 a3 b3 c4 => ?_
  refine ok_vCarry (by norm_num) c4 (ht 5) fun x4 u5 a4 b4 c5 => ?_
  refine ok_vCarry (by norm_num) c5 (ht 6) fun x5 u6 a5 b5 c6 => ?_
  refine ok_vCarry (by norm_num) c6 (ht 7) fun x6 u7 a6 b6 c7 => ?_
  refine ok_vCarry (by norm_num) c7 (ht 8) fun x7 u8 a7 b7 c8 => ?_
  refine ok_vCarry (by norm_num) c8 (ht 9) fun x8 u9 a8 b8 c9 => ?_
  refine ok_vCarry (by norm_num) c9 (fun l => by rw [hset]; norm_num) fun x9 u10 a9 b9 c10 => ?_
  simp only [hset, Nat.mul_zero, Nat.add_zero] at b9
  have h10 : ∀ l, u10.lane l ≤ 2^39 := fun l => by have := c9 l; have := b9 l; omega
  -- the carry past limb 9 comes back in at limb 0
  refine (vScale_19 fun l => by have := h10 l; omega).bind fun w hw => ?_
  refine (vAdd_ok fun l => by have := a0 l; have := h10 l; rw [hw l]; omega).bind fun y0 d0 => ?_
  have hy0 : ∀ l, y0.lane l ≤ 2^44 := fun l => by
    have := a0 l; have := h10 l; rw [d0 l, hw l]; omega
  refine ok_vCarry (by norm_num) (fun l => (hy0 l).trans (by norm_num))
    (fun l => by have := a1 l; omega) fun z0 z1 e0 e1 _ => Holds.pure ⟨?_, fun l => ?_⟩
  · have g1 : ∀ l, z1.lane l < 2^26 := fun l => by
      have := a1 l; have := hy0 l; have := e1 l; omega
    have hle : 2^25 ≤ 2^26 := by norm_num
    intro i l
    fin_cases i
    exacts [e0 l, g1 l, a2 l, (a3 l).trans_le hle, a4 l, (a5 l).trans_le hle, a6 l,
      (a7 l).trans_le hle, a8 l, (a9 l).trans_le hle]
  · have hval : z0.lane l + 2^26 * z1.lane l + 2^51 * x2.lane l + 2^77 * x3.lane l +
        2^102 * x4.lane l + 2^128 * x5.lane l + 2^153 * x6.lane l + 2^179 * x7.lane l +
        2^204 * x8.lane l + 2^230 * x9.lane l + P25519 * u10.lane l = t.val l := by
      have hp : P25519 * u10.lane l + 19 * u10.lane l = 2^255 * u10.lane l := by
        rw [← Nat.add_mul, p25519_add]
      rw [Fe4.val]
      linarith only [hp, b0 l, b1 l, b2 l, b3 l, b4 l, b5 l, b6 l, b7 l, b8 l, b9 l, d0 l, hw l, e1 l]
    have h := congrArg (Nat.cast : ℕ → Fp) hval
    rw [Nat.cast_add, Nat.cast_mul, ZMod.natCast_self, zero_mul, add_zero] at h
    exact h

/-! ## products -/

namespace Col

theorem exact_cast (A B : Fin 10 → Nat) (c : Col) :
    ((c.exact A B : Nat) : Fp) = c.exact (fun i => (A i : Fp)) fun i => (B i : Fp) := by
  induction c with
  | mul i j => exact Nat.cast_mul _ _
  | add x y ihx ihy => rw [exact, exact, Nat.cast_add, ihx, ihy]
  | scale x k ih => rw [exact, exact, Nat.cast_id, Nat.cast_mul, ih]

def value (cols : Vector Col 19) (A B : Fin 10 → Fp) : Fp :=
  let t (i : Fin 19) : Fp := (cols[i]).exact A B
  t 0 + 2^26 * t 1 + 2^51 * t 2 + 2^77 * t 3 + 2^102 * t 4 + 2^128 * t 5 + 2^153 * t 6 +
    2^179 * t 7 + 2^204 * t 8 + 2^230 * t 9 + 2^255 * (t 10 + 2^26 * t 11 + 2^51 * t 12 +
      2^77 * t 13 + 2^102 * t 14 + 2^128 * t 15 + 2^153 * t 16 + 2^179 * t 17 + 2^204 * t 18)

def limbs (f : Fe4) (l : Fin 4) (i : Fin 10) : Fp := ((f[i]).lane l : Fp)

theorem toFp_limbs (f : Fe4) (l : Fin 4) : f.toFp l = limbs f l 0 + 2^26 * limbs f l 1 +
    2^51 * limbs f l 2 + 2^77 * limbs f l 3 + 2^102 * limbs f l 4 + 2^128 * limbs f l 5 +
    2^153 * limbs f l 6 + 2^179 * limbs f l 7 + 2^204 * limbs f l 8 + 2^230 * limbs f l 9 := by
  unfold Fe4.toFp Fe4.val limbs
  push_cast
  rfl

theorem value_fproduct (a b : Fe4) (l : Fin 4) :
    value fproduct (limbs a l) (limbs b l) = a.toFp l * b.toFp l := by
  rw [toFp_limbs, toFp_limbs]
  generalize limbs a l = A
  generalize limbs b l = B
  simp only [value, fproduct, Fin.isValue, Vector.getElem_fin, Fin.coe_ofNat_eq_mod, Nat.zero_mod,
    Vector.getElem_mk, List.getElem_toArray, List.getElem_cons_zero, exact, Nat.one_mod,
    List.getElem_cons_succ, Nat.reduceMod, Nat.cast_ofNat, Nat.mod_succ]
  ring

theorem value_fsquareInner (a : Fe4) (l : Fin 4) :
    value fsquareInner (limbs a l) (limbs a l) = a.toFp l * a.toFp l := by
  rw [toFp_limbs]
  generalize limbs a l = A
  simp only [value, fsquareInner, Fin.isValue, Vector.getElem_fin, Fin.coe_ofNat_eq_mod,
    Nat.zero_mod, Vector.getElem_mk, List.getElem_toArray, List.getElem_cons_zero, exact,
    Nat.one_mod, List.getElem_cons_succ, Nat.reduceMod, Nat.cast_ofNat, Nat.mod_succ]
  ring

end Col

theorem fe4Product_ok {cols : Vector Col 19}
    (hcols : ∀ i : Fin 19, (cols[i]).Plain ∧ (cols[i]).weight < 16) {a b : Fe4}
    (ha : a.Bnd (2^27)) (hb : b.Bnd (2^27)) :
    Ok (fe4Product cols a b) fun r => r.Bnd (2^26) ∧
      ∀ l, r.toFp l = Col.value cols (Col.limbs a l) (Col.limbs b l) := by
  unfold fe4Product
  refine (Holds.all fun i => Col.eval_ok ha hb cols[i] (hcols i).1
    (by have := (hcols i).2; omega)).bind fun t ht => ?_
  have hle : ∀ (i : Fin 19) l, (t[i]).lane l ≤ 2^58 := fun i l => by
    have h1 := (ht i l).2
    have h2 := (hcols i).2
    omega
  refine (freduceDegree_ok hle).bind fun u hu => ?_
  refine (freduceCoefficients_ok fun i l => ?_).mono fun r hr => ⟨hr.1, fun l => ?_⟩
  · have h1 : (t[i.val]).lane l ≤ 2^58 := hle ⟨i.val, by omega⟩ l
    rw [hu i l]
    split
    · rename_i h
      have h2 : (t[i.val + 10]).lane l ≤ 2^58 := hle ⟨i.val + 10, h⟩ l
      omega
    · omega
  · have e (i : Fin 19) : ((t[i]).lane l : Fp) = (cols[i]).exact (Col.limbs a l) (Col.limbs b l) := by
      rw [(ht i l).1, Col.exact_cast]
      rfl
    have f0 : u[0].lane l = t[0].lane l + 19 * t[10].lane l := hu 0 l
    have f1 : u[1].lane l = t[1].lane l + 19 * t[11].lane l := hu 1 l
    have f2 : u[2].lane l = t[2].lane l + 19 * t[12].lane l := hu 2 l
    have f3 : u[3].lane l = t[3].lane l + 19 * t[13].lane l := hu 3 l
    have f4 : u[4].lane l = t[4].lane l + 19 * t[14].lane l := hu 4 l
    have f5 : u[5].lane l = t[5].lane l + 19 * t[15].lane l := hu 5 l
    have f6 : u[6].lane l = t[6].lane l + 19 * t[16].lane l := hu 6 l
    have f7 : u[7].lane l = t[7].lane l + 19 * t[17].lane l := hu 7 l
    have f8 : u[8].lane l = t[8].lane l + 19 * t[18].lane l := hu 8 l
    have f9 : u[9].lane l = t[9].lane l := hu 9 l
    rw [hr.2 l]
    unfold Fe4.toFp Fe4.val Col.value
    simp only [← e]
    rw [fp_two_pow_255, f0, f1, f2, f3, f4, f5, f6, f7, f8, f9]
    push_cast
    simp only [Fin.isValue, Vector.getElem_fin, Fin.coe_ofNat_eq_mod, Nat.zero_mod, Nat.one_mod,
      Nat.reduceMod, Nat.mod_succ]
    ring

/-! ## the routines -/

theorem fe4Mul_ok {a b : Fe4} (ha : a.Bnd (2^27)) (hb : b.Bnd (2^27)) :
    Ok (fe4Mul a b) fun r => r.Bnd (2^26) ∧ ∀ l, r.toFp l = a.toFp l * b.toFp l :=
  (fe4Product_ok (by decide) ha hb).mono fun _ hr =>
    ⟨hr.1, fun l => (hr.2 l).trans (Col.value_fproduct a b l)⟩

theorem fe4Sq_ok {a : Fe4} (ha : a.Bnd (2^27)) :
    Ok (fe4Sq a) fun r => r.Bnd (2^26) ∧ ∀ l, r.toFp l = a.toFp l * a.toFp l :=
  (fe4Product_ok (by decide) ha ha).mono fun _ hr =>
    ⟨hr.1, fun l => (hr.2 l).trans (Col.value_fsquareInner a l)⟩

theorem fe4Add_ok {a b : Fe4} (ha : a.Bnd (2^27)) (hb : b.Bnd (2^27)) :
    Ok (fe4Add a b) fun r => r.Bnd (2^26) ∧ ∀ l, r.toFp l = a.toFp l + b.toFp l := by
  refine Holds.bind (Holds.all (Q := fun (i : Fin 10) (x : M256) => ∀ l, x.lane l =
    (a[i]).lane l + (b[i]).lane l) fun i => vAdd_ok fun l => ?_) fun t ht => ?_
  · have := ha i l
    have := hb i l
    omega
  refine (freduceCoefficients_ok fun i l => ?_).mono fun r hr => ⟨hr.1, fun l => ?_⟩
  · have := ha i l
    have := hb i l
    rw [ht i l]
    omega
  · rw [hr.2 l]
    unfold Fe4.toFp
    rw [← Nat.cast_add]
    congr 1
    have h0 : t[0].lane l = a[0].lane l + b[0].lane l := ht 0 l
    have h1 : t[1].lane l = a[1].lane l + b[1].lane l := ht 1 l
    have h2 : t[2].lane l = a[2].lane l + b[2].lane l := ht 2 l
    have h3 : t[3].lane l = a[3].lane l + b[3].lane l := ht 3 l
    have h4 : t[4].lane l = a[4].lane l + b[4].lane l := ht 4 l
    have h5 : t[5].lane l = a[5].lane l + b[5].lane l := ht 5 l
    have h6 : t[6].lane l = a[6].lane l + b[6].lane l := ht 6 l
    have h7 : t[7].lane l = a[7].lane l + b[7].lane l := ht 7 l
    have h8 : t[8].lane l = a[8].lane l + b[8].lane l := ht 8 l
    have h9 : t[9].lane l = a[9].lane l + b[9].lane l := ht 9 l
    simp only [Fe4.val]
    omega

theorem fe4Sub_ok {a b : Fe4} (ha : a.Bnd (2^27)) (hb : b.Bnd (2^27)) :
    Ok (fe4Sub a b) fun r => r.Bnd (2^26) ∧ ∀ l, r.toFp l = a.toFp l - b.toFp l := by
  have hset (x : Nat) (l : Fin 4) : (vSet1 x).lane l = x := by simp [vSet1, M256.lane]
  have hbias : ∀ i : Fin 10, 2^27 ≤ bias[i] ∧ bias[i] < 2^30 := by decide
  refine Holds.bind (Holds.all (Q := fun (i : Fin 10) (x : M256) => ∀ l, x.lane l =
    (a[i]).lane l + bias[i] - (b[i]).lane l) fun i => ?_) fun t ht => ?_
  · refine (vAdd_ok fun l => ?_).bind fun s hs => (vSub_ok (fun l => ?_) fun l => ?_).mono
      fun x hx l => by rw [hx l, hs l, hset]
    · have := ha i l
      have := hbias i
      rw [hset]
      omega
    · have := ha i l
      have := hbias i
      rw [hs l, hset]
      omega
    · have := hb i l
      have := hbias i
      rw [hs l, hset]
      omega
  refine (freduceCoefficients_ok fun i l => ?_).mono fun r hr => ⟨hr.1, fun l => ?_⟩
  · have := ha i l
    have := hbias i
    rw [ht i l]
    omega
  · have e (i : Fin 10) : (t[i]).lane l + (b[i]).lane l = (a[i]).lane l + bias[i] := by
      have := hb i l
      have := hbias i
      rw [ht i l]
      omega
    have hval : Fe4.val t l + Fe4.val b l = Fe4.val a l + P25519 * 8 := by
      have g0 : t[0].lane l + b[0].lane l = a[0].lane l + 8 * 0x3ffffed := e 0
      have g1 : t[1].lane l + b[1].lane l = a[1].lane l + 8 * 0x1ffffff := e 1
      have g2 : t[2].lane l + b[2].lane l = a[2].lane l + 8 * 0x3ffffff := e 2
      have g3 : t[3].lane l + b[3].lane l = a[3].lane l + 8 * 0x1ffffff := e 3
      have g4 : t[4].lane l + b[4].lane l = a[4].lane l + 8 * 0x3ffffff := e 4
      have g5 : t[5].lane l + b[5].lane l = a[5].lane l + 8 * 0x1ffffff := e 5
      have g6 : t[6].lane l + b[6].lane l = a[6].lane l + 8 * 0x3ffffff := e 6
      have g7 : t[7].lane l + b[7].lane l = a[7].lane l + 8 * 0x1ffffff := e 7
      have g8 : t[8].lane l + b[8].lane l = a[8].lane l + 8 * 0x3ffffff := e 8
      have g9 : t[9].lane l + b[9].lane l = a[9].lane l + 8 * 0x1ffffff := e 9
      have hp : P25519 = 2^255 - 19 := rfl
      rw [hp]
      simp only [Fe4.val]
      omega
    rw [hr.2 l, eq_sub_iff_add_eq]
    unfold Fe4.toFp
    rw [← Nat.cast_add, hval, Nat.cast_add, Nat.cast_mul, ZMod.natCast_self, zero_mul, add_zero]

theorem fe4Mul_exact : ExactMul fe4Mul (fun f => f.Bnd (2^27)) Fe4.toFp :=
  fun _ _ ha hb => (fe4Mul_ok ha hb).mono fun _ hr => ⟨hr.1.mono (by norm_num), hr.2⟩

theorem fe4Sq_exact : ExactSq fe4Sq (fun f => f.Bnd (2^27)) Fe4.toFp :=
  fun _ ha => (fe4Sq_ok ha).mono fun _ hr => ⟨hr.1.mono (by norm_num), hr.2⟩

theorem fe4Invert_pow {z : Fe4} (hz : z.Bnd (2^27)) : Ok (fe4Invert z) fun r =>
    r.Bnd (2^26) ∧ ∀ l, r.toFp l = (z.toFp l)^(2^255 - 21) :=
  (invertChain_pow fe4Sq_exact fe4Mul_exact (fun f => f.Bnd (2^26))
    (fun _ _ ha hb => (fe4Mul_ok ha hb).2.1) hz).mono
    fun _ hr => ⟨hr.1, hr.2.2⟩

theorem fe4Invert_ok {z : Fe4} (hz : z.Bnd (2^27)) :
    Ok (fe4Invert z) fun r => r.Bnd (2^27) ∧ ∀ l, r.toFp l = (z.toFp l)⁻¹ :=
  invertChain_ok fe4Sq_exact fe4Mul_exact hz

end Onion
