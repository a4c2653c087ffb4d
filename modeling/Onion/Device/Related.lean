import Onion.Device.BatchInverse

/-!
# The kernel over two fields at a time

A thread of the kernel does the same operations whatever the field is.  When the operations of two
backends keep a relation `R` between their elements, so does all that the thread computes.

* `MulRelated`        ones, products and squares are related;
* `invert_related`    the addition chain;
* `fused_related`, `stash_related`   the forward passes;
* `steps_related`     the results of both batch inversions.
-/

namespace Onion
open Logged

/-! ## lists and loops under a relation -/

section
variable {F G : Type} {R : F → G → Prop} {l₁ : List F} {l₂ : List G} {a : F} {b : G}

theorem append_related (h : List.Forall₂ R l₁ l₂) (hab : R a b) :
    List.Forall₂ R (l₁ ++ [a]) (l₂ ++ [b]) :=
  List.rel_append h (List.Forall₂.cons hab List.Forall₂.nil)

theorem getD_related (h : List.Forall₂ R l₁ l₂) (hab : R a b) (i : Nat) :
    R (l₁.getD i a) (l₂.getD i b) := by
  induction h generalizing i with
  | nil => exact hab
  | cons h _ ih =>
    cases i with
    | zero => exact h
    | succ i => exact ih i

theorem sqTimes_related {sq₁ : F → Run F} {sq₂ : G → Run G}
    (hsq : ∀ {a b}, R a b → R (sq₁ a).val (sq₂ b).val) (n : Nat) (hab : R a b) :
    R (sqTimes sq₁ n a).val (sqTimes sq₂ n b).val := by
  induction n with
  | zero => exact hab
  | succ n ih => exact hsq ih

theorem invertChain_related {mul₁ : F → F → Run F} {mul₂ : G → G → Run G} {sq₁ : F → Run F}
    {sq₂ : G → Run G} (hsq : ∀ {a b}, R a b → R (sq₁ a).val (sq₂ b).val)
    (hmul : ∀ {a b c d}, R a b → R c d → R (mul₁ a c).val (mul₂ b d).val) (h : R a b) :
    R (invertChain mul₁ sq₁ a).val (invertChain mul₂ sq₂ b).val := by
  unfold invertChain
  simp only [bind_val]
  have k2 := hsq h
  have k9 := hmul (hsq (hsq k2)) h
  have k11 := hmul k9 k2
  have k5 := hmul (hsq k11) k9
  have k10 := hmul (sqTimes_related hsq 5 k5) k5
  have k20 := hmul (sqTimes_related hsq 10 k10) k10
  have k40 := hmul (sqTimes_related hsq 20 k20) k20
  have k50 := hmul (sqTimes_related hsq 10 k40) k10
  have k100 := hmul (sqTimes_related hsq 50 k50) k50
  have k200 := hmul (sqTimes_related hsq 100 k100) k100
  have k250 := hmul (sqTimes_related hsq 50 k200) k50
  exact hmul (sqTimes_related hsq 5 k250) k11

end

namespace DeviceField
variable {F G S U : Type} {fd : DeviceField F} {gd : DeviceField G} {R : F → G → Prop}
  {w : DevWalk F S} {v : DevWalk G U} {Q : S → U → Prop}

/-- ones, products and squares of related elements are related -/
structure MulRelated (fd : DeviceField F) (gd : DeviceField G) (R : F → G → Prop) : Prop where
  one : R fd.one gd.one
  mul : ∀ {a b c d}, R a b → R c d → R (fd.mul a c) (gd.mul b d)
  sq : ∀ {a b}, R a b → R (fd.sq a) (gd.sq b)

/-- related walks have related coordinates, and stay related -/
structure WalkRelated (w : DevWalk F S) (v : DevWalk G U) (R : F → G → Prop) (Q : S → U → Prop) :
    Prop where
  Y : ∀ {p q}, Q p q → R (w.Y p) (v.Y q)
  Z : ∀ {p q}, Q p q → R (w.Z p) (v.Z q)
  next : ∀ {p q}, Q p q → Q (w.next p) (v.next q)

theorem invert_related (h : MulRelated fd gd R) {a : F} {b : G} (hab : R a b) :
    R (fd.invert a) (gd.invert b) :=
  invertChain_related h.sq h.mul hab

/-- a step of a batch, and what is compared there -/
def Same (R : F → G → Prop) (a : Nat × F) (b : Nat × G) : Prop := a.1 = b.1 ∧ R a.2 b.2

/-! ## the default inversion -/

structure FusedRelated (R : F → G → Prop) (Q : S → U → Prop) (s : Fused F S) (t : Fused G U) :
    Prop where
  combo : List.Forall₂ R s.combo t.combo
  zs : List.Forall₂ R s.zs t.zs
  pe : R s.pe t.pe
  cur : Q s.cur t.cur

theorem fused_related (h : MulRelated fd gd R) (hw : WalkRelated w v R Q) {s : Fused F S}
    {t : Fused G U} (hs : FusedRelated R Q s t) (M : Nat) :
    FusedRelated R Q ((fd.fusedStep w)^[M] s) ((gd.fusedStep v)^[M] t) := by
  induction M with
  | zero => exact hs
  | succ M ih =>
    rw [Function.iterate_succ_apply', Function.iterate_succ_apply']
    exact ⟨append_related ih.combo (h.mul (hw.Y ih.cur) ih.pe),
      append_related ih.zs (hw.Z ih.cur), h.mul ih.pe (hw.Z ih.cur), hw.next ih.cur⟩

theorem fusedBack_related (h : MulRelated fd gd R) {combo zs : List F} {combo' zs' : List G}
    (hcombo : List.Forall₂ R combo combo') (hzs : List.Forall₂ R zs zs') (i : Nat) {a : F} {b : G}
    (hab : R a b) : List.Forall₂ (Same R) (fd.fusedBack combo zs i a) (gd.fusedBack combo' zs' i b) := by
  induction i generalizing a b with
  | zero => exact List.Forall₂.nil
  | succ i ih =>
    refine List.Forall₂.cons ⟨rfl, h.mul hab (getD_related hcombo h.one i)⟩ (ih ?_)
    by_cases hi : i ≠ 0
    · rw [if_pos hi, if_pos hi]
      exact h.mul hab (getD_related hzs h.one i)
    · rw [if_neg hi, if_neg hi]
      exact hab

/-! ## the inversion with three arrays -/

structure StashRelated (R : F → G → Prop) (Q : S → U → Prop) (s : Stashed F S) (t : Stashed G U) :
    Prop where
  ys : List.Forall₂ R s.ys t.ys
  zs : List.Forall₂ R s.zs t.zs
  cur : Q s.cur t.cur

theorem stash_related (hw : WalkRelated w v R Q) {s : Stashed F S} {t : Stashed G U}
    (hs : StashRelated R Q s t) (M : Nat) : StashRelated R Q ((stash w)^[M] s) ((stash v)^[M] t) := by
  induction M with
  | zero => exact hs
  | succ M ih =>
    rw [Function.iterate_succ_apply', Function.iterate_succ_apply']
    exact ⟨append_related ih.ys (hw.Y ih.cur), append_related ih.zs (hw.Z ih.cur), hw.next ih.cur⟩

theorem prefixes_related (h : MulRelated fd gd R) {zs : List F} {zs' : List G}
    (hzs : List.Forall₂ R zs zs') (i : Nat) :
    List.Forall₂ R (fd.prefixes zs i) (gd.prefixes zs' i) := by
  induction i with
  | zero => exact List.Forall₂.cons (getD_related hzs h.one 0) List.Forall₂.nil
  | succ i ih =>
    exact append_related ih (h.mul (getD_related ih h.one i) (getD_related hzs h.one (i + 1)))

theorem legacyBack_related (h : MulRelated fd gd R) {ys zs pre : List F} {ys' zs' pre' : List G}
    (hys : List.Forall₂ R ys ys') (hzs : List.Forall₂ R zs zs') (hpre : List.Forall₂ R pre pre')
    (i : Nat) {a : F} {b : G} (hab : R a b) :
    List.Forall₂ (Same R) (fd.legacyBack ys zs pre i a) (gd.legacyBack ys' zs' pre' i b) := by
  induction i generalizing a b with
  | zero => exact List.Forall₂.nil
  | succ i ih =>
    refine List.Forall₂.cons ⟨rfl, h.mul (getD_related hys h.one i) ?_⟩ (ih ?_)
    · by_cases hi : i = 0
      · rw [if_pos hi, if_pos hi]
        exact hab
      · rw [if_neg hi, if_neg hi]
        exact h.mul hab (getD_related hpre h.one (i - 1))
    · by_cases hi : i ≠ 0
      · rw [if_pos hi, if_pos hi]
        exact h.mul hab (getD_related hzs h.one i)
      · rw [if_neg hi, if_neg hi]
        exact hab

/-! ## a whole batch -/

theorem steps_related (h : MulRelated fd gd R) (hw : WalkRelated w v R Q) (inv : BatchInversion)
    (M : Nat) {p : S} {q : U} (hpq : Q p q) :
    List.Forall₂ (Same R) (fd.steps w inv M p) (gd.steps v inv M q) := by
  cases inv with
  | fusedCombo =>
    have hs : FusedRelated R Q ((fd.fusedStep w)^[M] ⟨[], [], fd.one, p⟩)
        ((gd.fusedStep v)^[M] ⟨[], [], gd.one, q⟩) :=
      fused_related h hw ⟨List.Forall₂.nil, List.Forall₂.nil, h.one, hpq⟩ M
    exact fusedBack_related h hs.combo hs.zs M (invert_related h hs.pe)
  | threeArrays =>
    have hs : StashRelated R Q ((stash w)^[M] ⟨[], [], p⟩) ((stash v)^[M] ⟨[], [], q⟩) :=
      stash_related hw ⟨List.Forall₂.nil, List.Forall₂.nil, hpq⟩ M
    have hpre := prefixes_related h hs.zs (M - 1)
    exact legacyBack_related h hs.ys hs.zs hpre M
      (invert_related h (getD_related hpre h.one (M - 1)))

theorem map_toBytes_related (c : F → Bytes 32) (d : G → Bytes 32)
    (hcd : ∀ {a b}, R a b → c a = d b) {l₁ : List (Nat × F)} {l₂ : List (Nat × G)}
    (h : List.Forall₂ (Same R) l₁ l₂) :
    l₁.map (Prod.map id c) = l₂.map (Prod.map id d) := by
  induction h with
  | nil => rfl
  | cons hab _ ih =>
    rw [List.map_cons, List.map_cons, ih]
    exact congrArg (· :: _) (Prod.ext hab.1 (hcd hab.2))

end DeviceField

end Onion
