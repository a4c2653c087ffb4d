import Onion.Device.Agree
import Onion.Engine.Epochs

/-!
# How many keys come from one base scalar

Two keys from one base scalar differ by a small multiple of `8 * basePoint`, which anyone can search
for, and one secret scalar then gives the other.

* `Linked`, `Near`   points, and scalars, a few steps of 8 apart;
* `FreshKeys`      what the batch mode asks for: no two pushed scalars from one base scalar, and no
                   two keys that are linked;
* `SingleMatch`, `SingleHit`   at most one candidate of a walk is pushed, once;
* `Separate`       what is pushed from different walks is not near;
* `epochs_fresh`   the engines keep to the first exactly when the others hold;
* `separate_of_far`   base scalars that are far from each other are enough for the last.
-/

namespace Onion
open Logged

/-! ## linked keys -/

/-- fewer than `steps` steps of `8 * basePoint` lead from one point to the other -/
def Linked (steps : Nat) (P Q : EdPoint) : Prop :=
  ∃ k < steps, Q = P + (8 * k) • basePoint ∨ P = Q + (8 * k) • basePoint

/-- fewer than `steps` steps of 8 lead from one scalar to the other, modulo the order -/
def Near (steps a b : Nat) : Prop :=
  ∃ k < steps, b ≡ a + 8 * k [MOD kOrder] ∨ a ≡ b + 8 * k [MOD kOrder]

theorem linked_iff {steps a b : Nat} :
    Linked steps (a • basePoint) (b • basePoint) ↔ Near steps a b := by
  refine exists_congr fun k => and_congr_right fun _ => ?_
  rw [← add_smul, ← add_smul, smul_basePoint_eq_iff, smul_basePoint_eq_iff]

theorem Linked.symm {steps : Nat} {P Q : EdPoint} (h : Linked steps P Q) : Linked steps Q P := by
  obtain ⟨k, hk, h⟩ := h
  exact ⟨k, hk, h.symm⟩

theorem Near.symm {steps a b : Nat} (h : Near steps a b) : Near steps b a := by
  obtain ⟨k, hk, h⟩ := h
  exact ⟨k, hk, h.symm⟩

/-- the scalar that `base_noclamp` multiplies by -/
def publicScalar (s : Bytes 32) : Nat := s.toNat % 2^255

def keyPoint (p : Push) : EdPoint := publicScalar p.cand.secret.scalar • basePoint

/-- every scalar is the candidate of its draw, no two come from one base scalar, and no two keys are
linked -/
structure FreshKeys (h : Nat → Host) (steps : Nat) (q : List (Nat × Push)) : Prop where
  scalars : ∀ x ∈ q, x.2.cand.secret.scalar = scalarAdd8i (baseScalar (h x.1) x.2.draw) x.2.index
  bases : (q.map fun x => baseScalar (h x.1) x.2.draw).Nodup
  unlinked : q.Pairwise fun x y => ¬ Linked steps (keyPoint x.2) (keyPoint y.2)

/-! ## when they are fresh -/

/-- in the epoch `e`, at most one match among the completed candidates of each walk -/
def SingleMatch (h : Host) (cfg : EngineConfig) (lanes : Nat) (e : Nat × Nat) : Prop :=
  ∀ draw, e.1 ≤ draw → draw < e.1 + lanes →
    ∀ i < cfg.completed e.2 * cfg.batch, ∀ j < cfg.completed e.2 * cfg.batch,
      ∀ p p' pk pk', Matched h cfg.patterns draw i p pk → Matched h cfg.patterns draw j p' pk' →
        i = j ∧ p = p'

/-- in the launch `d`, at most one of the recorded matches has a public key -/
def SingleHit (h : Host) (cfg : CudaConfig) (dev : Device cfg.threads cfg.kStepsPerThread)
    (d : Nat × Nat) : Prop :=
  ∀ a ∈ (CudaEngine.launchMatches h cfg dev d).take kMaxHitSlots,
    ∀ b ∈ (CudaEngine.launchMatches h cfg dev d).take kMaxHitSlots,
      (CudaEngine.slotHit h cfg d.1 a).isSome → (CudaEngine.slotHit h cfg d.1 b).isSome → a = b

/-- candidate `i` of the walk from draw `draw` is completed in one of the epochs, and matches -/
def Due (h : Host) (cfg : EngineConfig) (lanes : Nat) (es : List (Nat × Nat)) (draw i : Nat) : Prop :=
  ∃ e ∈ es, (e.1 ≤ draw ∧ draw < e.1 + lanes) ∧ i < cfg.completed e.2 * cfg.batch ∧
    ∃ p pk, Matched h cfg.patterns draw i p pk

/-- candidate `i` of the walk from draw `draw` is recorded in one of the launches, and has a key -/
def DueHit (h : Host) (cfg : CudaConfig) (dev : Device cfg.threads cfg.kStepsPerThread)
    (ds : List (Nat × Nat)) (draw i : Nat) : Prop :=
  ∃ d ∈ ds, d.1 = draw ∧ ∃ a ∈ (CudaEngine.launchMatches h cfg dev d).take kMaxHitSlots,
    CudaEngine.hitIndex cfg.threads a = i ∧ (CudaEngine.slotHit h cfg d.1 a).isSome

/-- what is due on different walks comes from different base scalars, and is not near -/
def Separate (n : Nat) (h : Nat → Host) (steps : Nat) (due : Nat → Nat → Nat → Prop) : Prop :=
  ∀ t < n, ∀ t' < n, ∀ draw i draw' i', due t draw i → due t' draw' i' → (t, draw) ≠ (t', draw') →
    baseScalar (h t) draw ≠ baseScalar (h t') draw' ∧
      ¬ Near steps (publicScalar (scalarAdd8i (baseScalar (h t) draw) i))
        (publicScalar (scalarAdd8i (baseScalar (h t') draw') i'))

/-- entries of different names are related pairwise when any two of them are -/
theorem pairwise_named {α β : Type} {R : α → α → Prop} (hR : ∀ x y, R x y → R y x) {f : α → β}
    {l : List α} (hl : (l.map f).Nodup) :
    l.Pairwise R ↔ ∀ x ∈ l, ∀ y ∈ l, f x ≠ f y → R x y := by
  constructor
  · intro h x hx y hy hne
    have hsymm : Std.Symm R := ⟨hR⟩
    exact h.forall hx hy fun e => hne (congrArg f e)
  · intro h
    have hnodup : l.Nodup := hl.of_map
    exact hnodup.pairwise_of_forall_ne fun x hx y hy hne =>
      h x hx y hy fun e => hne (List.inj_on_of_nodup_map hl hx hy e)

/-- each walk is pushed from once, and what is pushed from different walks is apart -/
theorem freshKeys_pairs {steps : Nat} {h : Nat → Host} {q : List (Nat × Push)}
    (hs : ∀ x ∈ q, x.2.cand.secret.scalar = scalarAdd8i (baseScalar (h x.1) x.2.draw) x.2.index) :
    FreshKeys h steps q ↔ (q.map fun x => (x.1, x.2.draw)).Nodup ∧
      ∀ x ∈ q, ∀ y ∈ q, (x.1, x.2.draw) ≠ (y.1, y.2.draw) →
        baseScalar (h x.1) x.2.draw ≠ baseScalar (h y.1) y.2.draw ∧
          ¬ Near steps (publicScalar x.2.cand.secret.scalar)
            (publicScalar y.2.cand.secret.scalar) := by
  have hpairs (hdraws : (q.map fun x => (x.1, x.2.draw)).Nodup) :
      (q.map fun x => baseScalar (h x.1) x.2.draw).Nodup ∧
          q.Pairwise (fun x y => ¬ Linked steps (keyPoint x.2) (keyPoint y.2)) ↔
        ∀ x ∈ q, ∀ y ∈ q, (x.1, x.2.draw) ≠ (y.1, y.2.draw) →
          baseScalar (h x.1) x.2.draw ≠ baseScalar (h y.1) y.2.draw ∧
            ¬ Linked steps (keyPoint x.2) (keyPoint y.2) := by
    rw [List.Nodup, List.pairwise_map, ← List.pairwise_and_iff]
    exact pairwise_named (fun x y hxy => ⟨hxy.1.symm, fun hl => hxy.2 hl.symm⟩) hdraws
  simp only [keyPoint, linked_iff] at hpairs
  constructor
  · rintro ⟨-, hbases, hunlinked⟩
    have hdraws : (q.map fun x => (x.1, x.2.draw)).Nodup := by
      have hmap : (q.map fun x => baseScalar (h x.1) x.2.draw) =
          (q.map fun x => (x.1, x.2.draw)).map fun w => baseScalar (h w.1) w.2 := by
        rw [List.map_map]
        rfl
      exact (hmap ▸ hbases).of_map
    simp only [keyPoint, linked_iff] at hunlinked
    exact ⟨hdraws, (hpairs hdraws).mp ⟨hbases, hunlinked⟩⟩
  · rintro ⟨hdraws, hapart⟩
    obtain ⟨hbases, hunlinked⟩ := (hpairs hdraws).mpr hapart
    refine ⟨hs, hbases, ?_⟩
    simp only [keyPoint, linked_iff]
    exact hunlinked

/-- the keys of a queue are fresh when each thread pushes at most once from each draw, and what is
pushed from different walks is separate -/
theorem freshKeys_iff {n steps : Nat} {h : Nat → Host} {thread : Nat → List Push}
    {due : Nat → Nat → Nat → Prop}
    (hs : ∀ t < n, ∀ p ∈ thread t,
      p.cand.secret.scalar = scalarAdd8i (baseScalar (h t) p.draw) p.index)
    (hdue : ∀ t < n, ∀ draw i, due t draw i ↔ ∃ p ∈ thread t, p.draw = draw ∧ p.index = i)
    {q : List (Nat × Push)} (hq : Interleaving n thread q) :
    FreshKeys h steps q ↔
      (∀ t < n, ((thread t).map Push.draw).Nodup) ∧ Separate n h steps due := by
  have hmem : ∀ x : Nat × Push, x ∈ q ↔ x.1 < n ∧ x.2 ∈ thread x.1 := fun x =>
    hq.mem_iff.trans mem_threadPushes
  have hscalar : ∀ x ∈ q, x.2.cand.secret.scalar =
      scalarAdd8i (baseScalar (h x.1) x.2.draw) x.2.index := fun x hx =>
    hs x.1 ((hmem x).mp hx).1 x.2 ((hmem x).mp hx).2
  rw [freshKeys_pairs hscalar, ← threadPushes_nodup Push.draw hq]
  refine and_congr_right fun _ => ?_
  constructor
  · intro hapart t ht t' ht' draw i draw' i' hd hd' hne
    obtain ⟨p, hp, rfl, rfl⟩ := (hdue t ht draw i).mp hd
    obtain ⟨p', hp', rfl, rfl⟩ := (hdue t' ht' draw' i').mp hd'
    rw [← hs t ht p hp, ← hs t' ht' p' hp']
    exact hapart (t, p) ((hmem _).mpr ⟨ht, hp⟩) (t', p') ((hmem _).mpr ⟨ht', hp'⟩) hne
  · intro hsep x hx y hy hne
    obtain ⟨ht, hp⟩ := (hmem x).mp hx
    obtain ⟨ht', hp'⟩ := (hmem y).mp hy
    rw [hscalar x hx, hscalar y hy]
    exact hsep x.1 ht y.1 ht' _ _ _ _ ((hdue x.1 ht _ _).mpr ⟨x.2, hp, rfl, rfl⟩)
      ((hdue y.1 ht' _ _).mpr ⟨y.2, hp', rfl, rfl⟩) hne

/-! ## the workers -/

theorem pushes_draws {α : Type} (x : Worker α) :
    (pushes x).map Push.draw = (hits x).map Hit.draw := by
  rw [← pushes_hit, List.map_map]
  rfl

theorem exists_push {α : Type} {r : Worker α} {draw i : Nat} :
    (∃ p ∈ pushes r, p.draw = draw ∧ p.index = i) ↔ ∃ x ∈ hits r, x.draw = draw ∧ x.index = i := by
  rw [← pushes_hit]
  constructor
  · rintro ⟨p, hp, rfl, rfl⟩
    exact ⟨p.hit, List.mem_map_of_mem hp, rfl, rfl⟩
  · rintro ⟨x, hx, rfl, rfl⟩
    obtain ⟨p, hp, rfl⟩ := List.mem_map.mp hx
    exact ⟨p, hp, rfl, rfl⟩

section
variable {lanes : Nat} {S O : Type} {ops : LaneOps lanes S O} (wk : Walks ops) {h : Host}
  {cfg : EngineConfig} {polls : Nat}

include wk in
theorem worker_scalar {p : Push} (hp : p ∈ pushes (worker ops h cfg polls)) :
    p.cand.secret.scalar = scalarAdd8i (baseScalar h p.draw) p.index := by
  have hx : p.hit ∈ hits (worker ops h cfg polls) := by
    rw [← pushes_hit]
    exact List.mem_map_of_mem hp
  obtain ⟨e, -, -, -, hs, -⟩ := (mem_worker_hits wk).mp hx
  exact hs

include wk in
theorem worker_due {draw i : Nat} : Due h cfg lanes (epochs (worker ops h cfg polls)) draw i ↔
    ∃ p ∈ pushes (worker ops h cfg polls), p.draw = draw ∧ p.index = i := by
  rw [exists_push]
  constructor
  · rintro ⟨e, he, hdraw, hi, p, pk, hm⟩
    exact ⟨⟨draw, i, scalarAdd8i (baseScalar h draw) i, pk, p⟩,
      (mem_worker_hits wk).mpr ⟨e, he, hdraw, hi, rfl, hm⟩, rfl, rfl⟩
  · rintro ⟨x, hx, rfl, rfl⟩
    obtain ⟨e, he, hdraw, hi, -, hm⟩ := (mem_worker_hits wk).mp hx
    exact ⟨e, he, hdraw, hi, x.pattern, x.pubkey, hm⟩

include wk in
theorem worker_draws : ((pushes (worker ops h cfg polls)).map Push.draw).Nodup ↔
    ∀ e ∈ epochs (worker ops h cfg polls), SingleMatch h cfg lanes e := by
  rw [pushes_draws, List.nodup_map_iff_inj_on (worker_hits_nodup wk polls)]
  constructor
  · intro hinj e he draw hlo hhi i hi j hj p p' pk pk' hm hm'
    have hx := hinj ⟨draw, i, scalarAdd8i (baseScalar h draw) i, pk, p⟩
      ((mem_worker_hits wk).mpr ⟨e, he, ⟨hlo, hhi⟩, hi, rfl, hm⟩)
      ⟨draw, j, scalarAdd8i (baseScalar h draw) j, pk', p'⟩
      ((mem_worker_hits wk).mpr ⟨e, he, ⟨hlo, hhi⟩, hj, rfl, hm'⟩) rfl
    exact ⟨congrArg Hit.index hx, congrArg Hit.pattern hx⟩
  · intro hsingle x hx y hy hd
    obtain ⟨e, he, hdx, hix, hsx, hmx⟩ := (mem_worker_hits wk).mp hx
    obtain ⟨e', he', hdy, hiy, hsy, hmy⟩ := (mem_worker_hits wk).mp hy
    rw [← hd] at hdy hsy hmy
    obtain rfl := epochs_unique wk he he' hdx hdy
    obtain ⟨hi, hp⟩ := hsingle e he x.draw hdx.1 hdx.2 _ hix _ hiy _ _ _ _ hmx hmy
    rw [← hi] at hsy hmy
    obtain ⟨-, -, -, hkx⟩ := hmx
    obtain ⟨-, -, -, hky⟩ := hmy
    rw [hkx] at hky
    exact Hit.ext hd hi (hsx.trans hsy.symm) (Option.some.inj hky) hp

end

section
variable {h : Host} {cfg : CudaConfig} {dev : Device cfg.threads cfg.kStepsPerThread}
  {depth : Nat} [NeZero depth] (hne : ∀ c : Fin depth, c ≠ c + 1) {s : CudaState depth}

include hne in
theorem run_scalar {p : Push} (hp : p ∈ pushes (CudaEngine.run h cfg dev s)) :
    p.cand.secret.scalar = scalarAdd8i (baseScalar h p.draw) p.index := by
  have hx : p.hit ∈ hits (CudaEngine.run h cfg dev s) := by
    rw [← pushes_hit]
    exact List.mem_map_of_mem hp
  obtain ⟨d, -, hx⟩ := (CudaEngine.mem_run_hits hne).mp hx
  obtain ⟨hit, -, hs⟩ := CudaEngine.mem_launchHits.mp hx
  obtain ⟨hd, -, hscalar, -⟩ := CudaEngine.slotHit_eq_some.mp hs
  rw [← hd] at hscalar
  exact hscalar

include hne in
theorem run_due {draw i : Nat} :
    DueHit h cfg dev (harvests (CudaEngine.run h cfg dev s)) draw i ↔
      ∃ p ∈ pushes (CudaEngine.run h cfg dev s), p.draw = draw ∧ p.index = i := by
  rw [exists_push]
  constructor
  · rintro ⟨d, hd, rfl, a, ha, rfl, hk⟩
    obtain ⟨x, hx⟩ := Option.isSome_iff_exists.mp hk
    obtain ⟨hdx, hix, -⟩ := CudaEngine.slotHit_eq_some.mp hx
    exact ⟨x, (CudaEngine.mem_run_hits hne).mpr
      ⟨d, hd, CudaEngine.mem_launchHits.mpr ⟨a, ha, hx⟩⟩, hdx, hix⟩
  · rintro ⟨x, hx, rfl, rfl⟩
    obtain ⟨d, hd, hx⟩ := (CudaEngine.mem_run_hits hne).mp hx
    obtain ⟨a, ha, hax⟩ := CudaEngine.mem_launchHits.mp hx
    obtain ⟨hdx, hix, -⟩ := CudaEngine.slotHit_eq_some.mp hax
    exact ⟨d, hd, hdx.symm, a, ha, hix.symm, by rw [hax]; rfl⟩

include hne in
theorem run_draws : ((pushes (CudaEngine.run h cfg dev s)).map Push.draw).Nodup ↔
    ∀ d ∈ harvests (CudaEngine.run h cfg dev s), SingleHit h cfg dev d := by
  rw [pushes_draws, List.nodup_map_iff_inj_on (CudaEngine.run_hits_nodup hne s).of_map]
  constructor
  · intro hinj d hd a ha b hb hka hkb
    obtain ⟨x, hx⟩ := Option.isSome_iff_exists.mp hka
    obtain ⟨y, hy⟩ := Option.isSome_iff_exists.mp hkb
    have hmem : ∀ c ∈ (CudaEngine.launchMatches h cfg dev d).take kMaxHitSlots, ∀ z,
        CudaEngine.slotHit h cfg d.1 c = some z → z ∈ hits (CudaEngine.run h cfg dev s) :=
      fun c hc z hz => (CudaEngine.mem_run_hits hne).mpr
        ⟨d, hd, CudaEngine.mem_launchHits.mpr ⟨c, hc, hz⟩⟩
    obtain ⟨hdx, hix, -⟩ := CudaEngine.slotHit_eq_some.mp hx
    obtain ⟨hdy, hiy, -⟩ := CudaEngine.slotHit_eq_some.mp hy
    have hxy := hinj x (hmem a ha x hx) y (hmem b hb y hy) (hdx.trans hdy.symm)
    rw [hxy, hiy] at hix
    exact CudaEngine.launchMatches_inj (List.mem_of_mem_take ha) (List.mem_of_mem_take hb) hix.symm
  · intro hsingle x hx y hy hdraw
    obtain ⟨d, hd, hx⟩ := (CudaEngine.mem_run_hits hne).mp hx
    obtain ⟨d', hd', hy⟩ := (CudaEngine.mem_run_hits hne).mp hy
    rw [CudaEngine.launchHits_draw hx, CudaEngine.launchHits_draw hy] at hdraw
    obtain rfl := CudaEngine.harvests_unique hne hd hd' hdraw
    obtain ⟨a, ha, hax⟩ := CudaEngine.mem_launchHits.mp hx
    obtain ⟨b, hb, hby⟩ := CudaEngine.mem_launchHits.mp hy
    obtain rfl := hsingle d hd a ha b hb (by rw [hax]; rfl) (by rw [hby]; rfl)
    exact Option.some.inj (hax.symm.trans hby)

end

/-! ## far base scalars -/

theorem publicScalar_eq {a : Bytes 32} {i : Nat} (hi : i < 2^61) (hlt : a.toNat + 8 * i < 2^255) :
    publicScalar (scalarAdd8i a i) = a.toNat + 8 * i := by
  rw [publicScalar, scalarAdd8i_mod a hi, Nat.mod_eq_of_lt hlt]

/-- candidates that are near come from base scalars at most twice as far -/
theorem near_of_steps {steps a b i j k : Nat} (hi : i < steps) (hj : j < steps) (hk : k < steps)
    (h : b + 8 * j ≡ a + 8 * i + 8 * k [MOD kOrder]) : Near (2 * steps) a b := by
  rcases Nat.le_total j (i + k) with hle | hle
  · refine ⟨i + k - j, by omega, Or.inl (Nat.ModEq.add_right_cancel' (8 * j) ?_)⟩
    rwa [show a + 8 * (i + k - j) + 8 * j = a + 8 * i + 8 * k by omega]
  · refine ⟨j - (i + k), by omega, Or.inr (Nat.ModEq.add_right_cancel' (8 * (i + k)) ?_)⟩
    rw [show a + 8 * (i + k) = a + 8 * i + 8 * k by omega,
      show b + 8 * (j - (i + k)) + 8 * (i + k) = b + 8 * j by omega]
    exact h.symm

/-- what is due in short walks is separate when the base scalars are far from each other -/
theorem separate_of_far {n steps : Nat} {h : Nat → Host} {due : Nat → Nat → Nat → Prop}
    (hsteps : steps ≤ 2^61)
    (hdue : ∀ t < n, ∀ draw i, due t draw i →
      i < steps ∧ (baseScalar (h t) draw).toNat + 8 * i < 2^255)
    (hfar : ∀ t < n, ∀ t' < n, ∀ draw i draw' i', due t draw i → due t' draw' i' →
      (t, draw) ≠ (t', draw') →
        ¬ Near (2 * steps) (baseScalar (h t) draw).toNat (baseScalar (h t') draw').toNat) :
    Separate n h steps due := by
  intro t ht t' ht' draw i draw' i' hd hd' hne
  have hnot := hfar t ht t' ht' draw i draw' i' hd hd' hne
  obtain ⟨hi, hlt⟩ := hdue t ht draw i hd
  obtain ⟨hi', hlt'⟩ := hdue t' ht' draw' i' hd'
  refine ⟨fun hb => hnot ⟨0, by omega, Or.inl (by rw [hb]; rfl)⟩, ?_⟩
  rw [publicScalar_eq (hi.trans_le hsteps) hlt, publicScalar_eq (hi'.trans_le hsteps) hlt']
  rintro ⟨k, hk, hmod | hmod⟩
  · exact hnot (near_of_steps hi hi' hk hmod)
  · exact hnot (near_of_steps hi' hi hk hmod).symm

/-! ## a search with fresh keys -/

def searchDevice : Device searchGpu.threads searchGpu.kStepsPerThread :=
  FieldBackend.limbs51.device .fusedCombo _ _ (fun _ => true) (fun _ => candidates _ _)
    fun _ => .refl _

theorem searchDevice_matched {t : Nat} (ht : t < 2) {d : Nat × Nat} {a : HitSlot}
    (ha : a ∈ CudaEngine.launchMatches (spacedHost t) searchGpu searchDevice d) :
    CudaEngine.hitIndex 2 a < 4 ∧ ∃ p pk,
      Matched (spacedHost t) searchPatterns d.1 (CudaEngine.hitIndex 2 a) p pk := by
  obtain ⟨hat, haj, hseen⟩ := CudaEngine.mem_launchMatches.mp ha
  have hindex : CudaEngine.hitIndex 2 a = a.t + a.j * 2 := CudaEngine.hitIndex_eq hat haj
  have hi : a.t + a.j * 2 < 4 := by
    have hat : a.t < 2 := hat
    have haj : a.j < 2 := haj
    omega
  have hfirst : firstPattern (spacedHost t) searchPatterns d.1 (a.t + a.j * 2) =
      some a.patternIndex :=
    (FieldBackend.seen .limbs51 .fusedCombo _ _ _ hi rfl).symm.trans hseen
  obtain ⟨⟨pat, hpat, hm⟩, -⟩ := firstPattern_eq_some.mp hfirst
  rw [hindex]
  exact ⟨hi, _, _, pat, hpat, hm, spaced_key ht hi⟩

theorem spaced_unique {t draw i j p p' : Nat} {pk pk' : Bytes 32} (ht : t < 2) (hi : i < 4)
    (hj : j < 4) (hm : Matched (spacedHost t) searchPatterns draw i p pk)
    (hm' : Matched (spacedHost t) searchPatterns draw j p' pk') : i = j ∧ p = p' := by
  have h := ((spacedHost_matched ht hi).mp ⟨pk, hm⟩).symm.trans
    ((spacedHost_matched ht hj).mp ⟨pk', hm'⟩)
  exact Prod.mk.inj (Option.some.inj (Option.some.inj h))

/-- the eighth draw and those after it have none -/
theorem spaced_draw {t draw i p : Nat} {pk : Bytes 32} (ht : t < 2) (hi : i < 4)
    (hm : Matched (spacedHost t) searchPatterns draw i p pk) : draw < 7 := by
  have hnone : ∀ t < 2, spacedMatches[8 * t + 7]? = some none := by decide
  by_contra hge
  have h := (spacedHost_matched ht hi).mp ⟨pk, hm⟩
  rw [Nat.min_eq_right (Nat.le_of_not_lt hge), hnone t ht] at h
  cases h

/-- eight steps do not lead from one base scalar of the search to another -/
theorem spaced_far {t t' draw draw' : Nat} (ht : t < 2) (ht' : t' < 2) (hd : draw < 7)
    (hd' : draw' < 7) (hne : (t, draw) ≠ (t', draw')) :
    ¬ Near 8 (baseScalar (spacedHost t) draw).toNat (baseScalar (spacedHost t') draw').toNat := by
  have hkey : 8 * t + draw ≠ 8 * t' + draw' := fun e =>
    hne (Prod.ext (show t = t' by omega) (show draw = draw' by omega))
  have hsmall : ∀ {x y k : Nat}, x < 2^12 → y < 2^12 → k < 8 →
      4 * kOrder + y ≡ 4 * kOrder + x + 8 * k [MOD kOrder] → y = x + 8 * k := by
    intro x y k hx hy hk h
    have hbig : 2^13 ≤ kOrder := by norm_num [kOrder]
    rw [Nat.add_assoc] at h
    exact (Nat.ModEq.add_left_cancel' _ h).eq_of_lt_of_lt (by omega) (by omega)
  rw [baseScalar_spaced ht, baseScalar_spaced ht', Nat.min_eq_left hd.le, Nat.min_eq_left hd'.le]
  rintro ⟨k, hk, h | h⟩
  · have he := hsmall (by omega) (by omega) hk h
    omega
  · have he := hsmall (by omega) (by omega) hk h
    omega

theorem spaced_separate {n : Nat} (hn : n ≤ 2) {due : Nat → Nat → Nat → Prop}
    (hdue : ∀ t < n, ∀ draw i, due t draw i →
      i < 4 ∧ ∃ p pk, Matched (spacedHost t) searchPatterns draw i p pk) :
    Separate n spacedHost 4 due := by
  refine separate_of_far (by norm_num) (fun t ht draw i hd => ?_)
    fun t ht t' ht' draw i draw' i' hd hd' hne => ?_
  · obtain ⟨hi, -⟩ := hdue t ht draw i hd
    exact ⟨hi, spaced_range (ht.trans_le hn) (hi.trans (by norm_num))⟩
  · obtain ⟨hi, p, pk, hm⟩ := hdue t ht draw i hd
    obtain ⟨hi', p', pk', hm'⟩ := hdue t' ht' draw' i' hd'
    have ht := ht.trans_le hn
    have ht' := ht'.trans_le hn
    exact spaced_far ht ht' (spaced_draw ht hi hm) (spaced_draw ht' hi' hm') hne

/-- the first launch is read back -/
theorem searchDevice_pushes : ∃ p rest,
    pushes (CudaEngine.run (spacedHost 0) searchGpu searchDevice (startCuda 9)) = p :: rest := by
  obtain ⟨pk, hm⟩ := spaced_first
  have hseen : seenPattern (spacedHost 0) searchGpu searchDevice 0 0 = some 0 :=
    (FieldBackend.seen .limbs51 .fusedCombo _ _ _ (by decide) rfl).trans
      (hm.first search_compiled search_free)
  have hmem : ∀ launch, (⟨0, 0, 0⟩ : HitSlot) ∈
      CudaEngine.launchMatches (spacedHost 0) searchGpu searchDevice (0, launch) := fun launch =>
    CudaEngine.mem_launchMatches.mpr ⟨by decide, by decide, hseen⟩
  have hd := CudaEngine.run_harvests_first kPipelineDepth_ne (s := startCuda 9) (fun _ => rfl)
    (by decide) (by decide) (by decide) (by decide) (by decide) (List.ne_nil_of_mem (hmem _))
  have hfew := List.countP_le_length (l := List.range (searchGpu.threads * searchGpu.kStepsPerThread))
    (p := fun i => (seenPattern (spacedHost 0) searchGpu searchDevice 0 i).isSome)
  rw [List.length_range] at hfew
  obtain ⟨-, -, -, hk⟩ := hm
  exact pushes_of_mem (CudaEngine.run_complete kPipelineDepth_ne _ hd (hfew.trans (by decide))
    (by decide) hseen hk)

/-! ## runs -/

theorem worker_fresh {lanes : Nat} {S O : Type} {ops : LaneOps lanes S O} (wk : Walks ops) {n : Nat}
    {h : Nat → Host} {cfg : EngineConfig} {polls : Nat → Nat} {q : List (Nat × Push)}
    (hq : Interleaving n (fun t => pushes (worker ops (h t) cfg (polls t))) q) :
    FreshKeys h cfg.epochCandidates q ↔
      (∀ t < n, ∀ e ∈ epochs (worker ops (h t) cfg (polls t)), SingleMatch (h t) cfg lanes e) ∧
      Separate n h cfg.epochCandidates fun t =>
        Due (h t) cfg lanes (epochs (worker ops (h t) cfg (polls t))) := by
  refine (freshKeys_iff (fun t _ p hp => ?_) (fun t _ draw i => ?_) hq).trans
    (and_congr_left' (forall₂_congr fun t _ => worker_draws wk))
  · exact worker_scalar wk hp
  · exact worker_due wk

/-- **How many keys come from one base scalar.**  In every run of the three engines, with any
interleaving of the threads, the pushed scalars come from different base scalars, and no two keys
are an epoch's multiple of 8 apart, exactly when no epoch has two matches to push and the matches of
different epochs are separate. -/
theorem epochs_fresh (n : Nat) (h : Nat → Host) (polls : Nat → Nat) (cfg : EngineConfig)
    (gpu : CudaConfig) (dev : Device gpu.threads gpu.kStepsPerThread)
    (s : CudaState kPipelineDepth) :
    (∀ q, Interleaving n (fun t => pushes (IncrementalCpuEngine.worker (h t) cfg (polls t))) q →
      (FreshKeys h cfg.epochCandidates q ↔
        (∀ t < n, ∀ e ∈ epochs (IncrementalCpuEngine.worker (h t) cfg (polls t)),
          SingleMatch (h t) cfg 1 e) ∧
        Separate n h cfg.epochCandidates fun t =>
          Due (h t) cfg 1 (epochs (IncrementalCpuEngine.worker (h t) cfg (polls t))))) ∧
    (∀ q, Interleaving n (fun t => pushes (IncrementalCpuEngineX4.worker (h t) cfg (polls t))) q →
      (FreshKeys h cfg.epochCandidates q ↔
        (∀ t < n, ∀ e ∈ epochs (IncrementalCpuEngineX4.worker (h t) cfg (polls t)),
          SingleMatch (h t) cfg 4 e) ∧
        Separate n h cfg.epochCandidates fun t =>
          Due (h t) cfg 4 (epochs (IncrementalCpuEngineX4.worker (h t) cfg (polls t))))) ∧
    (∀ q, Interleaving 1 (fun t => pushes (CudaEngine.run (h t) gpu dev s)) q →
      (FreshKeys h (gpu.threads * gpu.kStepsPerThread) q ↔
        (∀ t < 1, ∀ d ∈ harvests (CudaEngine.run (h t) gpu dev s), SingleHit (h t) gpu dev d) ∧
        Separate 1 h (gpu.threads * gpu.kStepsPerThread) fun t =>
          DueHit (h t) gpu dev (harvests (CudaEngine.run (h t) gpu dev s)))) := by
  refine ⟨fun q hq => ?_, fun q hq => ?_, fun q hq => ?_⟩
  · exact worker_fresh laneWalks hq
  · exact worker_fresh laneWalksX4 hq
  · refine (freshKeys_iff (fun t _ p hp => ?_) (fun t _ draw i => ?_) hq).trans
      (and_congr_left' (forall₂_congr fun t _ => run_draws kPipelineDepth_ne))
    · exact run_scalar kPipelineDepth_ne hp
    · exact run_due kPipelineDepth_ne

/-- two threads, and a GPU that reads its first launch back -/
theorem epochs_fresh_spaced :
    let q1 := threadPushes 2 fun t =>
      pushes (IncrementalCpuEngine.worker (spacedHost t) searchConfig 5)
    let q4 := threadPushes 2 fun t =>
      pushes (IncrementalCpuEngineX4.worker (spacedHost t) searchConfig 5)
    let qg := threadPushes 1 fun t =>
      pushes (CudaEngine.run (spacedHost t) searchGpu searchDevice (startCuda 9))
    (FreshKeys spacedHost 4 q1 ∧ ∃ x y, (0, x) ∈ q1 ∧ (1, y) ∈ q1) ∧
      (FreshKeys spacedHost 4 q4 ∧ ∃ x y, (0, x) ∈ q4 ∧ (1, y) ∈ q4) ∧
      FreshKeys spacedHost 4 qg ∧ ∃ x, (0, x) ∈ qg := by
  intro q1 q4 qg
  obtain ⟨h1, h4, hgpu⟩ := epochs_fresh 2 spacedHost (fun _ => 5) searchConfig searchGpu
    searchDevice (startCuda 9)
  have hsingle : ∀ t < 2, ∀ lanes e, SingleMatch (spacedHost t) searchConfig lanes e := by
    intro t ht lanes e draw _ _ i hi j hj p p' pk pk' hm hm'
    have hlen : searchConfig.completed e.2 * searchConfig.batch ≤ 4 := searchConfig.completed_le e.2
    exact spaced_unique ht (hi.trans_le hlen) (hj.trans_le hlen) hm hm'
  have hdue : ∀ {lanes : Nat} {es : Nat → List (Nat × Nat)}, ∀ t < 2, ∀ draw i,
      Due (spacedHost t) searchConfig lanes (es t) draw i →
        i < 4 ∧ ∃ p pk, Matched (spacedHost t) searchPatterns draw i p pk := by
    rintro lanes es t ht draw i ⟨e, -, -, hi, hm⟩
    exact ⟨hi.trans_le (searchConfig.completed_le e.2), hm⟩
  have hpush1 : ∀ t < 2, ∃ x, (t, x) ∈ q1 := fun t ht =>
    exists_threadPush ht (spaced_worker_pushes laneWalks (by decide) rfl ht (by decide))
  have hpush4 : ∀ t < 2, ∃ x, (t, x) ∈ q4 := fun t ht =>
    exists_threadPush ht (spaced_worker_pushes laneWalksX4 (by decide) rfl ht (by decide))
  refine ⟨⟨(h1 _ (List.Perm.refl _)).mpr ⟨fun t ht e _ => hsingle t ht 1 e,
    spaced_separate le_rfl hdue⟩, ?_⟩, ⟨(h4 _ (List.Perm.refl _)).mpr
    ⟨fun t ht e _ => hsingle t ht 4 e, spaced_separate le_rfl hdue⟩, ?_⟩,
    (hgpu _ (List.Perm.refl _)).mpr ⟨fun t ht d _ a ha b hb _ _ => ?_, ?_⟩, ?_⟩
  · obtain ⟨x, hx⟩ := hpush1 0 Nat.two_pos
    obtain ⟨y, hy⟩ := hpush1 1 Nat.one_lt_two
    exact ⟨x, y, hx, hy⟩
  · obtain ⟨x, hx⟩ := hpush4 0 Nat.two_pos
    obtain ⟨y, hy⟩ := hpush4 1 Nat.one_lt_two
    exact ⟨x, y, hx, hy⟩
  · have ht := ht.trans Nat.one_lt_two
    have ha := List.mem_of_mem_take ha
    have hb := List.mem_of_mem_take hb
    obtain ⟨hi, p, pk, hm⟩ := searchDevice_matched ht ha
    obtain ⟨hj, p', pk', hm'⟩ := searchDevice_matched ht hb
    exact CudaEngine.launchMatches_inj ha hb (spaced_unique ht hi hj hm hm').1
  · refine spaced_separate one_le_two fun t ht draw i hd => ?_
    obtain ⟨d, -, rfl, a, ha, rfl, -⟩ := hd
    exact searchDevice_matched (ht.trans Nat.one_lt_two) (List.mem_of_mem_take ha)
  · exact exists_threadPush (t := 0) Nat.one_pos searchDevice_pushes

/-- two candidates of one walk are pushed, and their scalars differ by a multiple of 8 -/
theorem two_keys_per_epoch :
    let cfg : EngineConfig := ⟨letterPatterns, 4, 4, by decide, by decide⟩
    let h := constHost 0
    let q := pushes (IncrementalCpuEngine.worker h cfg 2)
    ¬ FreshKeys (fun _ => h) 4 (q.map fun p => (0, p)) ∧
      ∃ x ∈ q, ∃ y ∈ q, x.draw = y.draw ∧ x.index < y.index ∧
        y.cand.secret.scalar.toNat = x.cand.secret.scalar.toNat + 8 * (y.index - x.index) ∧
        Linked 4 (keyPoint x) (keyPoint y) := by
  intro cfg h q
  have he : (0, 1) ∈ epochs (IncrementalCpuEngine.worker h cfg 2) := first_epoch 1
  have hn : cfg.completed 1 * cfg.batch = 4 := by decide
  -- every candidate with a public key is pushed
  have hpush : ∀ i < 4, (2^254 + 8 * i) • basePoint ≠ 0 → ∃ x ∈ q, x.draw = 0 ∧ x.index = i ∧
      x.cand.secret.scalar.toNat = 2^254 + 8 * i := by
    intro i hi hne
    have hk : h.baseNoclamp (scalarAdd8i (baseScalar h 0) i) = some _ := key_of_zero (by omega) hne
    obtain ⟨p, hm⟩ := letter_matched hk
    have hx : ⟨0, i, scalarAdd8i (baseScalar h 0) i, _, p⟩ ∈
        hits (IncrementalCpuEngine.worker h cfg 2) := (mem_worker_hits laneWalks).mpr
      ⟨(0, 1), he, ⟨le_rfl, Nat.one_pos⟩, hn.symm ▸ hi, rfl, hm⟩
    rw [← pushes_hit] at hx
    obtain ⟨x, hx, e⟩ := List.mem_map.mp hx
    have hs : x.cand.secret.scalar = scalarAdd8i (baseScalar h 0) i := congrArg Hit.scalar e
    refine ⟨x, hx, congrArg Hit.draw e, congrArg Hit.index e, ?_⟩
    rw [hs, scalarAdd8i_toNat, baseScalar_zero]
    omega
  have hpair : ∀ i < 3, ∃ j, i ≤ j ∧ j ≤ i + 1 ∧ (2^254 + 8 * j) • basePoint ≠ 0 := by
    intro i _
    rcases neighbour_ne_zero (2^254 + 8 * i) with hne | hne
    · exact ⟨i, le_rfl, Nat.le_succ i, hne⟩
    · exact ⟨i + 1, Nat.le_succ i, le_rfl, by rwa [Nat.mul_succ, ← Nat.add_assoc]⟩
  obtain ⟨i, hi0, hi1, hi⟩ := hpair 0 (by decide)
  obtain ⟨j, hj2, hj3, hj⟩ := hpair 2 (by decide)
  obtain ⟨x, hx, hdx, hix, hsx⟩ := hpush i (by omega) hi
  obtain ⟨y, hy, hdy, hiy, hsy⟩ := hpush j (by omega) hj
  have hlinked : Linked 4 (keyPoint x) (keyPoint y) := by
    rw [keyPoint, keyPoint, linked_iff, publicScalar, publicScalar, hsx, hsy]
    refine ⟨j - i, by omega, Or.inl ?_⟩
    rw [show (2^254 + 8 * j) % 2^255 = (2^254 + 8 * i) % 2^255 + 8 * (j - i) by omega]
  refine ⟨fun hfresh => ?_, x, hx, y, hy, hdx.trans hdy.symm, by omega, by omega, hlinked⟩
  have hn := hfresh.bases
  rw [List.map_map] at hn
  have hxy := List.inj_on_of_nodup_map hn hx hy
    (show baseScalar h x.draw = baseScalar h y.draw by rw [hdx, hdy])
  rw [hxy] at hix
  omega

end Onion
