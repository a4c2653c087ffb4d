import Onion.Device.KernelWalk

/-!
# What a launch sees, and what a run makes of it

The host only gets what the threads of a launch compare; whether that is the true `y` of the
candidates depends on the field that they compute in.

* `seenPattern`    the first pattern that the device finds for a candidate of a launch;
* `firstPattern`   the first pattern that its true `y` matches;
* `stride_perm`    the candidates of a launch are the indices below `T*M`;
* `run_sound`, `run_complete`   what a run pushes, and what it does not lose;
* `run_clean`      both, for the candidates that the device finds right.
-/

namespace Onion
open Logged

/-- the first pattern that candidate `i` of the walk from draw `draw` matches -/
def firstPattern (h : Host) (patterns : List CompiledPattern) (draw i : Nat) : Option Nat :=
  patterns.findIdx? fun pat => matchesPubkey pat (walkY h draw i)

/-- the first pattern that the device finds for candidate `i = t + j*T` -/
def seenPattern (h : Host) (cfg : CudaConfig) (dev : Device cfg.threads cfg.kStepsPerThread)
    (draw i : Nat) : Option Nat :=
  let pts := (CudaEngine.startPoints cfg (baseScalar h draw)).val
  cfg.patterns.findIdx? fun pat =>
    matchesPubkey pat (dev.y pts.1 pts.2 (i % cfg.threads) (i / cfg.threads))

/-- the device finds what the candidates match -/
def SeesTrue (h : Host) (cfg : CudaConfig) (dev : Device cfg.threads cfg.kStepsPerThread) : Prop :=
  ∀ draw, ∀ i < cfg.threads * cfg.kStepsPerThread,
    seenPattern h cfg dev draw i = firstPattern h cfg.patterns draw i

/-! ## the candidates of a launch -/

theorem stride_perm (T M : Nat) :
    ((candidates T M).map fun c => c.1 + c.2 * T).Perm (List.range (T * M)) := by
  rcases Nat.eq_zero_or_pos T with rfl | hT
  · rw [Nat.zero_mul]
    exact List.Perm.refl _
  have hbij := stride_bijOn T M hT
  refine (List.perm_ext_iff_of_nodup ?_ List.nodup_range).mpr fun i => ?_
  · refine (CudaEngine.candidates_nodup T M).map_on fun c hc c' hc' e => ?_
    exact hbij.injOn (CudaEngine.mem_candidates.mp hc) (CudaEngine.mem_candidates.mp hc') e
  · rw [List.mem_map, List.mem_range]
    constructor
    · rintro ⟨c, hc, rfl⟩
      exact hbij.mapsTo (CudaEngine.mem_candidates.mp hc)
    · intro hi
      obtain ⟨c, hc, rfl⟩ := hbij.surjOn (show i ∈ {i | i < T * M} from hi)
      exact ⟨c, CudaEngine.mem_candidates.mpr hc, rfl⟩

namespace CudaEngine
variable {h : Host} {cfg : CudaConfig} {dev : Device cfg.threads cfg.kStepsPerThread}

theorem hitIndex_eq {t j p : Nat} (ht : t < cfg.threads) (hj : j < cfg.kStepsPerThread) :
    hitIndex cfg.threads ⟨t, j, p⟩ = t + j * cfg.threads := by
  have hT := cfg.threads_lt
  have hM := cfg.steps_lt
  have hmul : j * cfg.threads ≤ 2^31 * 2^31 := Nat.mul_le_mul (hj.trans hM).le hT.le
  exact Nat.mod_eq_of_lt (show t + j * cfg.threads < 2^64 by omega)

theorem firstHit_eq {draw t j : Nat} (ht : t < cfg.threads) :
    let pts := (startPoints cfg (baseScalar h draw)).val
    firstHit cfg.patterns (dev.y pts.1 pts.2) (t, j) =
      (seenPattern h cfg dev draw (t + j * cfg.threads)).map fun p => ⟨t, j, p⟩ := by
  have hmod : (t + j * cfg.threads) % cfg.threads = t := by
    rw [Nat.add_mul_mod_self_right, Nat.mod_eq_of_lt ht]
  have hdiv : (t + j * cfg.threads) / cfg.threads = j := by
    rw [Nat.add_mul_div_right _ _ ((Nat.zero_le _).trans_lt ht), Nat.div_eq_of_lt ht, Nat.zero_add]
  intro pts
  rw [seenPattern, hmod, hdiv]
  rfl

theorem launchMatches_count (d : Nat × Nat) : (launchMatches h cfg dev d).length =
    (List.range (cfg.threads * cfg.kStepsPerThread)).countP fun i =>
      (seenPattern h cfg dev d.1 i).isSome := by
  rw [launchMatches, matched, List.length_filterMap_eq_countP, (dev.order_perm d.2).countP_eq,
    ← (stride_perm _ _).countP_eq, List.countP_map]
  refine List.countP_congr fun c hc => ?_
  rw [show c = (c.1, c.2) from rfl, firstHit_eq (mem_candidates.mp hc).1, Option.isSome_map]
  rfl

theorem mem_launchMatches {d : Nat × Nat} {hit : HitSlot} :
    hit ∈ launchMatches h cfg dev d ↔ hit.t < cfg.threads ∧ hit.j < cfg.kStepsPerThread ∧
      seenPattern h cfg dev d.1 (hit.t + hit.j * cfg.threads) = some hit.patternIndex := by
  rw [launchMatches, matched, List.mem_filterMap]
  constructor
  · rintro ⟨⟨t, j⟩, hc, hf⟩
    obtain ⟨ht, hj⟩ := mem_candidates.mp ((dev.order_perm d.2).mem_iff.mp hc)
    rw [firstHit_eq ht, Option.map_eq_some_iff] at hf
    obtain ⟨p, hp, rfl⟩ := hf
    exact ⟨ht, hj, hp⟩
  · rintro ⟨ht, hj, hp⟩
    refine ⟨(hit.t, hit.j), (dev.order_perm d.2).mem_iff.mpr (mem_candidates.mpr ⟨ht, hj⟩), ?_⟩
    rw [firstHit_eq ht, hp]
    rfl

variable {depth : Nat} [NeZero depth] (hne : ∀ c : Fin depth, c ≠ c + 1) (s : CudaState depth)
include hne

/-- a run pushes what its launches see -/
theorem run_sound {x : Hit} (hx : x ∈ hits (run h cfg dev s)) :
    (∃ d ∈ harvests (run h cfg dev s), x.draw = d.1) ∧
      x.index < cfg.threads * cfg.kStepsPerThread ∧
      seenPattern h cfg dev x.draw x.index = some x.pattern ∧
      x.scalar = scalarAdd8i (baseScalar h x.draw) x.index ∧
      h.baseNoclamp x.scalar = some x.pubkey := by
  obtain ⟨d, hd, hx⟩ := (mem_run_hits hne).mp hx
  obtain ⟨hit, hmem, hs⟩ := mem_launchHits.mp hx
  obtain ⟨hdraw, hi, hscalar, hp, hk⟩ := slotHit_eq_some.mp hs
  obtain ⟨ht, hj, hseen⟩ := mem_launchMatches.mp (List.mem_of_mem_take hmem)
  rw [← hitIndex_eq ht hj (p := hit.patternIndex), ← hi, ← hdraw, ← hp] at hseen
  rw [← hdraw] at hscalar
  have hT : 1 ≤ cfg.threads := (Nat.zero_le _).trans_lt ht
  have hlt := (stride_bijOn _ _ hT).mapsTo (show (hit.t, hit.j) ∈ {c : Nat × Nat | _} from ⟨ht, hj⟩)
  rw [hi, hitIndex_eq ht hj]
  rw [hi, hitIndex_eq ht hj] at hseen hscalar
  exact ⟨⟨d, hd, hdraw⟩, hlt, hseen, hscalar, hk⟩

/-- nothing is lost in a harvested launch that sees no more matches than there are slots -/
theorem run_complete {d : Nat × Nat} (hd : d ∈ harvests (run h cfg dev s))
    (hfew : ((List.range (cfg.threads * cfg.kStepsPerThread)).countP fun i =>
      (seenPattern h cfg dev d.1 i).isSome) ≤ kMaxHitSlots) {i p : Nat} {pk : Bytes 32}
    (hi : i < cfg.threads * cfg.kStepsPerThread)
    (hp : seenPattern h cfg dev d.1 i = some p)
    (hk : h.baseNoclamp (scalarAdd8i (baseScalar h d.1) i) = some pk) :
    (⟨d.1, i, scalarAdd8i (baseScalar h d.1) i, pk, p⟩ : Hit) ∈ hits (run h cfg dev s) := by
  have hT : 1 ≤ cfg.threads := Nat.pos_of_mul_pos_right ((Nat.zero_le i).trans_lt hi)
  obtain ⟨⟨t, j⟩, ⟨ht, hj⟩, rfl⟩ := (stride_bijOn _ _ hT).surjOn (show i ∈ {i | _} from hi)
  have hmem : (⟨t, j, p⟩ : HitSlot) ∈ launchMatches h cfg dev d :=
    mem_launchMatches.mpr ⟨ht, hj, hp⟩
  rw [← launchMatches_count] at hfew
  refine (mem_run_hits hne).mpr ⟨d, hd, mem_launchHits.mpr ⟨⟨t, j, p⟩, ?_, ?_⟩⟩
  · rwa [List.take_of_length_le hfew]
  · rw [slotHit_eq_some]
    refine ⟨rfl, (hitIndex_eq ht hj).symm, rfl, rfl, hk⟩

/-- the same, for the candidates that the device finds right -/
theorem run_clean (clean : Nat → Nat → Bool)
    (hclean : ∀ draw, ∀ i < cfg.threads * cfg.kStepsPerThread, clean draw i = true →
      seenPattern h cfg dev draw i = firstPattern h cfg.patterns draw i) :
    let r := run h cfg dev s
    let size := cfg.threads * cfg.kStepsPerThread
    let first := firstPattern h cfg.patterns
    let scalar := fun draw i => scalarAdd8i (baseScalar h draw) i
    (∀ x ∈ hits r, (∃ d ∈ harvests r, x.draw = d.1) ∧ x.index < size ∧
      x.scalar = scalar x.draw x.index ∧ h.baseNoclamp x.scalar = some x.pubkey ∧
      (clean x.draw x.index = true → first x.draw x.index = some x.pattern)) ∧
    ∀ d ∈ harvests r,
      (List.range size).countP (fun i => (first d.1 i).isSome || !clean d.1 i) ≤ kMaxHitSlots →
      ∀ i < size, clean d.1 i = true → ∀ p pk, first d.1 i = some p →
        h.baseNoclamp (scalar d.1 i) = some pk → ⟨d.1, i, scalar d.1 i, pk, p⟩ ∈ hits r := by
  intro r size first scalar
  constructor
  · intro x hx
    obtain ⟨hd, hi, hseen, hscalar, hk⟩ := run_sound hne s hx
    exact ⟨hd, hi, hscalar, hk, fun hc => (hclean _ _ hi hc).symm.trans hseen⟩
  · intro d hd hfew i hi hc p pk hp hk
    have hcount : (List.range size).countP (fun i => (seenPattern h cfg dev d.1 i).isSome) ≤
        (List.range size).countP fun i => (first d.1 i).isSome || !clean d.1 i := by
      refine List.countP_mono_left fun k hk hseen => ?_
      by_cases hck : clean d.1 k = true
      · rw [← show first d.1 k = _ from (hclean d.1 k (List.mem_range.mp hk) hck).symm] at hseen
        rw [hseen, Bool.true_or]
      · rw [Bool.eq_false_of_not_eq_true hck, Bool.not_false, Bool.or_true]
    exact run_complete hne s hd (hcount.trans hfew) hi ((hclean _ _ hi hc).trans hp) hk

end CudaEngine

end Onion
