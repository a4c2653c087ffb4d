import Onion.Device.Select
import Onion.Engine.Found

/-!
# The fast engines against the plain one

The four-lane engine and the GPU are to find what `IncrementalCpuEngine` finds on the same base
scalars.

* `scalarEpoch`       an epoch of the plain engine, from a given draw;
* `walks`             the walks that a worker of any number of lanes begins;
* `worker_agrees`     such a worker finds what the plain engine finds on each of its walks;
* `CudaEngine.run_agrees`   a GPU run finds the first pattern of each candidate that the plain engine
                            finds, and everything when the prefixes do not extend each other.
-/

namespace Onion
open Logged

/-- an epoch of the plain engine that takes its base scalar from draw `draw` -/
def scalarEpoch (h : Host) (cfg : EngineConfig) (draw polls : Nat) :
    Worker (WorkerState (List (Bytes 32))) :=
  IncrementalCpuEngine.epoch h cfg ⟨laneOps.sized cfg.batch, draw, polls, 0, 0⟩

/-- the walks of a run: the draw of the base scalar, and the polls to go -/
def walks {α : Type} (lanes : Nat) (r : Worker α) : List (Nat × Nat) :=
  (epochs r).flatMap fun e => (List.range lanes).map fun l => (e.1 + l, e.2)

theorem mem_walks {α : Type} {lanes : Nat} {r : Worker α} {w : Nat × Nat} :
    w ∈ walks lanes r ↔ ∃ e ∈ epochs r, (e.1 ≤ w.1 ∧ w.1 < e.1 + lanes) ∧ e.2 = w.2 := by
  rw [walks, List.mem_flatMap]
  refine exists_congr fun e => and_congr_right fun _ => ?_
  rw [List.mem_map]
  constructor
  · rintro ⟨l, hl, rfl⟩
    have hl := List.mem_range.mp hl
    exact ⟨by dsimp only; omega, rfl⟩
  · rintro ⟨hw, he⟩
    refine ⟨w.1 - e.1, List.mem_range.mpr (by omega), Prod.ext ?_ he⟩
    show e.1 + (w.1 - e.1) = w.1
    omega

/-! ## the plain engine -/

section
variable {h : Host} {cfg : EngineConfig}

theorem scalarEpoch_hits (draw polls : Nat) :
    hits (scalarEpoch h cfg draw polls) = epochHits h cfg 1 draw (cfg.completed polls) :=
  epoch_hits laneWalks (s := ⟨laneOps.sized cfg.batch, draw, polls, 0, 0⟩)
    ⟨laneWalks.sized cfg.batch, rfl, Nat.two_pow_pos 64⟩

theorem mem_scalarEpoch {draw polls : Nat} {x : Hit} : x ∈ hits (scalarEpoch h cfg draw polls) ↔
    x.draw = draw ∧ x.index < cfg.completed polls * cfg.batch ∧
      x.scalar = scalarAdd8i (baseScalar h x.draw) x.index ∧
      Matched h cfg.patterns x.draw x.index x.pattern x.pubkey := by
  have hn := (cfg.completed_le polls).trans cfg.epoch_lt.le
  rw [scalarEpoch_hits, mem_epochHits hn]
  exact and_congr_left' ⟨fun hd => by omega, fun hd => by omega⟩

/-- what epochs from different draws find is different -/
theorem scalarEpochs_nodup {ws : List (Nat × Nat)} (hws : (ws.map Prod.fst).Nodup) :
    (ws.flatMap fun w => hits (scalarEpoch h cfg w.1 w.2)).Nodup := by
  refine List.nodup_flatMap.mpr ⟨fun w _ => ?_, (List.pairwise_map.mp hws).imp fun {w w'} hne => ?_⟩
  · rw [scalarEpoch_hits]
    exact epochHits_nodup ((cfg.completed_le w.2).trans cfg.epoch_lt.le)
  · refine List.disjoint_left.mpr fun x hx hx' => hne ?_
    exact (mem_scalarEpoch.mp hx).1.symm.trans (mem_scalarEpoch.mp hx').1

end

/-! ## more lanes -/

section
variable {lanes : Nat} {S O : Type} {ops : LaneOps lanes S O} (wk : Walks ops) (h : Host)
  (cfg : EngineConfig) (polls : Nat)
include wk

theorem walks_nodup : ((walks lanes (worker ops h cfg polls)).map Prod.fst).Nodup := by
  obtain ⟨-, hpw, -⟩ := epochLoop_run (h := h) wk polls (initial_settled wk cfg polls)
  rw [walks, List.map_flatMap]
  refine List.nodup_flatMap.mpr ⟨fun e _ => ?_, hpw.imp fun {e e'} hle => ?_⟩
  · rw [List.map_map]
    exact List.nodup_range.map fun l l' heq => Nat.add_left_cancel heq
  · rw [Function.onFun, List.disjoint_left, List.map_map, List.map_map]
    rintro d hd hd'
    obtain ⟨l, hl, rfl⟩ := List.mem_map.mp hd
    obtain ⟨l', -, heq⟩ := List.mem_map.mp hd'
    have hl := List.mem_range.mp hl
    have heq : e'.1 + l' = e.1 + l := heq
    omega

/-- whatever the number of lanes, a run finds what the plain engine finds on its walks -/
theorem worker_agrees : (hits (worker ops h cfg polls)).Perm
    ((walks lanes (worker ops h cfg polls)).flatMap fun w => hits (scalarEpoch h cfg w.1 w.2)) := by
  refine (List.perm_ext_iff_of_nodup (worker_hits_nodup wk polls)
    (scalarEpochs_nodup (walks_nodup wk h cfg polls))).mpr fun x => ?_
  rw [mem_worker_hits wk, List.mem_flatMap]
  constructor
  · rintro ⟨e, he, hd, hi, hs, hm⟩
    exact ⟨(x.draw, e.2), mem_walks.mpr ⟨e, he, hd, rfl⟩, mem_scalarEpoch.mpr ⟨rfl, hi, hs, hm⟩⟩
  · rintro ⟨w, hw, hx⟩
    obtain ⟨e, he, hd, hp⟩ := mem_walks.mp hw
    obtain ⟨hdraw, hi, hs, hm⟩ := mem_scalarEpoch.mp hx
    rw [← hdraw] at hd
    rw [← hp] at hi
    exact ⟨e, he, hd, hi, hs, hm⟩

end

/-- **Four lanes are four walks.**  A run of a worker of the four-lane engine pushes, up to their
order, the candidates that the plain engine pushes in epochs from the same draws, for as many polls. -/
theorem IncrementalCpuEngineX4.worker_four (h : Host) (cfg : EngineConfig) (polls : Nat) :
    let r := IncrementalCpuEngineX4.worker h cfg polls
    (hits r).Perm ((walks 4 r).flatMap fun w => hits (scalarEpoch h cfg w.1 w.2)) ∧
      ((walks 4 r).map Prod.fst).Nodup :=
  ⟨worker_agrees laneWalksX4 h cfg polls, walks_nodup laneWalksX4 h cfg polls⟩

/-! ## the GPU -/

section
variable {h : Host} {patterns : List CompiledPattern} {draw i p : Nat}

theorem firstPattern_eq_some : firstPattern h patterns draw i = some p ↔
    (∃ pat, patterns[p]? = some pat ∧ matchesPubkey pat (walkY h draw i) = true) ∧
      ∀ q < p, ∀ pat, patterns[q]? = some pat → ¬ matchesPubkey pat (walkY h draw i) = true := by
  rw [firstPattern, List.findIdx?_eq_some_iff_getElem]
  constructor
  · rintro ⟨hp, hm, hbefore⟩
    refine ⟨⟨_, List.getElem?_eq_getElem hp, hm⟩, fun q hq pat hpat => ?_⟩
    obtain ⟨_, rfl⟩ := List.getElem?_eq_some_iff.mp hpat
    exact hbefore q hq
  · rintro ⟨⟨pat, hpat, hm⟩, hbefore⟩
    obtain ⟨hp, rfl⟩ := List.getElem?_eq_some_iff.mp hpat
    exact ⟨hp, hm, fun q hq => hbefore q hq _ (List.getElem?_eq_getElem (hq.trans hp))⟩

theorem Matched.first {prefixes : List (List Char)} (hc : Compiled prefixes patterns)
    (hfree : PrefixFree prefixes) {pk : Bytes 32} (hm : Matched h patterns draw i p pk) :
    firstPattern h patterns draw i = some p := by
  obtain ⟨pat, hpat, hmatch, -⟩ := hm
  refine firstPattern_eq_some.mpr ⟨⟨pat, hpat, hmatch⟩, fun q hq pat' hpat' hmatch' => ?_⟩
  exact hq.ne (hc.unique hfree hpat' hpat hmatch' hmatch)

end

namespace CudaEngine

/-- **The GPU finds what the plain engine finds.**  When every candidate of the harvested launches is
clean and their matches fit in the slots, a run pushes, up to their order, the first match of each
candidate that the plain engine pushes from the same draws, over as many candidates; and all of its
matches when the prefixes do not extend each other. -/
theorem run_agrees (field : FieldBackend) (inv : BatchInversion) (h : Host) (gpu : CudaConfig)
    (ok : Nat → Bool) (order : Nat → List (Nat × Nat))
    (perm : ∀ n, (order n).Perm (candidates gpu.threads gpu.kStepsPerThread))
    (s : CudaState kPipelineDepth) (cfg : EngineConfig) (polls : Nat)
    (hpat : cfg.patterns = gpu.patterns)
    (hsize : cfg.completed polls * cfg.batch = gpu.threads * gpu.kStepsPerThread)
    (hclean : ∀ d ∈ harvests (run h gpu (field.device inv _ _ ok order perm) s),
      ∀ i < gpu.threads * gpu.kStepsPerThread, field.clean inv h gpu d.1 i = true)
    (hfew : ∀ d ∈ harvests (run h gpu (field.device inv _ _ ok order perm) s),
      ((List.range (gpu.threads * gpu.kStepsPerThread)).countP fun i =>
        (firstPattern h gpu.patterns d.1 i).isSome) ≤ kMaxHitSlots) :
    let r := run h gpu (field.device inv _ _ ok order perm) s
    (hits r).Perm ((harvests r).flatMap fun d => (hits (scalarEpoch h cfg d.1 polls)).filter
      fun x => firstPattern h gpu.patterns x.draw x.index = some x.pattern) ∧
    ∀ prefixes, Compiled prefixes gpu.patterns → PrefixFree prefixes →
      (hits r).Perm ((harvests r).flatMap fun d => hits (scalarEpoch h cfg d.1 polls)) := by
  intro r
  have hdraws : ((harvests r).map fun d => (d.1, polls)).map Prod.fst = (harvests r).map Prod.fst := by
    rw [List.map_map]
    rfl
  have hdrains : ((harvests r).map Prod.fst).Nodup :=
    List.pairwise_map.mpr ((run_hits kPipelineDepth_ne s).2.imp Nat.ne_of_lt)
  have hplain : ((harvests r).flatMap fun d => hits (scalarEpoch h cfg d.1 polls)).Nodup := by
    have hn : (((harvests r).map fun d => (d.1, polls)).flatMap fun w =>
        hits (scalarEpoch h cfg w.1 w.2)).Nodup := scalarEpochs_nodup (hdraws ▸ hdrains)
    rwa [List.flatMap_map] at hn
  have hseen : ∀ d ∈ harvests r, ∀ i < gpu.threads * gpu.kStepsPerThread,
      seenPattern h gpu (field.device inv _ _ ok order perm) d.1 i =
        firstPattern h gpu.patterns d.1 i :=
    fun d hd i hi => field.seen inv ok order perm hi (hclean d hd i hi)
  have hfirst : (hits r).Perm ((harvests r).flatMap fun d =>
      (hits (scalarEpoch h cfg d.1 polls)).filter
        fun x => firstPattern h gpu.patterns x.draw x.index = some x.pattern) := by
    rw [← List.filter_flatMap]
    refine (List.perm_ext_iff_of_nodup (run_hits_nodup kPipelineDepth_ne s).of_map
      (hplain.filter _)).mpr fun x => ?_
    rw [List.mem_filter, List.mem_flatMap, decide_eq_true_iff]
    constructor
    · intro hx
      obtain ⟨⟨d, hd, hdraw⟩, hi, hp, hscalar, hk⟩ := run_sound kPipelineDepth_ne s hx
      rw [hdraw, hseen d hd _ hi, ← hdraw] at hp
      obtain ⟨⟨pat, hpat', hm⟩, -⟩ := firstPattern_eq_some.mp hp
      refine ⟨⟨d, hd, mem_scalarEpoch.mpr ⟨hdraw, hsize ▸ hi, hscalar, pat, ?_, hm, ?_⟩⟩, hp⟩
      · rw [hpat]
        exact hpat'
      · rw [← hscalar]
        exact hk
    · rintro ⟨⟨d, hd, hx⟩, hp⟩
      obtain ⟨hdraw, hi, hscalar, -, -, -, hk⟩ := mem_scalarEpoch.mp hx
      rw [hsize] at hi
      rw [hdraw] at hp hscalar hk
      have hcount : ((List.range (gpu.threads * gpu.kStepsPerThread)).countP fun i =>
          (seenPattern h gpu (field.device inv _ _ ok order perm) d.1 i).isSome) ≤ kMaxHitSlots := by
        refine (List.countP_congr fun i hi => ?_).trans_le (hfew d hd)
        rw [hseen d hd i (List.mem_range.mp hi)]
      have hmem := run_complete kPipelineDepth_ne s hd hcount hi ((hseen d hd _ hi).trans hp) hk
      rwa [show x = ⟨d.1, x.index, _, x.pubkey, x.pattern⟩ from Hit.ext hdraw rfl hscalar rfl rfl]
  refine ⟨hfirst, fun prefixes hc hfree => hfirst.trans ?_⟩
  refine List.Perm.of_eq (List.flatMap_congr fun d _ => List.filter_eq_self.mpr fun x hx => ?_)
  obtain ⟨-, -, -, hm⟩ := mem_scalarEpoch.mp hx
  rw [hpat] at hm
  exact decide_eq_true (hm.first hc hfree)

/-- launches of 128 candidates against four letters, and epochs of two batches of 64 -/
theorem run_agrees_letters :
    let h := constHost 0
    let gpu : CudaConfig := ⟨letterPatterns.take 4, 8, 4, 16, by decide, by decide⟩
    let cfg : EngineConfig := ⟨letterPatterns.take 4, 64, 128, by decide, by decide⟩
    let r := run h gpu (FieldBackend.limbs51.device .fusedCombo 8 16 (fun _ => true)
      (fun _ => candidates 8 16) fun _ => .refl _) (startCuda 9)
    (hits r).Perm ((harvests r).flatMap fun d => (hits (scalarEpoch h cfg d.1 5)).filter
      fun x => firstPattern h gpu.patterns x.draw x.index = some x.pattern) := by
  intro h gpu cfg r
  refine (run_agrees .limbs51 .fusedCombo h gpu (fun _ => true) (fun _ => candidates 8 16)
    (fun _ => .refl _) (startCuda 9) cfg 5 rfl (by decide) (fun _ _ _ _ => rfl) fun d _ => ?_).1
  have hfew := List.countP_le_length (l := List.range 128)
    (p := fun i => (firstPattern h gpu.patterns d.1 i).isSome)
  rw [List.length_range] at hfew
  exact hfew.trans (by decide)

end CudaEngine

end Onion
