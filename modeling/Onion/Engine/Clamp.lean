import Onion.Engine.Epochs
import Onion.Engine.Found

/-!
# Which pushed scalars are clamped

The increment `8*i` keeps the low three bits, but it can carry into bit 255.

* `clamped_scalar`   when the scalar of a candidate is clamped;
* `keys_clamped`     the engines push clamped scalars exactly when no pushed candidate carries.
-/

namespace Onion
open Logged

/-- every pushed scalar is in clamped form -/
def ClampedKeys (q : List (Nat × Push)) : Prop := ∀ x ∈ q, Clamped x.2.cand.secret.scalar

/-- candidate `i` of the walk from draw `draw` stays below `2^255` -/
def NoCarry (h : Host) (draw i : Nat) : Prop := (baseScalar h draw).toNat + 8 * i % 2^64 < 2^255

/-- in the epoch `e`, no match among the completed candidates carries -/
def GuardedMatches (h : Host) (cfg : EngineConfig) (lanes : Nat) (e : Nat × Nat) : Prop :=
  ∀ draw, e.1 ≤ draw → draw < e.1 + lanes → ∀ i < cfg.completed e.2 * cfg.batch,
    (∃ p pk, Matched h cfg.patterns draw i p pk) → NoCarry h draw i

/-- in the launch `d`, no recorded match with a public key carries -/
def GuardedHits (h : Host) (cfg : CudaConfig) (dev : Device cfg.threads cfg.kStepsPerThread)
    (d : Nat × Nat) : Prop :=
  ∀ a ∈ (CudaEngine.launchMatches h cfg dev d).take kMaxHitSlots,
    (CudaEngine.slotHit h cfg d.1 a).isSome → NoCarry h d.1 (CudaEngine.hitIndex cfg.threads a)

theorem clamped_scalar (h : Host) (draw i : Nat) :
    Clamped (scalarAdd8i (baseScalar h draw) i) ↔ NoCarry h draw i := by
  obtain ⟨h8, hlo, hhi⟩ := clamp_toNat (h.rand draw)
  rw [clamped_iff, scalarAdd8i_toNat, NoCarry, baseScalar, Nat.mul_comm i]
  have hmod : 8 ∣ 8 * i % 2^64 := (Nat.dvd_mod_iff (by decide)).mpr (Nat.dvd_mul_right 8 i)
  have hlt : 8 * i % 2^64 < 2^64 := Nat.mod_lt _ (Nat.two_pow_pos 64)
  generalize 8 * i % 2^64 = c at hmod hlt
  have hsmall : ((clamp (h.rand draw)).toNat + c) % 2^256 = (clamp (h.rand draw)).toNat + c :=
    Nat.mod_eq_of_lt (by omega)
  rw [hsmall]
  constructor
  · exact fun h => h.2.2
  · exact fun h => ⟨Nat.dvd_add h8 hmod, hlo.trans (Nat.le_add_right _ _), h⟩

section
variable {lanes : Nat} {S O : Type} {ops : LaneOps lanes S O} (wk : Walks ops) {h : Host}
  {cfg : EngineConfig} {polls : Nat}

theorem pushes_scalars {α : Type} (x : Worker α) (P : Bytes 32 → Prop) :
    (∀ p ∈ pushes x, P p.cand.secret.scalar) ↔ ∀ y ∈ hits x, P y.scalar := by
  rw [← pushes_hit, List.forall_mem_map]
  rfl

include wk in
theorem worker_clamped :
    (∀ p ∈ pushes (worker ops h cfg polls), Clamped p.cand.secret.scalar) ↔
      ∀ e ∈ epochs (worker ops h cfg polls), GuardedMatches h cfg lanes e := by
  rw [pushes_scalars]
  constructor
  · rintro hall e he draw hlo hhi i hi ⟨p, pk, hm⟩
    rw [← clamped_scalar]
    exact hall ⟨draw, i, scalarAdd8i (baseScalar h draw) i, pk, p⟩
      ((mem_worker_hits wk).mpr ⟨e, he, ⟨hlo, hhi⟩, hi, rfl, hm⟩)
  · intro hguard x hx
    obtain ⟨e, he, hd, hi, hs, hm⟩ := (mem_worker_hits wk).mp hx
    rw [hs, clamped_scalar]
    exact hguard e he x.draw hd.1 hd.2 x.index hi ⟨_, _, hm⟩

end

section
variable {h : Host} {cfg : CudaConfig} {dev : Device cfg.threads cfg.kStepsPerThread}
  {depth : Nat} [NeZero depth] (hne : ∀ c : Fin depth, c ≠ c + 1) {s : CudaState depth}

include hne in
theorem run_clamped :
    (∀ p ∈ pushes (CudaEngine.run h cfg dev s), Clamped p.cand.secret.scalar) ↔
      ∀ d ∈ harvests (CudaEngine.run h cfg dev s), GuardedHits h cfg dev d := by
  rw [pushes_scalars]
  constructor
  · intro hall d hd a ha hk
    obtain ⟨x, hx⟩ := Option.isSome_iff_exists.mp hk
    have hc := hall x ((CudaEngine.mem_run_hits hne).mpr
      ⟨d, hd, CudaEngine.mem_launchHits.mpr ⟨a, ha, hx⟩⟩)
    obtain ⟨-, hi, hs, -⟩ := CudaEngine.slotHit_eq_some.mp hx
    rwa [hs, hi, clamped_scalar] at hc
  · intro hguard x hx
    obtain ⟨d, hd, hx⟩ := (CudaEngine.mem_run_hits hne).mp hx
    obtain ⟨a, ha, hax⟩ := CudaEngine.mem_launchHits.mp hx
    obtain ⟨-, hi, hs, -⟩ := CudaEngine.slotHit_eq_some.mp hax
    rw [hs, hi, clamped_scalar]
    exact hguard d hd a ha (by rw [hax]; rfl)

end

theorem forall_push {n : Nat} {thread : Nat → List Push} {q : List (Nat × Push)}
    (hq : Interleaving n thread q) (P : Push → Prop) :
    (∀ x ∈ q, P x.2) ↔ ∀ t < n, ∀ p ∈ thread t, P p := by
  constructor
  · exact fun h t ht p hp => h (t, p) (hq.mem_iff.mpr (mem_threadPushes.mpr ⟨ht, hp⟩))
  · intro h x hx
    obtain ⟨ht, hp⟩ := mem_threadPushes.mp (hq.mem_iff.mp hx)
    exact h x.1 ht x.2 hp

/-- **Which pushed scalars are clamped.**  In every run of the three engines, with any interleaving
of the threads, the pushed scalars are clamped exactly when no pushed candidate carries its base
scalar past `2^255`. -/
theorem keys_clamped (n : Nat) (h : Nat → Host) (polls : Nat → Nat) (cfg : EngineConfig)
    (gpu : CudaConfig) (dev : Device gpu.threads gpu.kStepsPerThread)
    (s : CudaState kPipelineDepth) :
    (∀ q, Interleaving n (fun t => pushes (IncrementalCpuEngine.worker (h t) cfg (polls t))) q →
      (ClampedKeys q ↔ ∀ t < n, ∀ e ∈ epochs (IncrementalCpuEngine.worker (h t) cfg (polls t)),
        GuardedMatches (h t) cfg 1 e)) ∧
    (∀ q, Interleaving n (fun t => pushes (IncrementalCpuEngineX4.worker (h t) cfg (polls t))) q →
      (ClampedKeys q ↔ ∀ t < n, ∀ e ∈ epochs (IncrementalCpuEngineX4.worker (h t) cfg (polls t)),
        GuardedMatches (h t) cfg 4 e)) ∧
    (∀ q, Interleaving 1 (fun t => pushes (CudaEngine.run (h t) gpu dev s)) q →
      (ClampedKeys q ↔ ∀ t < 1, ∀ d ∈ harvests (CudaEngine.run (h t) gpu dev s),
        GuardedHits (h t) gpu dev d)) := by
  refine ⟨fun q hq => ?_, fun q hq => ?_, fun q hq => ?_⟩
  · rw [ClampedKeys, forall_push hq fun p => Clamped p.cand.secret.scalar]
    exact forall₂_congr fun t _ => worker_clamped laneWalks
  · rw [ClampedKeys, forall_push hq fun p => Clamped p.cand.secret.scalar]
    exact forall₂_congr fun t _ => worker_clamped laneWalksX4
  · rw [ClampedKeys, forall_push hq fun p => Clamped p.cand.secret.scalar]
    exact forall₂_congr fun t _ => run_clamped kPipelineDepth_ne

def letterGpu : CudaConfig := { searchGpu with patterns := letterPatterns.take 16 }

/-- on a device that shows zeros, the first launch finds the first letter -/
theorem letterGpu_pushes : ∃ p rest, pushes (CudaEngine.run (spacedHost 0) letterGpu
    (zeroDevice 2 2) (startCuda 9)) = p :: rest := by
  have hfirst : firstHit (letterPatterns.take 16) (fun _ _ => Bytes.ofNat 32 0) (0, 0) =
      some ⟨0, 0, 0⟩ := by decide
  have hm : ∀ d, (⟨0, 0, 0⟩ : HitSlot) ∈
      CudaEngine.launchMatches (spacedHost 0) letterGpu (zeroDevice 2 2) d := fun d =>
    List.mem_filterMap.mpr ⟨(0, 0), (by decide : (0, 0) ∈ candidates 2 2), hfirst⟩
  have hfew : ∀ d, (CudaEngine.launchMatches (spacedHost 0) letterGpu (zeroDevice 2 2) d).length ≤
      kMaxHitSlots := fun d =>
    (List.length_filterMap_le _ _).trans (by decide : (candidates 2 2).length ≤ kMaxHitSlots)
  have hd : (0, 23) ∈ harvests (CudaEngine.run (spacedHost 0) letterGpu (zeroDevice 2 2)
      (startCuda 9)) :=
    CudaEngine.run_harvests_first kPipelineDepth_ne (fun _ => rfl) (by decide) (by decide)
      (by decide) (by decide) (by decide) (List.ne_nil_of_mem (hm _))
  have hk : (spacedHost 0).baseNoclamp (scalarAdd8i (baseScalar (spacedHost 0) 0) 0) = some _ :=
    spaced_key Nat.two_pos (by decide)
  have hx : CudaEngine.slotHit (spacedHost 0) letterGpu 0 ⟨0, 0, 0⟩ =
      some ⟨0, 0, scalarAdd8i (baseScalar (spacedHost 0) 0) 0, _, 0⟩ :=
    CudaEngine.slotHit_eq_some.mpr ⟨rfl, rfl, rfl, rfl, hk⟩
  refine pushes_of_mem ((CudaEngine.mem_run_hits kPipelineDepth_ne).mpr
    ⟨(0, 23), hd, CudaEngine.mem_launchHits.mpr ⟨⟨0, 0, 0⟩, ?_, hx⟩⟩)
  rw [List.take_of_length_le (hfew _)]
  exact hm _

/-- walks far from the carry, on two threads and on a GPU that pushes -/
theorem keys_clamped_spaced :
    let q1 := threadPushes 2 fun t =>
      pushes (IncrementalCpuEngine.worker (spacedHost t) searchConfig 5)
    let q4 := threadPushes 2 fun t =>
      pushes (IncrementalCpuEngineX4.worker (spacedHost t) searchConfig 5)
    let qg := threadPushes 1 fun t =>
      pushes (CudaEngine.run (spacedHost t) letterGpu (zeroDevice 2 2) (startCuda 9))
    (ClampedKeys q1 ∧ ∃ x, (1, x) ∈ q1) ∧ (ClampedKeys q4 ∧ ∃ x, (1, x) ∈ q4) ∧
      ClampedKeys qg ∧ ∃ x, (0, x) ∈ qg := by
  intro q1 q4 qg
  obtain ⟨h1, h4, hgpu⟩ := keys_clamped 2 spacedHost (fun _ => 5) searchConfig letterGpu
    (zeroDevice 2 2) (startCuda 9)
  have hlow : ∀ t < 2, ∀ draw i, i < 2^61 → NoCarry (spacedHost t) draw i := by
    intro t ht draw i hi
    have hlt : (baseScalar (spacedHost t) draw).toNat + 8 * i < 2^255 := spaced_range ht hi
    rw [NoCarry]
    omega
  have hlen : ∀ e : Nat × Nat, searchConfig.completed e.2 * searchConfig.batch < 2^61 := fun e =>
    (searchConfig.completed_le e.2).trans_lt (by decide)
  refine ⟨⟨(h1 _ (List.Perm.refl _)).mpr fun t ht e _ draw _ _ i hi _ =>
      hlow t ht draw i (hi.trans (hlen e)), ?_⟩,
    ⟨(h4 _ (List.Perm.refl _)).mpr fun t ht e _ draw _ _ i hi _ =>
      hlow t ht draw i (hi.trans (hlen e)), ?_⟩,
    (hgpu _ (List.Perm.refl _)).mpr fun t ht d _ a ha _ => ?_, ?_⟩
  · exact exists_threadPush (t := 1) Nat.one_lt_two
      (spaced_worker_pushes laneWalks (by decide) rfl Nat.one_lt_two (by decide))
  · exact exists_threadPush (t := 1) Nat.one_lt_two
      (spaced_worker_pushes laneWalksX4 (by decide) rfl Nat.one_lt_two (by decide))
  · obtain ⟨hat, haj⟩ := CudaEngine.launchMatches_lt (List.mem_of_mem_take ha)
    have hat : a.t < 2 := hat
    have haj : a.j < 2 := haj
    refine hlow t (ht.trans Nat.one_lt_two) d.1 _ ?_
    rw [CudaEngine.hitIndex]
    show (a.t + a.j * 2) % 2^64 < 2^61
    omega
  · exact exists_threadPush (t := 0) Nat.one_pos letterGpu_pushes

/-- a walk from `2^255 - 8` pushes the scalar `2^255 + 8` -/
theorem scalar_past_clamp :
    let cfg : EngineConfig := ⟨letterPatterns, 4, 4, by decide, by decide⟩
    let h := constHost 0xff
    let q := pushes (IncrementalCpuEngine.worker h cfg 2)
    ∃ x ∈ q, x.cand.secret.scalar.toNat = 2^255 + 8 ∧ ¬ Clamped x.cand.secret.scalar ∧
      ¬ ClampedKeys (q.map fun p => (0, p)) := by
  intro cfg h q
  have he : (0, 1) ∈ epochs (IncrementalCpuEngine.worker h cfg 2) := first_epoch 1
  have hi : 2 < cfg.completed 1 * cfg.batch := by decide
  have ha0 : (baseScalar h 0).toNat = 2^255 - 8 :=
    (by decide : (clamp (Bytes.ofList (n := 32) (List.replicate 32 0xff)
      List.length_replicate)).toNat = 2^255 - 8)
  have hs : (scalarAdd8i (baseScalar h 0) 2).toNat = 2^255 + 8 := by
    rw [scalarAdd8i_toNat, ha0]
    norm_num
  have hk : h.baseNoclamp (scalarAdd8i (baseScalar h 0) 2) = some (encodePoint (8 • basePoint)) := by
    have hmod : (2^255 + 8) % 2^255 = 8 := by norm_num
    show rfcBase _ = _
    rw [rfcBase, hs, hmod, if_neg eight_smul_basePoint]
  obtain ⟨p, hm⟩ := letter_matched hk
  have hx : ⟨0, 2, scalarAdd8i (baseScalar h 0) 2, _, p⟩ ∈
      hits (IncrementalCpuEngine.worker h cfg 2) := (mem_worker_hits laneWalks).mpr
    ⟨(0, 1), he, ⟨le_rfl, Nat.one_pos⟩, hi, rfl, hm⟩
  rw [← pushes_hit] at hx
  obtain ⟨x, hx, e⟩ := List.mem_map.mp hx
  have hscalar : x.cand.secret.scalar = scalarAdd8i (baseScalar h 0) 2 := congrArg Hit.scalar e
  have hnot : ¬ Clamped x.cand.secret.scalar := by
    rw [hscalar, clamped_iff, hs]
    omega
  exact ⟨x, hx, hscalar ▸ hs, hnot, fun hall => hnot (hall (0, x) (List.mem_map_of_mem hx))⟩

end Onion
