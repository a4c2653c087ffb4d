import Onion.Cli.Main
import Onion.Device.Fresh
import Onion.Engine.Naive

/-!
# How often a candidate is pushed

* `PushedOnce`       no candidate is in the queue twice;
* `SinglePattern`    no candidate of an epoch matches two patterns;
* `pushed_once`      the CPU engines push once exactly when the second holds, the GPU engine always
                     does, and then `main` is never in its own way.
-/

namespace Onion
open Logged

/-- the candidate of a push: its thread, its draw, and its index in the walk -/
def candidateOf (x : Nat × Push) : Nat × Nat × Nat := (x.1, x.2.draw, x.2.index)

def PushedOnce (q : List (Nat × Push)) : Prop := (q.map candidateOf).Nodup

/-- distinct candidates have distinct addresses -/
def DistinctAddresses (q : List (Nat × Push)) : Prop :=
  ∀ x ∈ q, ∀ y ∈ q, candidateOf x ≠ candidateOf y → x.2.cand.address ≠ y.2.cand.address

/-- in the epoch `e`, no completed candidate matches two patterns -/
def SinglePattern (h : Host) (cfg : EngineConfig) (lanes : Nat) (e : Nat × Nat) : Prop :=
  ∀ draw, e.1 ≤ draw → draw < e.1 + lanes → ∀ i < cfg.completed e.2 * cfg.batch,
    ∀ p p' pk pk', Matched h cfg.patterns draw i p pk → Matched h cfg.patterns draw i p' pk' → p = p'

/-- no draw of the naive engine matches two patterns -/
def NaiveCpuEngine.SinglePattern (h : Host) (patterns : List CompiledPattern) (polls : Nat) : Prop :=
  ∀ draw < kCheckInterval * polls, ∀ p p' pk pk',
    Matched h patterns draw p pk → Matched h patterns draw p' pk' → p = p'

theorem pushes_candidates {α : Type} (x : Worker α) :
    ((pushes x).map fun p => (p.draw, p.index)) = (hits x).map fun y => (y.draw, y.index) := by
  rw [← pushes_hit, List.map_map]
  rfl

section
variable {lanes : Nat} {S O : Type} {ops : LaneOps lanes S O} (wk : Walks ops) {h : Host}
  {cfg : EngineConfig} {polls : Nat}

include wk in
theorem worker_once : ((pushes (worker ops h cfg polls)).map fun p => (p.draw, p.index)).Nodup ↔
    ∀ e ∈ epochs (worker ops h cfg polls), SinglePattern h cfg lanes e := by
  rw [pushes_candidates, List.nodup_map_iff_inj_on (worker_hits_nodup wk polls)]
  constructor
  · intro hinj e he draw hlo hhi i hi p p' pk pk' hm hm'
    have hx := hinj ⟨draw, i, scalarAdd8i (baseScalar h draw) i, pk, p⟩
      ((mem_worker_hits wk).mpr ⟨e, he, ⟨hlo, hhi⟩, hi, rfl, hm⟩)
      ⟨draw, i, scalarAdd8i (baseScalar h draw) i, pk', p'⟩
      ((mem_worker_hits wk).mpr ⟨e, he, ⟨hlo, hhi⟩, hi, rfl, hm'⟩) rfl
    exact congrArg Hit.pattern hx
  · intro hsingle x hx y hy hxy
    obtain ⟨hd, hi⟩ := Prod.mk.inj hxy
    obtain ⟨e, he, hdx, hix, hsx, hmx⟩ := (mem_worker_hits wk).mp hx
    obtain ⟨-, -, -, -, hsy, hmy⟩ := (mem_worker_hits wk).mp hy
    rw [← hd, ← hi] at hsy hmy
    have hp := hsingle e he x.draw hdx.1 hdx.2 _ hix _ _ _ _ hmx hmy
    obtain ⟨-, -, -, hkx⟩ := hmx
    obtain ⟨-, -, -, hky⟩ := hmy
    rw [hkx] at hky
    exact Hit.ext hd hi (hsx.trans hsy.symm) (Option.some.inj hky) hp

end

theorem NaiveCpuEngine.worker_once {h : Host} {patterns : List CompiledPattern} {polls : Nat} :
    ((pushes (NaiveCpuEngine.worker h patterns polls)).map fun p => (p.draw, p.index)).Nodup ↔
      NaiveCpuEngine.SinglePattern h patterns polls := by
  rw [pushes_candidates, List.nodup_map_iff_inj_on (NaiveCpuEngine.worker_hits_nodup h patterns polls)]
  constructor
  · intro hinj draw hd p p' pk pk' hm hm'
    have hx := hinj ⟨draw, 0, (expandSeed h.sha512 (h.rand draw)).scalar, pk, p⟩
      (NaiveCpuEngine.mem_worker_hits.mpr ⟨hd, rfl, rfl, hm⟩)
      ⟨draw, 0, (expandSeed h.sha512 (h.rand draw)).scalar, pk', p'⟩
      (NaiveCpuEngine.mem_worker_hits.mpr ⟨hd, rfl, rfl, hm'⟩) rfl
    exact congrArg Hit.pattern hx
  · intro hsingle x hx y hy hxy
    obtain ⟨hd, hi⟩ := Prod.mk.inj hxy
    obtain ⟨hdx, -, hsx, hmx⟩ := NaiveCpuEngine.mem_worker_hits.mp hx
    obtain ⟨-, -, hsy, hmy⟩ := NaiveCpuEngine.mem_worker_hits.mp hy
    rw [← hd] at hsy hmy
    have hp := hsingle x.draw hdx _ _ _ _ hmx hmy
    obtain ⟨-, -, -, hkx⟩ := hmx
    obtain ⟨-, -, -, hky⟩ := hmy
    rw [hkx] at hky
    exact Hit.ext hd hi (hsx.trans hsy.symm) (Option.some.inj hky) hp

theorem pushedOnce_iff {n : Nat} {thread : Nat → List Push} {q : List (Nat × Push)}
    (hq : Interleaving n thread q) :
    PushedOnce q ↔ ∀ t < n, ((thread t).map fun p => (p.draw, p.index)).Nodup :=
  threadPushes_nodup (fun p => (p.draw, p.index)) hq

theorem PushedOnce.addresses {q : List (Nat × Push)} (h : PushedOnce q)
    (hd : DistinctAddresses q) : ((q.map fun x => x.2.cand).map MatchCandidate.address).Nodup := by
  rw [List.map_map]
  have hq : q.Nodup := h.of_map
  refine (List.nodup_map_iff_inj_on hq).mpr fun x hx y hy he => ?_
  by_contra hne
  refine hd x hx y hy (fun hc => hne ?_) he
  exact List.inj_on_of_nodup_map h hx hy hc

/-- **How often a candidate is pushed.**  In every run of an engine, with any interleaving of its
threads: the CPU engines push every candidate at most once exactly when no candidate that they test
matches two patterns, and the GPU engine always does; and a queue that holds no candidate twice,
with distinct addresses, never makes `main` write an address twice or fail on its own files. -/
theorem pushed_once (n : Nat) (h : Nat → Host) (polls : Nat → Nat) (cfg : EngineConfig)
    (gpu : CudaConfig) (dev : Device gpu.threads gpu.kStepsPerThread)
    (s : CudaState kPipelineDepth) :
    (∀ q, Interleaving n (fun t => pushes (IncrementalCpuEngine.worker (h t) cfg (polls t))) q →
      (PushedOnce q ↔ ∀ t < n, ∀ e ∈ epochs (IncrementalCpuEngine.worker (h t) cfg (polls t)),
        SinglePattern (h t) cfg 1 e)) ∧
    (∀ q, Interleaving n (fun t => pushes (IncrementalCpuEngineX4.worker (h t) cfg (polls t))) q →
      (PushedOnce q ↔ ∀ t < n, ∀ e ∈ epochs (IncrementalCpuEngineX4.worker (h t) cfg (polls t)),
        SinglePattern (h t) cfg 4 e)) ∧
    (∀ q, Interleaving n
        (fun t => pushes (NaiveCpuEngine.worker (h t) cfg.patterns (polls t))) q →
      (PushedOnce q ↔ ∀ t < n, NaiveCpuEngine.SinglePattern (h t) cfg.patterns (polls t))) ∧
    (∀ q, Interleaving 1 (fun t => pushes (CudaEngine.run (h t) gpu dev s)) q → PushedOnce q) ∧
    (∀ q base patterns, PushedOnce q → DistinctAddresses q →
      MainClean base patterns (q.map fun x => x.2.cand)) := by
  refine ⟨fun q hq => ?_, fun q hq => ?_, fun q hq => ?_, fun q hq => ?_,
    fun q base patterns hq hd => main_clean (hq.addresses hd)⟩
  · rw [pushedOnce_iff hq]
    exact forall₂_congr fun t _ => worker_once laneWalks
  · rw [pushedOnce_iff hq]
    exact forall₂_congr fun t _ => worker_once laneWalksX4
  · rw [pushedOnce_iff hq]
    exact forall₂_congr fun t _ => NaiveCpuEngine.worker_once
  · rw [pushedOnce_iff hq]
    intro t _
    rw [pushes_candidates]
    exact CudaEngine.run_hits_nodup kPipelineDepth_ne s

theorem Compiled.singlePattern {prefixes : List (List Char)} {cfg : EngineConfig}
    (hc : Compiled prefixes cfg.patterns) (hfree : PrefixFree prefixes) (h : Host) (lanes : Nat)
    (e : Nat × Nat) : SinglePattern h cfg lanes e := by
  intro draw _ _ i _ p p' pk pk' hm hm'
  obtain ⟨pat, hp, hy, -⟩ := hm
  obtain ⟨pat', hp', hy', -⟩ := hm'
  exact hc.unique hfree hp hp' hy hy'

theorem spaced_addresses (polls : Nat) : DistinctAddresses (threadPushes 2 fun t =>
    pushes (IncrementalCpuEngine.worker (spacedHost t) searchConfig polls)) := by
  have hpush : ∀ x ∈ threadPushes 2 fun t => pushes (IncrementalCpuEngine.worker (spacedHost t)
      searchConfig polls), x.1 < 2 ∧ x.2.draw < 7 ∧ x.2.index < 4 ∧ x.2.cand.claimedPubkey =
        encodePoint ((4 + 64 * (8 * x.1 + x.2.draw) + 8 * x.2.index) • basePoint) := by
    intro x hx
    obtain ⟨ht, hp⟩ := mem_threadPushes.mp hx
    have hx : x.2.hit ∈ hits (IncrementalCpuEngine.worker (spacedHost x.1) searchConfig polls) := by
      rw [← pushes_hit]
      exact List.mem_map_of_mem hp
    obtain ⟨e, -, -, hi, -, hm⟩ := (mem_worker_hits laneWalks).mp hx
    have hi : x.2.index < 4 := hi.trans_le (searchConfig.completed_le e.2)
    have hd : x.2.draw < 7 := spaced_draw ht hi hm
    obtain ⟨-, -, -, hk⟩ := hm
    have hk := hk.symm.trans (spaced_key ht hi)
    rw [show x.2.hit.draw = x.2.draw from rfl, Nat.min_eq_left hd.le] at hk
    exact ⟨ht, hd, hi, Option.some.inj hk⟩
  intro x hx y hy hne ha
  obtain ⟨htx, hdx, hix, hkx⟩ := hpush x hx
  obtain ⟨hty, hdy, hiy, hky⟩ := hpush y hy
  have hkey := onionAddressFromPubkey_inj.mp ha
  rw [hkx, hky, encodePoint_inj, smul_basePoint_eq_iff] at hkey
  have hbig : 2^12 ≤ kOrder := by norm_num [kOrder]
  have heq := hkey.eq_of_lt_of_lt (by omega) (by omega)
  exact hne (Prod.ext (show x.1 = y.1 by omega) (Prod.ext (show x.2.draw = y.2.draw by omega)
    (show x.2.index = y.2.index by omega)))

/-- the search, on two threads and on a GPU -/
theorem pushed_once_spaced :
    let q := threadPushes 2 fun t =>
      pushes (IncrementalCpuEngine.worker (spacedHost t) searchConfig 5)
    let qg := threadPushes 1 fun t =>
      pushes (CudaEngine.run (spacedHost t) searchGpu searchDevice (startCuda 9))
    (PushedOnce q ∧ ∃ x y, (0, x) ∈ q ∧ (1, y) ∈ q) ∧
      PushedOnce (threadPushes 2 fun t =>
        pushes (IncrementalCpuEngineX4.worker (spacedHost t) searchConfig 5)) ∧
      PushedOnce (threadPushes 2 fun t =>
        pushes (NaiveCpuEngine.worker (spacedHost t) searchPatterns 5)) ∧
      (PushedOnce qg ∧ ∃ x, (0, x) ∈ qg) ∧
      MainClean rfcBase searchPatterns (q.map fun x => x.2.cand) := by
  intro q qg
  obtain ⟨h1, h4, hnaive, hgpu, hmain⟩ :=
    pushed_once 2 spacedHost (fun _ => 5) searchConfig searchGpu searchDevice (startCuda 9)
  have hq : PushedOnce q := (h1 _ (List.Perm.refl _)).mpr fun t _ e _ =>
    search_compiled.singlePattern search_free (spacedHost t) 1 e
  have hpush : ∀ t < 2, ∃ x, (t, x) ∈ q := fun t ht =>
    exists_threadPush ht (spaced_worker_pushes laneWalks (by decide) rfl ht (by decide))
  obtain ⟨x, hx⟩ := hpush 0 Nat.two_pos
  obtain ⟨y, hy⟩ := hpush 1 Nat.one_lt_two
  refine ⟨⟨hq, x, y, hx, hy⟩, (h4 _ (List.Perm.refl _)).mpr fun t _ e _ =>
      search_compiled.singlePattern search_free (spacedHost t) 4 e,
    (hnaive _ (List.Perm.refl _)).mpr fun t _ draw _ p p' pk pk' hm hm' => ?_,
    ⟨hgpu _ (List.Perm.refl _), exists_threadPush (t := 0) Nat.one_pos searchDevice_pushes⟩,
    hmain _ _ _ hq (spaced_addresses 5)⟩
  obtain ⟨pat, hp, hy, hk⟩ := hm
  obtain ⟨pat', hp', hy', hk'⟩ := hm'
  rw [← Option.some.inj (hk.symm.trans hk')] at hy'
  exact search_compiled.unique search_free hp hp' hy hy'

/-- a repeated prefix: the same candidate is pushed twice, and `main` fails on its own file -/
theorem prefix_given_twice :
    let prefixes := letters ++ letters
    let cfg : EngineConfig := ⟨letterPatterns ++ letterPatterns, 2, 2, by decide, by decide⟩
    let h := constHost 0
    let q := pushes (IncrementalCpuEngine.worker h cfg 2)
    Compiled prefixes cfg.patterns ∧ ¬ PushedOnce (q.map fun p => (0, p)) ∧
      ∀ (os : Os) (outdir : List Char), (mainLoop h.baseNoclamp os outdir cfg.patterns 0
        (q.map fun p => ⟨false, some p.cand, false⟩) ⟨0, 0, ⟨fun _ => none, fun _ => none, 0⟩⟩).val.exitCode = 3 := by
  intro prefixes cfg h q
  have hc : Compiled prefixes cfg.patterns :=
    List.rel_append letters_compiled letters_compiled
  have he : (0, 1) ∈ epochs (IncrementalCpuEngine.worker h cfg 2) := first_epoch 1
  have hn : cfg.completed 1 * cfg.batch = 2 := by decide
  -- one of the two candidates has a key, and matches a letter
  have hkey : ∃ i < 2, ∃ pk, h.baseNoclamp (scalarAdd8i (baseScalar h 0) i) = some pk := by
    rcases neighbour_ne_zero (2^254 + 8 * 0) with hne | hne
    · exact ⟨0, by decide, _, key_of_zero (by decide) hne⟩
    · exact ⟨1, by decide, _, key_of_zero (by decide) hne⟩
  obtain ⟨i, hi, pk, hk⟩ := hkey
  obtain ⟨p, pat, hp, hy, -⟩ := letter_matched hk
  -- it is pushed for both copies of that letter
  have hpush : ∀ p', cfg.patterns[p']? = some pat → ∃ x ∈ q, x.hit =
      ⟨0, i, scalarAdd8i (baseScalar h 0) i, pk, p'⟩ := by
    intro p' hp'
    have hx : ⟨0, i, scalarAdd8i (baseScalar h 0) i, pk, p'⟩ ∈
        hits (IncrementalCpuEngine.worker h cfg 2) := (mem_worker_hits laneWalks).mpr
      ⟨(0, 1), he, ⟨le_rfl, Nat.one_pos⟩, hn.symm ▸ hi, rfl, pat, hp', hy, hk⟩
    rw [← pushes_hit] at hx
    obtain ⟨x, hx, e⟩ := List.mem_map.mp hx
    exact ⟨x, hx, e⟩
  have hlt : p < letterPatterns.length := (List.getElem?_eq_some_iff.mp hp).1
  obtain ⟨x, hx, ex⟩ := hpush p ((List.getElem?_append_left hlt).trans hp)
  obtain ⟨y, hy', ey⟩ := hpush (letterPatterns.length + p)
    ((List.getElem?_append_right (Nat.le_add_right _ _)).trans (by rw [Nat.add_sub_cancel_left]; exact hp))
  have hxy : x ≠ y := fun e => by
    have hpat : p = letterPatterns.length + p :=
      congrArg Hit.pattern (ex.symm.trans ((congrArg Push.hit e).trans ey))
    have hpos : 0 < letterPatterns.length := (Nat.zero_le _).trans_lt hlt
    omega
  refine ⟨hc, fun honce => hxy ?_, fun os outdir => ?_⟩
  · rw [PushedOnce, List.map_map] at honce
    refine List.inj_on_of_nodup_map honce hx hy' (Prod.ext rfl (Prod.ext ?_ ?_))
    · exact (congrArg Hit.draw ex).trans (congrArg Hit.draw ey).symm
    · exact (congrArg Hit.index ex).trans (congrArg Hit.index ey).symm
  · have hturns : (q.map fun p => (⟨false, some p.cand, false⟩ : Turn)) =
        (q.map Push.cand).map fun c => ⟨false, some c, false⟩ := by
      rw [List.map_map]
      rfl
    rw [hturns]
    refine mainLoop_duplicate _ (fun c hcq => ?_) (Or.inr fun hnodup => hxy ?_)
    · obtain ⟨z, hz, rfl⟩ := List.mem_map.mp hcq
      have hz' : z.hit ∈ hits (IncrementalCpuEngine.worker h cfg 2) := by
        rw [← pushes_hit]
        exact List.mem_map_of_mem hz
      obtain ⟨e, -, -, hze, hzs, hzm⟩ := (mem_worker_hits laneWalks).mp hz'
      have hz2 : z.index < 2 := hze.trans_le (cfg.completed_le e.2)
      refine verify_matched rfcBase_rfc8032 hc hzm hzs ?_ (hz2.trans (by norm_num))
      rw [baseScalar_zero]
      omega
    · rw [List.map_map] at hnodup
      refine List.inj_on_of_nodup_map hnodup hx hy' (congrArg onionAddressFromPubkey ?_)
      exact (congrArg Hit.pubkey ex).trans (congrArg Hit.pubkey ey).symm

end Onion
