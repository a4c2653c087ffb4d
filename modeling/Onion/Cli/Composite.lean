import Onion.Cli.Alarm
import Onion.Device.Select

/-!
# CPU and GPU together

`CompositeEngine` runs the incremental workers and the GPU engine at once, over one queue; without
workers it is the GPU engine alone.

* `run_verified`         a push of the GPU engine passes `verify`, in the range of the scalars;
* `composite_no_alarm`   and so does all that the engines push together.
-/

namespace Onion
open Logged

/-- the pushes of an engine list with `threads` CPU workers, and a GPU engine as the last -/
def compositeWorker (threads : Nat) (cpu : Nat → List Push) (gpu : List Push) (t : Nat) :
    List Push :=
  if t < threads then cpu t else gpu

theorem mem_compositeWorker {threads : Nat} {cpu : Nat → List Push} {gpu : List Push} {t : Nat}
    {p : Push} (hp : p ∈ compositeWorker threads cpu gpu t) :
    t < threads ∧ p ∈ cpu t ∨ threads ≤ t ∧ p ∈ gpu := by
  rw [compositeWorker] at hp
  by_cases ht : t < threads
  · rw [if_pos ht] at hp
    exact Or.inl ⟨ht, hp⟩
  · rw [if_neg ht] at hp
    exact Or.inr ⟨Nat.le_of_not_lt ht, hp⟩

theorem CudaEngine.run_verified {h : Host} (hbase : Rfc8032 h.baseNoclamp) {cfg : CudaConfig}
    {dev : Device cfg.threads cfg.kStepsPerThread} {prefixes : List (List Char)}
    (hc : Compiled prefixes cfg.patterns) {depth : Nat} [NeZero depth]
    (hne : ∀ c : Fin depth, c ≠ c + 1) {s : CudaState depth} {p : Push}
    (hp : p ∈ pushes (run h cfg dev s))
    (htrue : p.index < cfg.threads * cfg.kStepsPerThread →
      seenPattern h cfg dev p.draw p.index = firstPattern h cfg.patterns p.draw p.index)
    (hlt : (baseScalar h p.draw).toNat + 8 * p.index < 2^255) (hi : p.index < 2^61) :
    ∃ v, verify h.baseNoclamp p.cand cfg.patterns = .ok v := by
  have hx : p.hit ∈ hits (run h cfg dev s) := by
    rw [← pushes_hit]
    exact List.mem_map_of_mem hp
  obtain ⟨-, hsize, hseen, hscalar, hk⟩ := run_sound hne s hx
  have hfirst := (htrue hsize).symm.trans hseen
  obtain ⟨hlen, hm, -⟩ := List.findIdx?_eq_some_iff_getElem.mp hfirst
  rw [hscalar] at hk
  have hmatch : Matched h cfg.patterns p.draw p.index p.cand.patternIndex p.cand.claimedPubkey :=
    ⟨_, List.getElem?_eq_getElem hlen, hm, hk⟩
  exact verify_matched hbase hc hmatch hscalar hlt hi

/-- **CPU and GPU raise no alarm together**, with any number of CPU workers, while they stay in the
range of the scalars and the GPU within the range of its field. -/
theorem composite_no_alarm (base : Bytes 32 → Option (Bytes 32)) (hrfc : Rfc8032 base)
    (h : Nat → Host) (hbase : ∀ t, (h t).baseNoclamp = base) (cfg : EngineConfig) (gpu : CudaConfig)
    (hgpu : gpu.patterns = cfg.patterns) (prefixes : List (List Char))
    (hp : compilePrefixes prefixes = some cfg.patterns) (field : FieldBackend)
    (inv : BatchInversion) (ok : Nat → Bool) (order : Nat → List (Nat × Nat))
    (perm : ∀ n, (order n).Perm (candidates gpu.threads gpu.kStepsPerThread))
    (c : CudaState kPipelineDepth) (threads : Nat) (polls : Nat → Nat) (os : Os)
    (outdir : List Char) (count : Nat) (w : World) (es : List ProcessEvent) (s : Process) :
    let program := compositeWorker threads
      (fun t => pushes (IncrementalCpuEngine.worker (h t) cfg (polls t)))
      (pushes (CudaEngine.run (h threads) gpu (field.device inv _ _ ok order perm) c))
    Trace.run (Process.step base os outdir cfg.patterns count (threads + 1))
      (Process.start (programs (threads + 1) program) w) es = some s →
    (∀ t ≤ threads, ∀ p ∈ program t,
      p.index < 2^61 ∧ (baseScalar (h t) p.draw).toNat + 8 * p.index < 2^255) →
    (∀ p ∈ program threads, field.clean inv (h threads) gpu p.draw p.index = true) →
    s.main.exitCode ≠ 2 := by
  intro program hrun hrange hclean
  have hc := compilePrefixes_eq_some.mp hp
  refine Process.no_alarm (programs_beyond _) hrun fun t ht p hmem => ?_
  rw [programs, if_pos ht] at hmem
  obtain ⟨hi, hlt⟩ := hrange t (Nat.le_of_lt_succ ht) p hmem
  rcases mem_compositeWorker hmem with ⟨-, hcpu⟩ | ⟨hge, hmem⟩
  · rw [← hbase t] at hrfc ⊢
    exact worker_verified laneWalks hrfc hc hcpu hlt hi
  · obtain rfl : t = threads := Nat.le_antisymm (Nat.le_of_lt_succ ht) hge
    have hc' := hclean p (by
      show p ∈ compositeWorker t _ _ t
      rwa [compositeWorker, if_neg (Nat.lt_irrefl t)])
    rw [← hbase t] at hrfc ⊢
    rw [← hgpu] at hc ⊢
    exact CudaEngine.run_verified hrfc hc kPipelineDepth_ne hmem
      (fun hsize => field.seen inv ok order perm hsize hc') hlt hi

def searchProgram : Nat → List Push :=
  compositeWorker 1 (fun t => pushes (IncrementalCpuEngine.worker (spacedHost t) searchConfig 3))
    (pushes (CudaEngine.run (spacedHost 1) searchGpu (FieldBackend.limbs51.device .fusedCombo 2 2
      (fun _ => true) (fun _ => candidates 2 2) fun _ => .refl _) (startCuda 9)))

theorem searchProgram_index {t : Nat} {p : Push} (hp : p ∈ searchProgram t) : p.index < 4 := by
  rcases mem_compositeWorker hp with ⟨-, hp⟩ | ⟨-, hp⟩
  · have hx : p.hit ∈ hits (IncrementalCpuEngine.worker (spacedHost t) searchConfig 3) := by
      rw [← pushes_hit]
      exact List.mem_map_of_mem hp
    obtain ⟨e, -, -, hi, -, -⟩ := (mem_worker_hits laneWalks).mp hx
    exact hi.trans_le (searchConfig.completed_le e.2)
  · have hx := List.mem_map_of_mem (f := Push.hit) hp
    rw [pushes_hit] at hx
    exact (CudaEngine.run_sound kPipelineDepth_ne _ hx).2.1

theorem composite_no_alarm_spaced :
    ∃ s, Trace.run (Process.step rfcBase soundOs [] searchPatterns 1 2)
        (Process.start (programs 2 searchProgram) freshState.world) Process.alarmRun = some s ∧
      s.turns.filterMap Turn.popped ≠ [] ∧ s.main.exitCode ≠ 2 := by
  obtain ⟨p, rest, hp⟩ : ∃ p rest, pushes (worker laneOps (spacedHost 0) searchConfig 3) =
      p :: rest := spaced_worker_pushes laneWalks (by decide) rfl Nat.two_pos (by decide)
  have hprogram : programs 2 searchProgram 0 = p :: rest := hp
  obtain ⟨s, hrun, -, hturns, -⟩ := Process.alarmRun_handles rfcBase soundOs [] searchPatterns
    (Or.inr Nat.one_pos) 2 hprogram freshState.world
  refine ⟨s, hrun, by rw [hturns]; exact List.cons_ne_nil _ _, ?_⟩
  refine composite_no_alarm rfcBase rfcBase_rfc8032 spacedHost (fun _ => rfl) searchConfig searchGpu
    rfl searchLetters (compilePrefixes_eq_some.mpr search_compiled) .limbs51 .fusedCombo
    (fun _ => true) (fun _ => candidates 2 2) (fun _ => .refl _) (startCuda 9) 1 (fun _ => 3) soundOs
    [] 1 freshState.world Process.alarmRun s hrun (fun t ht p hp => ?_) fun _ _ => rfl
  have hi : p.index < 2^61 := (searchProgram_index hp).trans (by norm_num)
  exact ⟨hi, spaced_range (Nat.lt_succ_of_le ht) hi⟩

end Onion
