import Onion.Cli.Composite
import Onion.Cli.Delivered
import Onion.Cli.Distinct
import Onion.Engine.Clamp

/-!
# A healthy run

Any mix of the engines over one queue, with prefixes none of which is a prefix of another, a system
that does what it is asked, and no directory of an earlier run in the way.

* `EnginePushes`   what a worker of one of the engines pushes;
* `Meet`           two walks have reached scalars of the same key;
* `healthy`        the exit code is 0 or 4, every result that was counted is accepted, and all that
                   was popped is counted, unless two walks have met.
-/

namespace Onion
open Logged

/-- the pushes of a worker of any engine, over the same patterns; those of the GPU are computed
within the range of its field -/
inductive EnginePushes (h : Host) (patterns : List CompiledPattern) : List Push → Prop where
  | naive (polls : Nat) : EnginePushes h patterns (pushes (NaiveCpuEngine.worker h patterns polls))
  | incremental (cfg : EngineConfig) (hcfg : cfg.patterns = patterns) (polls : Nat) :
      EnginePushes h patterns (pushes (IncrementalCpuEngine.worker h cfg polls))
  | incrementalX4 (cfg : EngineConfig) (hcfg : cfg.patterns = patterns) (polls : Nat) :
      EnginePushes h patterns (pushes (IncrementalCpuEngineX4.worker h cfg polls))
  | cuda (cfg : CudaConfig) (hcfg : cfg.patterns = patterns) (field : FieldBackend)
      (inv : BatchInversion) (ok : Nat → Bool) (order : Nat → List (Nat × Nat))
      (perm : ∀ n, (order n).Perm (candidates cfg.threads cfg.kStepsPerThread))
      (s : CudaState kPipelineDepth)
      (hclean : ∀ p ∈ pushes (CudaEngine.run h cfg (field.device inv _ _ ok order perm) s),
        field.clean inv h cfg p.draw p.index = true) :
      EnginePushes h patterns (pushes (CudaEngine.run h cfg (field.device inv _ _ ok order perm) s))

/-- what a worker does right: its candidates pass, with clamped scalars of their keys -/
structure Push.Right (h : Host) (patterns : List CompiledPattern) (p : Push) : Prop where
  keyed : p.Keyed h.baseNoclamp
  clamped : Clamped p.cand.secret.scalar
  verified : ∃ v, verify h.baseNoclamp p.cand patterns = .ok v

theorem Push.OnWalk.clamped {h : Host} {p : Push} (hw : p.OnWalk h) (hr : p.InRange h) :
    Clamped p.cand.secret.scalar := by
  have hsmall : 8 * p.index % 2^64 = 8 * p.index := Nat.mod_eq_of_lt (by have := hr.1; omega)
  rw [hw, clamped_scalar, NoCarry, hsmall]
  exact hr.2

namespace EnginePushes

section
variable {h : Host} {patterns : List CompiledPattern} {prefixes : List (List Char)}
  {ps : List Push} {p p' : Push}

theorem right (hrfc : Rfc8032 h.baseNoclamp) (hc : Compiled prefixes patterns)
    (hps : EnginePushes h patterns ps) (hp : p ∈ ps) (hr : p.InRange h) : p.Right h patterns := by
  cases hps with
  | naive polls =>
    obtain ⟨hk, -⟩ := NaiveCpuEngine.worker_push hp
    refine ⟨hk, ?_, NaiveCpuEngine.worker_verified hc hp⟩
    have hx := List.mem_map_of_mem (f := Push.hit) hp
    rw [pushes_hit] at hx
    obtain ⟨-, -, hscalar, -⟩ := NaiveCpuEngine.mem_worker_hits.mp hx
    have hscalar : p.cand.secret.scalar = _ := hscalar
    rw [hscalar]
    exact expandSeed_clamped h.sha512 _
  | incremental cfg hcfg polls =>
    subst hcfg
    obtain ⟨hk, hw⟩ := worker_push laneWalks hp
    exact ⟨hk, hw.clamped hr, worker_verified laneWalks hrfc hc hp hr.2 hr.1⟩
  | incrementalX4 cfg hcfg polls =>
    subst hcfg
    obtain ⟨hk, hw⟩ := worker_push laneWalksX4 hp
    exact ⟨hk, hw.clamped hr, worker_verified laneWalksX4 hrfc hc hp hr.2 hr.1⟩
  | cuda cfg hcfg field inv ok order perm s hclean =>
    subst hcfg
    obtain ⟨hk, hw⟩ := CudaEngine.run_push kPipelineDepth_ne hp
    refine ⟨hk, hw.clamped hr, CudaEngine.run_verified hrfc hc kPipelineDepth_ne hp
      (fun hsize => ?_) hr.2 hr.1⟩
    exact field.seen inv ok order perm hsize (hclean p hp)

theorem once (hc : Compiled prefixes patterns) (hfree : PrefixFree prefixes)
    (hps : EnginePushes h patterns ps) : (ps.map fun p => (p.draw, p.index)).Nodup := by
  cases hps with
  | naive polls =>
    refine NaiveCpuEngine.worker_once.mpr fun draw _ p p' pk pk' hm hm' => ?_
    obtain ⟨pat, hp, hy, hk⟩ := hm
    obtain ⟨pat', hp', hy', hk'⟩ := hm'
    rw [← Option.some.inj (hk.symm.trans hk')] at hy'
    exact hc.unique hfree hp hp' hy hy'
  | incremental cfg hcfg polls =>
    subst hcfg
    exact (worker_once laneWalks).mpr fun e _ => hc.singlePattern hfree h 1 e
  | incrementalX4 cfg hcfg polls =>
    subst hcfg
    exact (worker_once laneWalksX4).mpr fun e _ => hc.singlePattern hfree h 4 e
  | cuda cfg hcfg field inv ok order perm s hclean =>
    rw [pushes_candidates]
    exact CudaEngine.run_hits_nodup kPipelineDepth_ne s

/-- on one walk, or at the draws of the reference engine, an address gives the index -/
theorem same_walk (hrfc : Rfc8032 h.baseNoclamp) (hps : EnginePushes h patterns ps) (hp : p ∈ ps)
    (hp' : p' ∈ ps) (hd : p.draw = p'.draw) (hi : p.index < 2^61) (hi' : p'.index < 2^61)
    (ha : p.cand.address = p'.cand.address) : p.index = p'.index := by
  cases hps with
  | naive polls =>
    rw [(NaiveCpuEngine.worker_push hp).2, (NaiveCpuEngine.worker_push hp').2]
  | incremental cfg hcfg polls =>
    obtain ⟨hk, hw⟩ := worker_push laneWalks hp
    obtain ⟨hk', hw'⟩ := worker_push laneWalks hp'
    exact Push.walk_address hrfc hk hk' hw hw' hd hi hi' ha
  | incrementalX4 cfg hcfg polls =>
    obtain ⟨hk, hw⟩ := worker_push laneWalksX4 hp
    obtain ⟨hk', hw'⟩ := worker_push laneWalksX4 hp'
    exact Push.walk_address hrfc hk hk' hw hw' hd hi hi' ha
  | cuda cfg hcfg field inv ok order perm s hclean =>
    obtain ⟨hk, hw⟩ := CudaEngine.run_push kPipelineDepth_ne hp
    obtain ⟨hk', hw'⟩ := CudaEngine.run_push kPipelineDepth_ne hp'
    exact Push.walk_address hrfc hk hk' hw hw' hd hi hi' ha

end

end EnginePushes

/-- two candidates of different walks have scalars of the same key -/
def Meet (workers : Nat) (program : Nat → List Push) : Prop :=
  ∃ t < workers, ∃ p ∈ program t, ∃ t' < workers, ∃ p' ∈ program t', (t, p.draw) ≠ (t', p'.draw) ∧
    p.cand.secret.scalar.toNat % 2^255 ≡ p'.cand.secret.scalar.toNat % 2^255 [MOD kOrder]

namespace Process

section
variable {base : Bytes 32 → Option (Bytes 32)} {os : Os} {outdir : List Char}
  {patterns : List CompiledPattern} {count workers : Nat} {program : Nat → List Push} {w : World}
  {es : List ProcessEvent} {s : Process}

/-- what was pushed once in each program was pushed once -/
theorem pushed_nodup (hn : ∀ t, workers ≤ t → program t = [])
    (h : Trace.run (step base os outdir patterns count workers) (start program w) es = some s)
    (honce : ∀ t < workers, ((program t).map fun p => (p.draw, p.index)).Nodup) :
    PushedOnce s.queue.pushed := by
  have hbelow : ∀ x ∈ s.queue.pushed, x.1 < workers := fun x hx => (pushed_mem hn h hx).1
  refine (pushedOnce_iff (ResultQueue.interleaving_pushedBy hbelow)).mpr fun t ht => ?_
  have hpre : ResultQueue.pushedBy t s.queue.pushed <+: program t := ⟨_, (run_history h).own t⟩
  exact (honce t ht).sublist (hpre.sublist.map _)

theorem left_of_loopPc {s : Process} (h : s.loopPc = .left) : s.pc = .left := by
  cases hpc : s.pc with
  | left => rfl
  | head =>
    rw [loopPc, hpc] at h
    cases h
  | call =>
    rw [loopPc, hpc] at h
    cases hc : s.queue.consumer with
    | outside last => cases last <;> (rw [hc] at h; cases h)
    | leaving r => cases r <;> (rw [hc] at h; cases h)
    | _ =>
      rw [hc] at h
      cases h

/-- exit code 3, on a system without faults: an address was there, or two candidates share one -/
theorem fault_addresses (hn : ∀ t, workers ≤ t → program t = [])
    (h : Trace.run (step base os outdir patterns count workers) (start program w) es = some s)
    (honce : ∀ t < workers, ((program t).map fun p => (p.draw, p.index)).Nodup) (hos : os.Sound)
    (hfree : ∀ t < workers, ∀ p ∈ program t, w.fs p.cand.address.view = none)
    (h3 : s.main.exitCode = 3) : ¬ DistinctAddresses s.queue.pushed := by
  intro hdistinct
  have hleft : s.pc = .left := by
    by_contra hne
    have h0 := (run_exitCode hn h).zero fun hpc => hne (left_of_loopPc hpc)
    rw [show s.main.exitCode = 0 from h0] at h3
    cases h3
  have hpushed := (pushed_nodup hn h honce).addresses hdistinct
  have hpopped := hpushed.sublist ((popped_first hn h).sublist.map MatchCandidate.address)
  have hclean : CleanRun os ⟨0, 0, w⟩ _ (mainLoop base os outdir patterns count s.turns ⟨0, 0, w⟩) :=
    mainLoop_clean s.turns hpopped
  rw [← run_loop hn h hleft] at h3
  obtain ⟨x, hx, hthere⟩ := hclean.exitCode (show 0 ≠ 3 by decide) h3 hos
  obtain ⟨c, hc, haddr⟩ := List.mem_map.mp (hclean.popped.subset (List.mem_map_of_mem hx))
  obtain ⟨t, ht, p, hp, rfl⟩ := popped_mem hn h hc
  rw [← haddr] at hthere
  exact hthere (hfree t ht p hp)

end

/-- what a run of `main` has achieved: all popped candidates are results, on the disk and accepted
by the oracle, no more than `count`, and exactly `count` when it ends by itself with exit code 0 -/
structure Achieved (base : Bytes 32 → Option (Bytes 32)) (patterns : List CompiledPattern)
    (count : Nat) (s : Process) (vs : List VerifiedResult) : Prop where
  gives : List.Forall₂ (Gives base patterns) (s.turns.filterMap Turn.popped) vs
  found : s.main.found = vs.length % 2^64
  distinct : (vs.map VerifiedResult.address).Nodup
  accepted : ∀ v ∈ vs, ∀ enc, VerifyOnion.checkDir enc (s.main.world.content v.address.view) =
    .ok v.address.toString
  bound : count ≠ 0 → vs.length ≤ count
  complete : s.pc = .left → s.main.exitCode = 0 →
    (∀ turn ∈ s.turns, turn.interrupted = false) → count ≠ 0 ∧ vs.length = count

/-- **A healthy run.**  Any number of workers of any engines, in any interleaving: on a system
without faults and with no entry in the way, in the range of the scalars, either two walks have met,
or the exit code is 0 or 4 and every candidate that `main` popped is a result that the oracle
accepts. -/
theorem healthy (base : Bytes 32 → Option (Bytes 32)) (hrfc : Rfc8032 base) (h : Nat → Host)
    (hbase : ∀ t, (h t).baseNoclamp = base) (prefixes : List (List Char))
    (patterns : List CompiledPattern) (hp : compilePrefixes prefixes = some patterns)
    (hprefixes : PrefixFree prefixes) (workers : Nat) (program : Nat → List Push)
    (hn : ∀ t, workers ≤ t → program t = [])
    (hengine : ∀ t < workers, EnginePushes (h t) patterns (program t))
    (hrange : ∀ t < workers, ∀ p ∈ program t, p.InRange (h t)) (os : Os) (hos : os.Sound) (w : World)
    (hfree : ∀ t < workers, ∀ p ∈ program t, w.fs p.cand.address.view = none)
    (outdir : List Char) (count : Nat) (hcount : count < 2^64) (es : List ProcessEvent) (s : Process)
    (hrun : Trace.run (step base os outdir patterns count workers) (start program w) es = some s) :
    s.main.exitCode = 3 ∧ Meet workers program ∨
      (s.main.exitCode = 0 ∨ s.main.exitCode = 4) ∧ ∃ vs, Achieved base patterns count s vs := by
  have hc := compilePrefixes_eq_some.mp hp
  have hrfc' : ∀ t, Rfc8032 (h t).baseNoclamp := fun t => hbase t ▸ hrfc
  have hright : ∀ t < workers, ∀ p ∈ program t, p.Right (h t) patterns := fun t ht p hmem =>
    (hengine t ht).right (hrfc' t) hc hmem (hrange t ht p hmem)
  obtain ⟨vs, hd, hprogress⟩ := run_delivered hcount hn hrun
  by_cases h3 : s.main.exitCode = 3
  · -- the candidates of one walk have different addresses
    refine Or.inl ⟨h3, ?_⟩
    have honce : ∀ t < workers, ((program t).map fun p => (p.draw, p.index)).Nodup := fun t ht =>
      (hengine t ht).once hc hprefixes
    by_contra hmeet
    refine fault_addresses hn hrun honce hos hfree h3 fun x hx y hy hne ha => hmeet ?_
    obtain ⟨htx, hpx⟩ := pushed_mem hn hrun hx
    obtain ⟨hty, hpy⟩ := pushed_mem hn hrun hy
    have hkx := (hright x.1 htx x.2 hpx).keyed
    have hky := (hright y.1 hty y.2 hpy).keyed
    refine ⟨x.1, htx, x.2, hpx, y.1, hty, y.2, hpy, fun hwalk => hne ?_, ?_⟩
    · obtain ⟨ht, hdraw⟩ := Prod.mk.inj hwalk
      have hry := hrange y.1 hty y.2 hpy
      rw [← ht] at hpy
      have hi := (hengine x.1 htx).same_walk (hrfc' x.1) hpx hpy hdraw (hrange x.1 htx x.2 hpx).1 hry.1 ha
      rw [candidateOf, candidateOf, ht, hdraw, hi]
    · rw [hbase] at hkx hky
      exact (Push.address_iff hrfc hkx hky).mp ha
  · have h2 : s.main.exitCode ≠ 2 := no_alarm hn hrun fun t ht p hmem => by
      have hv := (hright t ht p hmem).verified
      rwa [hbase t] at hv
    have hcode : s.main.exitCode ∈ [0, 2, 3, 4] := hprogress.code
    have hgives := hd.judged.passed h2 h3
    refine Or.inr ⟨by simpa [h2, h3] using hcode, vs, hgives, hd.found, hd.distinct, fun v hv enc => ?_,
      hprogress.bound, fun hleft => hprogress.through ?_⟩
    · obtain ⟨c, hmem, hgive⟩ := gives_of_mem hgives hv
      obtain ⟨t, ht, p, hpush, rfl⟩ := popped_mem hn hrun hmem
      obtain ⟨hk, -, rfl⟩ := verify_eq_ok.mp hgive
      exact (hd.onDisk _ hv).accepted hrfc (hright t ht p hpush).clamped hk rfl enc
    · show s.loopPc = .left
      rw [loopPc, hleft]

end Process

end Onion
