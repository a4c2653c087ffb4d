import Onion.Cli.Process
import Onion.Engine.Naive

/-!
# Exit code 2

`main` stops with "verification failed (engine bug)" and exit code 2 when a candidate does not pass
`verify`.

* `Judged`               what became of the candidates that were handled;
* `alarm_candidate`      with exit code 2, the last of them was pushed and does not pass;
* `naive_no_alarm`       the reference engine never has one;
* `incremental_no_alarm`   nor do the others, in the range of the scalars.
-/

namespace Onion
open Logged

/-- the candidate passes, and gives the result -/
def Gives (base : Bytes 32 → Option (Bytes 32)) (patterns : List CompiledPattern)
    (c : MatchCandidate) (v : VerifiedResult) : Prop :=
  verify base c patterns = .ok v

/-- the results `vs` of the handled candidates: of all of them, or of all before the one that stopped
`main`, which was rejected or not written -/
def Judged (base : Bytes 32 → Option (Bytes 32)) (patterns : List CompiledPattern)
    (handled : List MatchCandidate) (exitCode : Nat) (vs : List VerifiedResult) : Prop :=
  ∃ cs, List.Forall₂ (Gives base patterns) cs vs ∧
    (handled = cs ∧ exitCode ≠ 2 ∧ exitCode ≠ 3 ∨
      ∃ c, handled = cs ++ [c] ∧ (exitCode = 2 ∧ (∀ v, ¬ Gives base patterns c v) ∨
        exitCode = 3 ∧ ∃ v, Gives base patterns c v))

section
variable {base : Bytes 32 → Option (Bytes 32)} {os : Os} {outdir : List Char}
  {patterns : List CompiledPattern} {count : Nat} {handled : List MatchCandidate} {e : Nat}
  {vs : List VerifiedResult} {c : MatchCandidate} {v : VerifiedResult} {s : MainState}

theorem gives_of_mem {cs : List MatchCandidate} (h : List.Forall₂ (Gives base patterns) cs vs)
    (hv : v ∈ vs) : ∃ c ∈ cs, Gives base patterns c v := by
  induction h with
  | nil => cases hv
  | cons hg _ ih =>
    rcases List.mem_cons.mp hv with rfl | hv
    · exact ⟨_, List.mem_cons_self, hg⟩
    · obtain ⟨c, hc, h⟩ := ih hv
      exact ⟨c, List.mem_cons_of_mem _ hc, h⟩

theorem passed_of_mem {cs : List MatchCandidate} (h : List.Forall₂ (Gives base patterns) cs vs)
    (hc : c ∈ cs) : ∃ v, Gives base patterns c v := by
  induction h with
  | nil => cases hc
  | cons hg _ ih =>
    rcases List.mem_cons.mp hc with rfl | hc
    · exact ⟨_, hg⟩
    · exact ih hc

theorem Judged.all (h : List.Forall₂ (Gives base patterns) handled vs) (h2 : e ≠ 2) (h3 : e ≠ 3) :
    Judged base patterns handled e vs :=
  ⟨handled, h, Or.inl ⟨rfl, h2, h3⟩⟩

theorem Judged.passed (h : Judged base patterns handled e vs) (h2 : e ≠ 2) (h3 : e ≠ 3) :
    List.Forall₂ (Gives base patterns) handled vs := by
  obtain ⟨cs, hgives, ⟨rfl, -⟩ | ⟨c, -, ⟨he, -⟩ | ⟨he, -⟩⟩⟩ := h
  · exact hgives
  · exact absurd he h2
  · exact absurd he h3

theorem Judged.mem (h : Judged base patterns handled e vs) (hv : v ∈ vs) :
    ∃ c ∈ handled, Gives base patterns c v := by
  obtain ⟨cs, hgives, hcs⟩ := h
  obtain ⟨c, hc, hgive⟩ := gives_of_mem hgives hv
  rcases hcs with ⟨rfl, -⟩ | ⟨last, rfl, -⟩
  · exact ⟨c, hc, hgive⟩
  · exact ⟨c, List.mem_append_left _ hc, hgive⟩

theorem Judged.snoc (h : Judged base patterns handled 0 vs) (hv : Gives base patterns c v) :
    Judged base patterns (handled ++ [c]) 0 (vs ++ [v]) :=
  .all (List.rel_append (h.passed (by decide) (by decide)) (List.Forall₂.cons hv List.Forall₂.nil))
    (by decide) (by decide)

theorem Judged.rejected (h : Judged base patterns handled 0 vs)
    (hv : ∀ v, ¬ Gives base patterns c v) : Judged base patterns (handled ++ [c]) 2 vs :=
  ⟨handled, h.passed (by decide) (by decide), Or.inr ⟨c, rfl, Or.inl ⟨rfl, hv⟩⟩⟩

theorem Judged.unwritten (h : Judged base patterns handled 0 vs) (hv : Gives base patterns c v) :
    Judged base patterns (handled ++ [c]) 3 vs :=
  ⟨handled, h.passed (by decide) (by decide), Or.inr ⟨c, rfl, Or.inr ⟨rfl, v, hv⟩⟩⟩

theorem handle_reject {err : VerifyError} (hv : verify base c patterns = .error err) :
    (handle base os outdir patterns c s).val = (false, { s with exitCode := 2 }) := by
  rw [handle, hv]
  rfl

theorem handle_judged (os : Os) (outdir : List Char) (c : MatchCandidate)
    (h : Judged base patterns handled s.exitCode vs) (h0 : s.exitCode = 0) :
    ∃ vs', Judged base patterns (handled ++ [c])
      (handle base os outdir patterns c s).val.2.exitCode vs' := by
  rw [h0] at h
  cases hv : verify base c patterns with
  | error err =>
    rw [handle_reject hv]
    exact ⟨vs, h.rejected fun v hok => by cases hv.symm.trans hok⟩
  | ok v =>
    by_cases hw : (writeTorKeys os outdir v s.world).1 = .ok ()
    · rw [handle_ok hv hw]
      dsimp only
      rw [h0]
      exact ⟨vs ++ [v], h.snoc hv⟩
    · rw [handle_error hv hw]
      exact ⟨vs, h.unwritten hv⟩

/-! ## a session -/

theorem Session.step_judged {s s' : Session} {e : SessionEvent} (hexit : s.ExitCode)
    (hs : ∃ vs, Judged base patterns s.handled s.main.exitCode vs)
    (h : step base os outdir patterns count s e = some s') :
    ∃ vs, Judged base patterns s'.handled s'.main.exitCode vs := by
  have hstep := step_cases h
  unfold handled at hs ⊢
  cases e with
  | push c =>
    obtain ⟨-, rfl⟩ := hstep
    exact hs
  | finish =>
    obtain ⟨-, rfl⟩ := hstep
    exact hs
  | store =>
    obtain ⟨-, rfl⟩ := hstep
    exact hs
  | head interrupted =>
    obtain ⟨-, ⟨-, rfl⟩ | ⟨-, rfl⟩⟩ := hstep
    · exact hs
    · rw [handled_snoc, Option.toList_none, List.append_nil]
      exact hs
  | pop =>
    obtain ⟨-, c, queue, -, rfl⟩ := hstep
    exact hs
  | timeout =>
    obtain ⟨-, -, rfl⟩ := hstep
    exact hs
  | handle =>
    obtain ⟨c, hpc, rfl⟩ := hstep
    obtain ⟨vs, hj⟩ := hs
    dsimp only
    rw [handled_snoc]
    exact handle_judged os outdir c hj (hexit.zero (by simp [hpc]))
  | load =>
    obtain ⟨hpc, ⟨-, rfl⟩ | ⟨-, rfl⟩⟩ := hstep
    · obtain ⟨vs, hj⟩ := hs
      have h0 : s.main.exitCode = 0 := hexit.zero (by simp [hpc])
      rw [h0] at hj
      dsimp only
      rw [handled_snoc, Option.toList_none, List.append_nil, h0]
      exact ⟨vs, .all (hj.passed (by decide) (by decide)) (by decide) (by decide)⟩
    · rw [handled_snoc, Option.toList_none, List.append_nil]
      exact hs

end

/-! ## the process -/

namespace Process

section
variable {base : Bytes 32 → Option (Bytes 32)} {os : Os} {outdir : List Char}
  {patterns : List CompiledPattern} {count workers : Nat} {program : Nat → List Push} {w : World}
  {es : List ProcessEvent} {s : Process}

theorem run_judged (hn : ∀ t, workers ≤ t → program t = [])
    (h : Trace.run (step base os outdir patterns count workers) (start program w) es = some s) :
    ∃ vs, Judged base patterns (s.turns.filterMap Turn.popped) s.main.exitCode vs := by
  have hI := Trace.run_inv
    (I := fun t : Session => t.ExitCode ∧ ∃ vs, Judged base patterns t.handled t.main.exitCode vs)
    (fun hs hstep => ⟨Session.step_exitCode hs.1 hstep, Session.step_judged hs.1 hs.2 hstep⟩)
    (run_session hn h)
    ⟨(Session.start_drained w).exitCode, [], .all List.Forall₂.nil (show 0 ≠ 2 by decide)
      (show 0 ≠ 3 by decide)⟩
  exact hI.2

theorem no_alarm (hn : ∀ t, workers ≤ t → program t = [])
    (h : Trace.run (step base os outdir patterns count workers) (start program w) es = some s)
    (hv : ∀ t < workers, ∀ p ∈ program t, ∃ v, verify base p.cand patterns = .ok v) :
    s.main.exitCode ≠ 2 := by
  intro h2
  obtain ⟨vs, cs, -, ⟨-, hne, -⟩ | ⟨c, hlast, ⟨-, hreject⟩ | ⟨h3, -⟩⟩⟩ := run_judged hn h
  · exact hne h2
  · have hc : c ∈ s.turns.filterMap Turn.popped := by
      rw [hlast]
      exact List.mem_append_right cs List.mem_cons_self
    obtain ⟨t, ht, p, hp, rfl⟩ := popped_mem hn h hc
    obtain ⟨v, hok⟩ := hv t ht p hp
    exact hreject v hok
  · rw [h2] at h3
    cases h3

/-- **Exit code 2 is never a false alarm**: the last candidate that `main` popped was pushed by a
worker and does not pass, and all before it do. -/
theorem alarm_candidate (base : Bytes 32 → Option (Bytes 32)) (os : Os) (outdir : List Char)
    (patterns : List CompiledPattern) (count workers : Nat) (program : Nat → List Push)
    (hn : ∀ t, workers ≤ t → program t = []) (w : World) (es : List ProcessEvent) (s : Process)
    (h : Trace.run (step base os outdir patterns count workers) (start program w) es = some s)
    (h2 : s.main.exitCode = 2) :
    ∃ cs x, s.turns.filterMap Turn.popped = cs ++ [x.2.cand] ∧
      s.queue.pushed[cs.length]? = some x ∧ (x.1 < workers ∧ x.2 ∈ program x.1) ∧
      (∀ v, verify base x.2.cand patterns ≠ .ok v) ∧
      ∀ c ∈ cs, ∃ v, verify base c patterns = .ok v := by
  obtain ⟨vs, cs, hgives, ⟨-, hne, -⟩ | ⟨c, hlast, ⟨-, hreject⟩ | ⟨h3, -⟩⟩⟩ := run_judged hn h
  · exact absurd h2 hne
  · obtain ⟨rest, hfirst⟩ := popped_first hn h
    have hc : (s.queue.pushed.map fun x => x.2.cand)[cs.length]? = some c := by
      rw [← hfirst, hlast, List.append_assoc, List.getElem?_append_right le_rfl, Nat.sub_self]
      rfl
    rw [List.getElem?_map, Option.map_eq_some_iff] at hc
    obtain ⟨x, hx, rfl⟩ := hc
    exact ⟨cs, x, hlast, hx, pushed_mem hn h (List.mem_of_getElem? hx), hreject,
      fun c hc => passed_of_mem hgives hc⟩
  · rw [h2] at h3
    cases h3

/-- `main` sleeps until the first candidate of worker 0 comes, and handles it -/
def alarmRun : List ProcessEvent :=
  [.head false, .queue .lockPop, .queue .test, .queue (.call 0), .queue (.lock 0),
    .queue (.pushBack 0), .queue (.unlock 0), .queue (.notify 0), .queue (.relock false),
    .queue .test, .queue .popFront, .queue .leave, .handle]

theorem alarm_candidate_late :
    ∃ s, Trace.run (step (fun _ => none) soundOs [] letterPatterns 1 1)
        (start lateProgram freshState.world) alarmRun = some s ∧ s.main.exitCode = 2 ∧
      ∃ cs x, s.turns.filterMap Turn.popped = cs ++ [x.2.cand] ∧
        s.queue.pushed[cs.length]? = some x ∧ (x.1 < 1 ∧ x.2 ∈ lateProgram x.1) ∧
        (∀ v, verify (fun _ => none) x.2.cand letterPatterns ≠ .ok v) ∧
        ∀ c ∈ cs, ∃ v, verify (fun _ => none) c letterPatterns = .ok v :=
  ⟨_, rfl, rfl, alarm_candidate _ soundOs [] letterPatterns 1 1 lateProgram lateProgram_beyond
    freshState.world alarmRun _ rfl rfl⟩

end

theorem alarmRun_handles (base : Bytes 32 → Option (Bytes 32)) (os : Os) (outdir : List Char)
    (patterns : List CompiledPattern) {count : Nat} (hcount : count = 0 ∨ 0 < count) (workers : Nat)
    {program : Nat → List Push} {p : Push} {rest : List Push} (hp : program 0 = p :: rest)
    (w : World) :
    ∃ s, Trace.run (step base os outdir patterns count workers) (start program w) alarmRun =
        some s ∧ s.main = (Onion.handle base os outdir patterns p.cand ⟨0, 0, w⟩).val.2 ∧
      s.turns = [⟨false, some p.cand, false⟩] ∧ s.queue.pushed = [(0, p)] := by
  simp [alarmRun, Trace.run, step, start, ResultQueue.start, ResultQueue.step, ResultQueue.move, hp,
    hcount, PopPc.notified]

end Process

/-! ## the engines -/

theorem NaiveCpuEngine.worker_verified {h : Host} {prefixes : List (List Char)}
    {patterns : List CompiledPattern} (hc : Compiled prefixes patterns) {polls : Nat} {p : Push}
    (hp : p ∈ pushes (NaiveCpuEngine.worker h patterns polls)) :
    ∃ v, verify h.baseNoclamp p.cand patterns = .ok v := by
  have hx : p.hit ∈ hits (NaiveCpuEngine.worker h patterns polls) := by
    rw [← pushes_hit]
    exact List.mem_map_of_mem hp
  obtain ⟨-, -, hscalar, pat, hpat, hm, hk⟩ := NaiveCpuEngine.mem_worker_hits.mp hx
  obtain ⟨pre, -, hpre⟩ := hc.getElem? hpat
  have haddr := (compilePrefix_matches hpre _).mp hm
  obtain ⟨-, -, -, -, hpp, -⟩ := compilePrefix_eq_ok hpre
  rw [← hpp] at haddr
  rw [← hscalar] at hk
  exact ⟨_, verify_eq_ok.mpr ⟨hk, ⟨pat, hpat, hm, haddr⟩, rfl⟩⟩

/-- what `workers` threads push -/
def programs (workers : Nat) (worker : Nat → List Push) (t : Nat) : List Push :=
  if t < workers then worker t else []

theorem programs_beyond {workers : Nat} (worker : Nat → List Push) (t : Nat) (ht : workers ≤ t) :
    programs workers worker t = [] :=
  if_neg (Nat.not_lt_of_le ht)

/-- **The reference engine never raises an alarm**, however many threads it has and however they
run. -/
theorem naive_no_alarm (base : Bytes 32 → Option (Bytes 32)) (h : Nat → Host)
    (hbase : ∀ t, (h t).baseNoclamp = base) (prefixes : List (List Char))
    (patterns : List CompiledPattern) (hp : compilePrefixes prefixes = some patterns)
    (polls : Nat → Nat) (os : Os) (outdir : List Char) (count workers : Nat) (w : World)
    (es : List ProcessEvent) (s : Process)
    (hrun : Trace.run (Process.step base os outdir patterns count workers) (Process.start
      (programs workers fun t => pushes (NaiveCpuEngine.worker (h t) patterns (polls t))) w) es =
        some s) :
    s.main.exitCode ≠ 2 := by
  refine Process.no_alarm (programs_beyond _) hrun fun t ht p hmem => ?_
  rw [programs, if_pos ht] at hmem
  rw [← hbase t]
  exact NaiveCpuEngine.worker_verified (compilePrefixes_eq_some.mp hp) hmem

/-- a candidate within the range of the scalars is what it was matched for -/
theorem worker_verified {lanes : Nat} {S O : Type} {ops : LaneOps lanes S O} (wk : Walks ops)
    {h : Host} (hbase : Rfc8032 h.baseNoclamp) {cfg : EngineConfig} {prefixes : List (List Char)}
    (hc : Compiled prefixes cfg.patterns) {polls : Nat} {p : Push}
    (hp : p ∈ pushes (worker ops h cfg polls))
    (hlt : (baseScalar h p.draw).toNat + 8 * p.index < 2^255) (hi : p.index < 2^61) :
    ∃ v, verify h.baseNoclamp p.cand cfg.patterns = .ok v := by
  have hx : p.hit ∈ hits (worker ops h cfg polls) := by
    rw [← pushes_hit]
    exact List.mem_map_of_mem hp
  obtain ⟨e, -, -, -, hscalar, hm⟩ := (mem_worker_hits wk).mp hx
  exact verify_matched hbase hc hm hscalar hlt hi

/-- **The incremental engines raise no alarm** while they stay in the range of the scalars. -/
theorem incremental_no_alarm {lanes : Nat} {S O : Type} (ops : LaneOps lanes S O) (wk : Walks ops)
    (base : Bytes 32 → Option (Bytes 32)) (hrfc : Rfc8032 base) (h : Nat → Host)
    (hbase : ∀ t, (h t).baseNoclamp = base) (cfg : EngineConfig) (prefixes : List (List Char))
    (hp : compilePrefixes prefixes = some cfg.patterns) (polls : Nat → Nat) (os : Os)
    (outdir : List Char) (count workers : Nat) (w : World) (es : List ProcessEvent) (s : Process)
    (hrun : Trace.run (Process.step base os outdir cfg.patterns count workers) (Process.start
      (programs workers fun t => pushes (worker ops (h t) cfg (polls t))) w) es = some s)
    (hrange : ∀ t < workers, ∀ p ∈ pushes (worker ops (h t) cfg (polls t)),
      p.index < 2^61 ∧ (baseScalar (h t) p.draw).toNat + 8 * p.index < 2^255) :
    s.main.exitCode ≠ 2 := by
  refine Process.no_alarm (programs_beyond _) hrun fun t ht p hmem => ?_
  rw [programs, if_pos ht] at hmem
  obtain ⟨hi, hlt⟩ := hrange t ht p hmem
  rw [← hbase t] at hrfc ⊢
  exact worker_verified wk hrfc (compilePrefixes_eq_some.mp hp) hmem hlt hi

/-- a seed that expands to a base scalar gives the first candidate of its walk -/
theorem NaiveCpuEngine.matched_first {h : Host} (hbase : Rfc8032 h.baseNoclamp)
    {prefixes : List (List Char)} {patterns : List CompiledPattern} (hc : Compiled prefixes patterns)
    {draw p : Nat} {pk : Bytes 32}
    (hseed : (expandSeed h.sha512 (h.rand draw)).scalar = baseScalar h draw)
    (hm : Onion.Matched h patterns draw 0 p pk) : Matched h patterns draw p pk := by
  obtain ⟨pat, hpat, hy, hk⟩ := hm
  obtain ⟨pre, -, hpre⟩ := hc.getElem? hpat
  rw [scalarAdd8i_zero] at hk
  have hpk := hk
  rw [hbase, baseScalar_mod] at hpk
  split at hpk
  · cases hpk
  · refine ⟨pat, hpat, ?_, by rw [hseed, hk]⟩
    rw [← Option.some.inj hpk, matchesPubkey_encode (compilePrefix_nbytes hpre)]
    exact hy

theorem spaced_seed {t : Nat} (ht : t < 2) (draw : Nat) :
    (expandSeed (spacedHost t).sha512 ((spacedHost t).rand draw)).scalar =
      baseScalar (spacedHost t) draw := by
  have h : ∀ m < 16, (expandSeed (spacedHost 0).sha512 (Bytes.ofNat 32 (4 * kOrder +
      (4 + 64 * m)))).scalar = clamp (Bytes.ofNat 32 (4 * kOrder + (4 + 64 * m))) := by
    decide +kernel
  exact h _ (by omega)

theorem spaced_naive_pushes :
    ∃ p rest, pushes (NaiveCpuEngine.worker (spacedHost 0) searchPatterns 1) = p :: rest := by
  obtain ⟨pk, hm⟩ := spaced_first
  have hdraw : 0 < NaiveCpuEngine.kCheckInterval * 1 := by decide
  exact pushes_of_mem (NaiveCpuEngine.mem_worker_hits
    (x := ⟨0, 0, (expandSeed (spacedHost 0).sha512 ((spacedHost 0).rand 0)).scalar, pk, 0⟩).mpr
      ⟨hdraw, rfl, rfl,
        NaiveCpuEngine.matched_first rfcBase_rfc8032 search_compiled (spaced_seed Nat.two_pos 0)
          hm⟩)

theorem naive_no_alarm_spaced :
    ∃ s, Trace.run (Process.step rfcBase soundOs [] searchPatterns 1 2) (Process.start
        (programs 2 fun t => pushes (NaiveCpuEngine.worker (spacedHost t) searchPatterns 1))
        freshState.world) Process.alarmRun = some s ∧
      s.turns.filterMap Turn.popped ≠ [] ∧ s.main.exitCode ≠ 2 := by
  obtain ⟨p, rest, hp⟩ := spaced_naive_pushes
  have hprogram : programs 2 (fun t => pushes (NaiveCpuEngine.worker (spacedHost t)
    searchPatterns 1)) 0 = p :: rest := hp
  obtain ⟨s, hrun, -, hturns, -⟩ := Process.alarmRun_handles rfcBase soundOs [] searchPatterns
    (Or.inr Nat.one_pos) 2 hprogram freshState.world
  refine ⟨s, hrun, by rw [hturns]; exact List.cons_ne_nil _ _, ?_⟩
  exact naive_no_alarm rfcBase spacedHost (fun _ => rfl) searchLetters searchPatterns
    (compilePrefixes_eq_some.mpr search_compiled) (fun _ => 1) soundOs [] 1 2 freshState.world
    Process.alarmRun s hrun

theorem incremental_no_alarm_spaced :
    ∃ s, Trace.run (Process.step rfcBase soundOs [] searchPatterns 1 2) (Process.start
        (programs 2 fun t => pushes (worker laneOpsX4 (spacedHost t) searchConfig 3))
        freshState.world) Process.alarmRun = some s ∧
      s.turns.filterMap Turn.popped ≠ [] ∧ s.main.exitCode ≠ 2 := by
  obtain ⟨p, rest, hp⟩ : ∃ p rest, pushes (worker laneOpsX4 (spacedHost 0) searchConfig 3) =
      p :: rest := spaced_worker_pushes laneWalksX4 (by decide) rfl Nat.two_pos (by decide)
  have hprogram : programs 2 (fun t => pushes (worker laneOpsX4 (spacedHost t) searchConfig 3)) 0 =
    p :: rest := hp
  obtain ⟨s, hrun, -, hturns, -⟩ := Process.alarmRun_handles rfcBase soundOs [] searchPatterns
    (Or.inr Nat.one_pos) 2 hprogram freshState.world
  refine ⟨s, hrun, by rw [hturns]; exact List.cons_ne_nil _ _, ?_⟩
  refine incremental_no_alarm laneOpsX4 laneWalksX4 rfcBase rfcBase_rfc8032 spacedHost
    (fun _ => rfl) searchConfig searchLetters (compilePrefixes_eq_some.mpr search_compiled)
    (fun _ => 3) soundOs [] 1 2 freshState.world Process.alarmRun s hrun fun t ht p hp => ?_
  have hx : p.hit ∈ hits (worker laneOpsX4 (spacedHost t) searchConfig 3) := by
    rw [← pushes_hit]
    exact List.mem_map_of_mem hp
  obtain ⟨e, -, -, hi, -, -⟩ := (mem_worker_hits laneWalksX4).mp hx
  have hindex : p.index < 4 := hi.trans_le (searchConfig.completed_le e.2)
  have hi : p.index < 2^61 := hindex.trans (by norm_num)
  exact ⟨hi, spaced_range ht hi⟩

end Onion
