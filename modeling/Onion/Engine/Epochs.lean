import Onion.Engine.CudaRuns
import Onion.Lib.Refined

/-!
# The GPU engine as a sequence of epochs

What a run of `CudaEngine` is for, without its slots, buffers and streams.  An epoch is a draw and a
launch; it is drained while the next one runs, and what it pushes are the hits of its launch.

* `HostThread`    what the host thread counts;
* `Epochs.run`    the run;
* `CudaEngine.run_shows`   the run over slots shows the same.
-/

namespace Onion
open Logged

/-- the draws and the calls of the CUDA runtime so far, and the polls to come -/
structure HostThread where
  rng : Nat
  polls : Nat
  calls : Nat

inductive EpochEvent where
  | harvested (draw launch : Nat)
  | push (p : Push)

def EpochEvent.push? : EpochEvent → Option Push
  | .push p => some p
  | _ => none

def EpochEvent.harvested? : EpochEvent → Option (Nat × Nat)
  | .harvested draw launch => some (draw, launch)
  | _ => none

namespace Epochs

def calls (ok : Nat → Bool) : Nat → HostThread → Bool × HostThread
  | 0, v => (true, v)
  | n+1, v =>
    let v' := { v with calls := v.calls + 1 }
    if ok v.calls then calls ok n v' else (false, v')

def note (e : EpochEvent) : Logged EpochEvent Unit := ⟨(), [e]⟩

/-- an epoch from the next draw: three uploads, the kernel, and its counter read back -/
def start (ok : Nat → Bool) (v : HostThread) : Option (Nat × Nat) × HostThread :=
  match v.polls with
  | 0 => (none, v)
  | polls+1 =>
    let r := calls ok 5 { v with rng := v.rng + 1, polls := polls }
    -- a failure asks once more whether it came with the stop
    if r.1 then (some (v.rng, v.calls + 3), r.2) else (none, { r.2 with polls := r.2.polls - 1 })

section
variable (h : Host) (cfg : CudaConfig) (dev : Device cfg.threads cfg.kStepsPerThread)

/-- a hit, with a fresh prefix -/
def pushHit (x : Hit) (rng : Nat) : Logged EpochEvent Nat :=
  ⟨rng + 1, [.push ⟨x.draw, x.index, ⟨⟨x.scalar, h.rand rng⟩, x.pubkey, x.pattern⟩⟩]⟩

def harvest (d : Nat × Nat) (v : HostThread) : Logged EpochEvent HostThread :=
  let r := calls dev.ok 1 v
  if r.1 = false then return r.2
  else do
    note (.harvested d.1 d.2)
    let rng ← forEach (pushHit h) (CudaEngine.launchHits h cfg dev d) r.2.rng
    return { r.2 with rng := rng }

/-- wait for an epoch, and read its hits back -/
def drain (d : Nat × Nat) (v : HostThread) : Logged EpochEvent HostThread :=
  let r := calls dev.ok 1 v
  if r.1 = false ∨ CudaEngine.launchMatches h cfg dev d = [] then return r.2
  else harvest h cfg dev d r.2

def round (d : Nat × Nat) (v : HostThread) :
    Logged EpochEvent (Option (Nat × Nat) × HostThread) := do
  let next := start dev.ok v
  let v ← drain h cfg dev d next.2
  return (next.1, v)

def loop : Nat → Option (Nat × Nat) × HostThread → Logged EpochEvent HostThread
  | 0, u => return u.2
  | _+1, (none, v) => return v
  | fuel+1, (some d, v) =>
    match v.polls with
    | 0 => return v
    | polls+1 => round h cfg dev d { v with polls := polls } >>= loop fuel

/-- the checks, and the allocations for `depth` slots -/
def init (depth : Nat) (v : HostThread) : Bool × HostThread :=
  if cfg.patterns = [] ∨ kMaxConstPatterns < cfg.patterns.length ∨ cfg.threads = 0 ∨ cfg.block = 0 then
    (false, v)
  else calls dev.ok (2 + depth * 9) v

def run (depth : Nat) (v : HostThread) : Logged EpochEvent HostThread :=
  let r := init cfg dev depth v
  if r.1 = false then return r.2
  else loop h cfg dev v.polls (start dev.ok r.2)

end

/-! ## calls and starts -/

section
variable {ok : Nat → Bool} {n k : Nat} {v : HostThread}

theorem calls_one (v : HostThread) :
    calls ok 1 v = (ok v.calls, { v with calls := v.calls + 1 }) := by
  rw [calls]
  cases ok v.calls <;> rfl

theorem calls_add (n k : Nat) (v : HostThread) :
    calls ok (n + k) v = if (calls ok n v).1 then calls ok k (calls ok n v).2 else calls ok n v := by
  induction n generalizing v with
  | zero =>
    rw [Nat.zero_add]
    rfl
  | succ n ih =>
    rw [Nat.add_right_comm, calls, calls]
    split
    · exact ih _
    · rfl

theorem calls_ok (hok : ∀ n, ok n = true) (n : Nat) (v : HostThread) :
    calls ok n v = (true, { v with calls := v.calls + n }) := by
  induction n generalizing v with
  | zero => rfl
  | succ n ih =>
    rw [calls, if_pos (hok _), ih, Nat.add_right_comm]
    rfl

theorem calls_count {r : Bool × HostThread} (hr : r = calls ok n v) (hok : r.1 = true) :
    r.2.calls = v.calls + n := by
  induction n generalizing v with
  | zero => rw [hr, calls, Nat.add_zero]
  | succ n ih =>
    rw [calls] at hr
    split at hr
    · rw [ih hr, Nat.add_right_comm, Nat.add_assoc]
    · rw [hr] at hok
      cases hok

theorem start_epoch {d : Nat × Nat} (hd : d ∈ (start ok v).1) : d = (v.rng, v.calls + 3) := by
  rw [start] at hd
  split at hd
  · cases hd
  · dsimp only at hd
    split at hd
    · exact (Option.some.inj hd).symm
    · cases hd

/-- the poll after a start that failed, if there is one -/
theorem no_poll (hp : v.polls = 0) : v = { v with polls := v.polls - 1 } := by
  rw [hp, Nat.zero_sub, ← hp]

theorem one_poll {polls : Nat} (hp : v.polls = polls + 1) :
    { v with polls := polls } = { v with polls := v.polls - 1 } := by
  rw [hp, Nat.add_sub_cancel]

theorem start_zero (hp : v.polls = 0) : start ok v = (none, v) := by
  rw [start, hp]

theorem start_succ {n : Nat} (hp : v.polls = n + 1) : start ok v =
    let r := calls ok 5 { v with rng := v.rng + 1, polls := n }
    if r.1 then (some (v.rng, v.calls + 3), r.2) else (none, { r.2 with polls := r.2.polls - 1 }) := by
  rw [start, hp]

end

end Epochs

/-! ## the run over slots -/

/-- what is seen of the log -/
def EngineEvent.shown? : EngineEvent → Option EpochEvent
  | .harvested draw launch => some (.harvested draw launch)
  | .push p => some (.push p)
  | _ => none

def CudaState.host {depth : Nat} (s : CudaState depth) : HostThread := ⟨s.rng, s.polls, s.calls⟩

namespace CudaEngine
section
variable {depth : Nat} {h : Host} {cfg : CudaConfig} {dev : Device cfg.threads cfg.kStepsPerThread}
  {slot : Fin depth} {s : CudaState depth}

variable (dev slot) in
theorem call_host (f : Nat → PipelineSlot → PipelineSlot) (s : CudaState depth) :
    ((call cfg dev slot f s).1, (call cfg dev slot f s).2.host) = Epochs.calls dev.ok 1 s.host := by
  rw [Epochs.calls_one, call]
  split
  · rename_i hok
    exact Prod.ext hok.symm rfl
  · rename_i hok
    exact Prod.ext (Bool.eq_false_iff.mpr hok).symm rfl

theorem cudaOk_host {r : Bool × CudaState depth} {g : CudaState depth → Bool × CudaState depth}
    {n k : Nat} {v : HostThread} (hr : (r.1, r.2.host) = Epochs.calls dev.ok n v)
    (hg : ∀ t, ((g t).1, (g t).2.host) = Epochs.calls dev.ok k t.host) :
    ((cudaOk r g).1, (cudaOk r g).2.host) = Epochs.calls dev.ok (n + k) v := by
  rw [Epochs.calls_add, ← hr, cudaOk]
  split
  · exact hg r.2
  · exact rfl

variable (dev slot) in
theorem setupEpoch_host (draw : Nat) (a0 : Bytes 32) (s : CudaState depth) :
    ((setupEpoch cfg dev slot draw a0 s).val.1, (setupEpoch cfg dev slot draw a0 s).val.2.host) =
      Epochs.calls dev.ok 3 s.host := by
  rw [setupEpoch, bind_val]
  refine cudaOk_host (n := 2) (k := 1) (cudaOk_host (n := 1) (k := 1) ?_ fun t => call_host _ _ _ t)
    fun t => ?_
  · exact call_host _ _ _ _
  · exact call_host _ _ _ _

theorem launchEpoch_host (s : CudaState depth) :
    ((launchEpoch cfg dev slot s).1, (launchEpoch cfg dev slot s).2.host) =
      Epochs.calls dev.ok 2 s.host :=
  cudaOk_host (call_host _ _ _ _) (call_host _ _ _)

theorem startEpoch_host (h : Host) (dev : Device cfg.threads cfg.kStepsPerThread)
    (slot : Fin depth) (s : CudaState depth) :
    ((startEpoch h cfg dev slot s).val.1, (startEpoch h cfg dev slot s).val.2.host) =
      Epochs.calls dev.ok 5 { s.host with rng := s.rng + 1 } :=
  cudaOk_host (setupEpoch_host _ _ _ _ _) launchEpoch_host

theorem startEpoch_epoch (h : Host) (cfg : CudaConfig)
    (dev : Device cfg.threads cfg.kStepsPerThread) (slot : Fin depth) (s : CudaState depth)
    (hok : (startEpoch h cfg dev slot s).val.1 = true) :
    let x := (startEpoch h cfg dev slot s).val.2.slots[slot]
    Launched h cfg dev x ∧ (x.draw, x.launch) = (s.rng, s.calls + 3) := by
  obtain ⟨hlaunched, hdraw⟩ := startEpoch_slot hok
  refine ⟨hlaunched, Prod.ext hdraw ?_⟩
  obtain ⟨h1, h2, e⟩ := cudaOk_ok hok
  obtain ⟨h3, h4, e'⟩ := cudaOk_ok h2
  have hslot := (congrArg (fun r => r.2.slots[slot]) (e.trans e')).trans (call_slot h4)
  rw [call_slot h3] at hslot
  have hlaunch : (startEpoch h cfg dev slot s).val.2.slots[slot].launch = _ :=
    congrArg PipelineSlot.launch hslot
  -- the kernel comes after the three uploads
  have hcalls := setupEpoch_host dev slot s.rng (clamp (h.rand s.rng)) { s with rng := s.rng + 1 }
  exact hlaunch.trans (Epochs.calls_count hcalls h1)

/-- `t` is at the head of the loop, with the epoch of `u` on the slot -/
structure Shows (h : Host) (cfg : CudaConfig) (dev : Device cfg.threads cfg.kStepsPerThread)
    (slot : Fin depth) (t : Bool × CudaState depth) (u : Option (Nat × Nat) × HostThread) : Prop where
  host : t.2.host = u.2
  live : t.1 = u.1.isSome
  epoch : ∀ d ∈ u.1, Launched h cfg dev t.2.slots[slot] ∧
    (t.2.slots[slot].draw, t.2.slots[slot].launch) = d

theorem tryStart_shows (h : Host) (cfg : CudaConfig) (dev : Device cfg.threads cfg.kStepsPerThread)
    (slot : Fin depth) (s : CudaState depth) :
    Shows h cfg dev slot (tryStart h cfg dev slot s).val (Epochs.start dev.ok s.host) := by
  cases hp : s.polls with
  | zero =>
    rw [Epochs.start_zero hp, tryStart, hp]
    exact ⟨rfl, rfl, fun d hd => by cases hd⟩
  | succ polls =>
    have hhost := startEpoch_host h dev slot { s with polls := polls }
    have hepoch := startEpoch_epoch h cfg dev slot { s with polls := polls }
    rw [Epochs.start_succ hp, tryStart, hp]
    dsimp only at hepoch ⊢
    rw [bind_val]
    generalize (startEpoch h cfg dev slot { s with polls := polls }).val = x at hhost hepoch ⊢
    have hcalls : (x.1, x.2.host) = Epochs.calls dev.ok 5
      { s.host with rng := s.host.rng + 1, polls := polls } := hhost
    rw [← hcalls]
    cases hx : x.1 with
    | true =>
      refine ⟨rfl, hx, fun d hd => ?_⟩
      rw [← Option.some.inj hd]
      exact hepoch hx
    | false =>
      cases hp' : x.2.polls with
      | zero => exact ⟨Epochs.no_poll (v := x.2.host) hp', hx, fun d hd => by cases hd⟩
      | succ n => exact ⟨Epochs.one_poll (v := x.2.host) hp', rfl, fun d hd => by cases hd⟩

/-! ## drains -/

theorem pushHit_shows (x : PipelineSlot) (v : HostThread) (hit : HitSlot) (t : CudaState depth)
    (rng : Nat) (ht : t.host = { v with rng := rng }) :
    Refines EngineEvent.shown? (fun t rng => t.host = { v with rng := rng }) (pushHit h cfg x hit t)
      ((recordedHit h cfg x hit).elim (pure rng) fun y => Epochs.pushHit h y rng) := by
  have hrng : t.rng = rng := congrArg HostThread.rng ht
  have hpolls : t.polls = v.polls := congrArg HostThread.polls ht
  have hcalls : t.calls = v.calls := congrArg HostThread.calls ht
  simp only [pushHit, recordedHit, pubkeyFromScalar]
  cases h.baseNoclamp (scalarAdd8i x.slotA0 (hitIndex cfg.threads hit)) with
  | none => exact Refines.pure ht
  | some pk =>
    refine ⟨?_, ?_⟩
    · rw [hrng]
      rfl
    · show (⟨t.rng + 1, t.polls, t.calls⟩ : HostThread) = ⟨rng + 1, v.polls, v.calls⟩
      rw [hrng, hpolls, hcalls]

theorem countOverflow_host (n : Nat) (s : CudaState depth) : (countOverflow n s).host = s.host := by
  rw [countOverflow]
  split <;> rfl

theorem harvest_shows (hl : Launched h cfg dev s.slots[slot]) :
    Refines EngineEvent.shown? (fun t v => t.2.host = v) (harvest h cfg dev slot s)
      (Epochs.harvest h cfg dev (s.slots[slot].draw, s.slots[slot].launch) s.host) := by
  have hhost : _ = Epochs.calls dev.ok 1 _ :=
    call_host dev slot (fun _ x => x) (countOverflow s.slots[slot].hHitCount s)
  rw [countOverflow_host] at hhost
  have hmin : (if s.slots[slot].hHitCount < kMaxHitSlots then s.slots[slot].hHitCount
      else kMaxHitSlots) = min s.slots[slot].hHitCount kMaxHitSlots := by
    split <;> omega
  rw [harvest, Epochs.harvest, ← hhost, hmin]
  dsimp only
  generalize call cfg dev slot (fun _ x => x) (countOverflow s.slots[slot].hHitCount s) = r
  cases r.1 with
  | false => exact Refines.pure rfl
  | true =>
    refine Refines.bind (R := fun _ _ => True) ⟨rfl, trivial⟩ fun _ => ?_
    rw [← hl.hits]
    exact Refines.bind (Refines.forEach rfl fun hit t rng ht => pushHit_shows _ r.2.host hit t rng ht)
      fun ht => Refines.pure ht

/-- **`drain_epoch`** shows that its epoch is drained. -/
theorem drainEpoch_shows (hl : Launched h cfg dev s.slots[slot]) :
    Refines EngineEvent.shown? (fun t v => t.2.host = v) (drainEpoch h cfg dev slot s)
      (Epochs.drain h cfg dev (s.slots[slot].draw, s.slots[slot].launch) s.host) := by
  have hslot : (call cfg dev slot (fun _ x => x) s).2.slots[slot] = s.slots[slot] :=
    congrArg (fun v : Vector PipelineSlot depth => v[slot]) (call_keeps dev slot s).1
  have hhost : _ = Epochs.calls dev.ok 1 _ := call_host dev slot (fun _ x => x) s
  rw [drainEpoch, Epochs.drain, ← hhost]
  generalize call cfg dev slot (fun _ x => x) s = r at hslot hhost ⊢
  dsimp only
  cases hr : r.1 with
  | false => exact Refines.pure rfl
  | true =>
    rw [if_neg (not_not.mpr rfl), hslot]
    by_cases h0 : s.slots[slot].hHitCount = 0
    · rw [if_pos h0, if_pos (Or.inr (hl.empty.mp h0))]
      exact Refines.pure rfl
    · have hharvest := harvest_shows (s := r.2) (hslot.symm ▸ hl)
      rw [hslot] at hharvest
      rw [if_neg h0, if_neg]
      · exact hharvest
      · rintro (hfail | hnil)
        · cases hfail
        · exact h0 (hl.empty.mpr hnil)

/-! ## a run -/

variable [NeZero depth] {cur : Fin depth}

/-- a round that starts the next epoch on another slot -/
theorem round_shows (hne : cur ≠ cur + 1) (hl : Launched h cfg dev s.slots[cur]) :
    Refines EngineEvent.shown? (Shows h cfg dev (cur + 1)) (round h cfg dev cur s)
      (Epochs.round h cfg dev (s.slots[cur].draw, s.slots[cur].launch) s.host) := by
  have hstart := tryStart_shows h cfg dev (cur + 1) s
  have hcur : (tryStart h cfg dev (cur + 1) s).val.2.slots[cur] = s.slots[cur] :=
    tryStart_frame.others cur hne
  rw [round, Epochs.round]
  refine Refines.after (tryStart_silent fun _ => rfl) ?_
  generalize (tryStart h cfg dev (cur + 1) s).val = next at hstart hcur ⊢
  have hdrain := drainEpoch_shows (hcur.symm ▸ hl : Launched h cfg dev next.2.slots[cur])
  have hslots := (drainEpoch_frame h dev cur next.2).1
  rw [hcur, hstart.host] at hdrain
  refine Refines.bind hdrain fun hhost => Refines.pure ⟨hhost, hstart.live, fun d hd => ?_⟩
  dsimp only
  rw [hslots]
  exact hstart.epoch d hd

theorem loop_shows (hne : ∀ c : Fin depth, c ≠ c + 1) (fuel : Nat) (cur : Fin depth)
    (t : Bool × CudaState depth) (u : Option (Nat × Nat) × HostThread) (ht : Shows h cfg dev cur t u) :
    Refines EngineEvent.shown? (fun s v => s.host = v) (loop h cfg dev fuel cur t)
      (Epochs.loop h cfg dev fuel u) := by
  induction fuel generalizing cur t u with
  | zero => exact Refines.pure ht.host
  | succ fuel ih =>
    obtain ⟨live, s⟩ := t
    obtain ⟨epoch, v⟩ := u
    obtain rfl : s.host = v := ht.host
    cases epoch with
    | none =>
      obtain rfl : live = false := ht.live
      exact Refines.pure rfl
    | some d =>
      obtain rfl : live = true := ht.live
      obtain ⟨hl, rfl⟩ := ht.epoch d rfl
      rw [loop, Epochs.loop, if_neg (not_not.mpr rfl), show s.host.polls = s.polls from rfl]
      cases s.polls with
      | zero => exact Refines.pure rfl
      | succ polls =>
        have hround := round_shows (s := { s with polls := polls }) (hne cur) hl
        exact Refines.bind hround fun hnext => ih (cur + 1) _ _ hnext

omit [NeZero depth] in
theorem allocate_host (n : Nat) (s : CudaState depth) :
    ((allocate cfg dev n s).1, (allocate cfg dev n s).2.host) = Epochs.calls dev.ok n s.host := by
  induction n generalizing s with
  | zero => rfl
  | succ n ih =>
    rw [allocate, Epochs.calls, show s.host.calls = s.calls from rfl]
    cases dev.ok s.calls with
    | true => exact ih { s with calls := s.calls + 1 }
    | false => rfl

variable (dev) in
omit [NeZero depth] in
theorem init_host (s : CudaState depth) :
    ((init cfg dev s).1, (init cfg dev s).2.host) = Epochs.init cfg dev depth s.host := by
  rw [init, Epochs.init]
  split
  · rw [if_pos (Or.inl ‹_›)]
  · split
    · rw [if_pos (Or.inr (Or.inl ‹_›))]
    · split
      · rw [if_pos (Or.inr (Or.inr ‹_›))]
      · rw [if_neg]
        · exact allocate_host _ s
        · rintro (h1 | h2 | h3)
          · contradiction
          · contradiction
          · contradiction

/-- **A run over slots** shows the epochs. -/
theorem run_shows (hne : ∀ c : Fin depth, c ≠ c + 1) (s : CudaState depth) :
    Refines EngineEvent.shown? (fun s v => s.host = v) (run h cfg dev s)
      (Epochs.run h cfg dev depth s.host) := by
  have hinit := init_host dev s
  rw [run, Epochs.run, ← hinit]
  generalize init cfg dev s = r
  dsimp only
  cases hr : r.1 with
  | false => exact Refines.pure rfl
  | true =>
    have hstart := tryStart_shows h cfg dev 0 r.2
    exact Refines.after (tryStart_silent fun _ => rfl) (loop_shows hne s.polls 0 _ _ hstart)

/-- when no call fails, the first epoch is harvested, if it has a match -/
theorem run_harvests_first (hne : ∀ c : Fin depth, c ≠ c + 1) {s : CudaState depth}
    (hok : ∀ n, dev.ok n = true) (hpatterns : cfg.patterns ≠ [])
    (hlen : cfg.patterns.length ≤ kMaxConstPatterns) (hT : cfg.threads ≠ 0) (hblock : cfg.block ≠ 0)
    (hpolls : 2 ≤ s.polls)
    (hm : launchMatches h cfg dev (s.rng, s.calls + (2 + depth * 9) + 3) ≠ []) :
    (s.rng, s.calls + (2 + depth * 9) + 3) ∈ harvests (run h cfg dev s) := by
  obtain ⟨n, hn⟩ : ∃ n, s.polls = n + 1 + 1 := ⟨s.polls - 2, by omega⟩
  have hinit : Epochs.init cfg dev depth s.host =
      (true, { s.host with calls := s.calls + (2 + depth * 9) }) := by
    rw [Epochs.init, if_neg, Epochs.calls_ok hok]
    · rfl
    · rintro (h1 | h2 | h3)
      · exact hpatterns h1
      · omega
      · exact h3.elim hT hblock
  rw [harvests, (run_shows hne s).select (g := EpochEvent.harvested?) fun e => by cases e <;> rfl]
  refine List.mem_filterMap.mpr ⟨.harvested _ _, ?_, rfl⟩
  rw [Epochs.run, hinit, show s.host.polls = n + 1 + 1 from hn]
  dsimp only
  rw [if_neg Bool.noConfusion, Epochs.start_succ (n := n + 1) hn, Epochs.calls_ok hok]
  -- the epoch is waited for in the first round, and its hits are copied
  refine List.mem_append_left _ (List.mem_append_left _ ?_)
  rw [Epochs.drain, Epochs.calls_ok hok]
  dsimp only
  rw [if_neg fun hc => hc.elim (fun h => Bool.noConfusion h) hm, Epochs.harvest,
    Epochs.calls_ok hok]
  exact List.mem_cons_self

end
end CudaEngine

end Onion
