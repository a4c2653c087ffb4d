import Onion.Engine.Epochs
import Onion.Engine.Pipelined

/-!
# Double buffering changes nothing

The run beside streams that get on at any time, and the run over slots that are filled at once, show
the same sequence of epochs.

* `tick_host`, `enqueue_host`, `synchronize_host`   what the actions count;
* `tryStart_host`, `drainEpoch_shows`   epochs;
* `run_shows`          a run;
* `double_buffered`    both runs.
-/

namespace Onion
open Logged

/-- what is seen of the log -/
def PipelineEvent.shown? : PipelineEvent → Option EpochEvent
  | .harvested draw launch => some (.harvested draw launch)
  | .push p => some (.push p)
  | _ => none

def PipelineEvent.push? : PipelineEvent → Option Push
  | .push p => some p
  | _ => none

theorem PipelineEvent.shown?_background : ∀ e : PipelineEvent, e.Background → e.shown? = none :=
  background_none (fun _ => rfl) (fun _ _ => rfl) fun _ => rfl

def AsyncState.host {depth : Nat} (s : AsyncState depth) : HostThread := ⟨s.rng, s.polls, s.calls⟩

namespace Pipeline

def pushes {α : Type} (x : Pipe α) : List Push := select PipelineEvent.push? x

section
variable {depth : Nat} {h : Host} {cfg : CudaConfig}
  {dev : Device cfg.threads cfg.kStepsPerThread} {m : Timing depth} {slot : Fin depth}
  {q : Queued PinnedSlot StreamOp} {s r : AsyncState depth}

/-! ## the actions -/

theorem advance_host (slot : Fin depth) (s : AsyncState depth) :
    (advance cfg dev slot s).val.host = s.host := by
  rw [advance]
  split <;> rfl

theorem tick_host (s : AsyncState depth) : (tick cfg dev m s).val.host = s.host := by
  have hloop : ∀ (js : List (Fin depth)) (t : AsyncState depth),
      (forEach (advance cfg dev) js t).val.host = t.host := by
    intro js t
    exact (Holds.forEach (G := fun _ => True) (fun u : AsyncState depth => u.host = t.host) rfl
      fun j _ u hu => ⟨fun _ _ => trivial, (advance_host j u).trans hu⟩).2
  exact hloop (m.ticks s.clock) { s with clock := s.clock + 1 }

theorem write_host (f : PinnedSlot → PinnedSlot) (s : AsyncState depth) :
    (write cfg dev m slot f s).val.host = s.host := tick_host s

variable (dev m slot) in
theorem enqueue_host (op : Nat → StreamOp) (s : AsyncState depth) :
    ((enqueue cfg dev m slot op s).val.1, (enqueue cfg dev m slot op s).val.2.host) =
      Epochs.calls dev.ok 1 s.host := by
  have htick : (tick cfg dev m s).val.host = s.host := tick_host s
  rw [Epochs.calls_one, ← htick, enqueue, bind_val]
  generalize (tick cfg dev m s).val = t
  dsimp only
  split
  · rename_i hok
    exact Prod.ext hok.symm rfl
  · rename_i hok
    exact Prod.ext (Bool.eq_false_iff.mpr hok).symm rfl

variable (dev m slot) in
theorem synchronize_host (s : AsyncState depth) :
    ((synchronize cfg dev m slot s).val.1, (synchronize cfg dev m slot s).val.2.host) =
      Epochs.calls dev.ok 1 s.host := by
  have htick : (tick cfg dev m s).val.host = s.host := tick_host s
  rw [Epochs.calls_one, ← htick, synchronize, bind_val]
  generalize (tick cfg dev m s).val = t
  have hloop : ∀ n, (forUp (fun _ => advance cfg dev slot) n t).val.host = t.host := by
    intro n
    exact (Holds.forUp (G := fun _ => True) (fun _ (u : AsyncState depth) => u.host = t.host) n rfl
      fun i u _ hu => ⟨fun _ _ => trivial, (advance_host slot u).trans hu⟩).2
  have hhost := hloop (if dev.ok t.calls then t.slots[slot].queue.length
    else min (m.kept t.calls) t.slots[slot].queue.length)
  rw [bind_val]
  generalize (forUp (fun _ => advance cfg dev slot) _ t).val = u at hhost ⊢
  have hrng : u.rng = t.rng := congrArg HostThread.rng hhost
  have hpolls : u.polls = t.polls := congrArg HostThread.polls hhost
  show (dev.ok t.calls, (⟨u.rng, u.polls, t.calls + 1⟩ : HostThread)) = _
  rw [hrng, hpolls]
  rfl

/-! ## starts -/

theorem unless_host {t : Bool × AsyncState depth} {x : Pipe (Bool × AsyncState depth)} {n k : Nat}
    {v : HostThread} (ht : (t.1, t.2.host) = Epochs.calls dev.ok n v)
    (hx : (x.val.1, x.val.2.host) = Epochs.calls dev.ok k t.2.host) :
    ((if ¬ t.1 then pure t else x : Pipe (Bool × AsyncState depth)).val.1,
      (if ¬ t.1 then pure t else x : Pipe (Bool × AsyncState depth)).val.2.host) =
      Epochs.calls dev.ok (n + k) v := by
  rw [Epochs.calls_add, ← ht]
  cases h1 : t.1 with
  | true => exact hx
  | false => exact Prod.ext h1 rfl

theorem setupEpoch_host (draw : Nat) (a0 : Bytes 32) (s : AsyncState depth) :
    ((setupEpoch cfg dev m slot draw a0 s).val.1, (setupEpoch cfg dev m slot draw a0 s).val.2.host) =
      Epochs.calls dev.ok 3 s.host := by
  rw [setupEpoch, bind_val, bind_val, bind_val, bind_val, bind_val]
  refine unless_host (n := 1) (k := 2) ?_ (unless_host (n := 1) (k := 1) ?_ ?_)
  · rw [enqueue_host, write_host, write_host, write_host]
  · rw [enqueue_host]
  · rw [bind_val, enqueue_host, write_host]

theorem launchEpoch_host (s : AsyncState depth) :
    ((launchEpoch cfg dev m slot s).val.1, (launchEpoch cfg dev m slot s).val.2.host) =
      Epochs.calls dev.ok 2 s.host := by
  rw [launchEpoch, bind_val]
  refine unless_host (n := 1) (k := 1) ?_ ?_
  · rw [enqueue_host]
  · exact enqueue_host dev m slot _ _

theorem noteStart_val (draw launch : Nat) (t : Bool × AsyncState depth) :
    (noteStart draw launch t).val = t := by
  rw [noteStart]
  split <;> rfl

theorem startEpoch_host (h : Host) (dev : Device cfg.threads cfg.kStepsPerThread) (m : Timing depth)
    (slot : Fin depth) (s : AsyncState depth) :
    ((startEpoch h cfg dev m slot s).val.1, (startEpoch h cfg dev m slot s).val.2.host) =
      Epochs.calls dev.ok 5 { s.host with rng := s.rng + 1 } := by
  rw [startEpoch, bind_val]
  refine unless_host (n := 3) (k := 2) ?_ ?_
  · exact setupEpoch_host _ _ { s with rng := s.rng + 1 }
  · rw [bind_val, noteStart_val]
    exact launchEpoch_host _

theorem tryStart_host (h : Host) (dev : Device cfg.threads cfg.kStepsPerThread) (m : Timing depth)
    (slot : Fin depth) (s : AsyncState depth) :
    (tryStart h cfg dev m slot s).val.2.host = (Epochs.start dev.ok s.host).2 ∧
      (tryStart h cfg dev m slot s).val.1 = (Epochs.start dev.ok s.host).1.isSome := by
  cases hp : s.polls with
  | zero =>
    rw [Epochs.start_zero hp, tryStart, hp]
    exact ⟨rfl, rfl⟩
  | succ polls =>
    have hhost := startEpoch_host h dev m slot { s with polls := polls }
    rw [Epochs.start_succ hp, tryStart, hp]
    dsimp only
    rw [bind_val]
    generalize (startEpoch h cfg dev m slot { s with polls := polls }).val = x at hhost ⊢
    have hcalls : (x.1, x.2.host) = Epochs.calls dev.ok 5
      { s.host with rng := s.host.rng + 1, polls := polls } := hhost
    rw [← hcalls]
    cases hx : x.1 with
    | true => exact ⟨rfl, hx⟩
    | false =>
      cases hp' : x.2.polls with
      | zero => exact ⟨Epochs.no_poll (v := x.2.host) hp', hx⟩
      | succ n => exact ⟨Epochs.one_poll (v := x.2.host) hp', rfl⟩

/-! ## drains -/

theorem pushHit_shows (x : PipelineSlot) (hit : HitSlot) (rng : Nat) :
    Refines PipelineEvent.shown? (fun r r' => r = r') (pushHit h cfg x hit rng)
      ((CudaEngine.recordedHit h cfg x hit).elim (pure rng) fun y => Epochs.pushHit h y rng) := by
  simp only [pushHit, CudaEngine.recordedHit, pubkeyFromScalar]
  cases h.baseNoclamp (scalarAdd8i x.slotA0 (CudaEngine.hitIndex cfg.threads hit)) with
  | none => exact Refines.pure rfl
  | some pk => exact ⟨rfl, rfl⟩

theorem harvest_shows {x : PipelineSlot} (hl : CudaEngine.Launched h cfg dev x) (s : AsyncState depth) :
    Refines PipelineEvent.shown? (fun t v => t.2.host = v) (harvest h cfg dev x s)
      (Epochs.harvest h cfg dev (x.draw, x.launch) s.host) := by
  rw [harvest, Epochs.harvest, Epochs.calls_one, show s.host.calls = s.calls from rfl]
  dsimp only
  cases dev.ok s.calls with
  | false => exact Refines.pure rfl
  | true =>
    refine Refines.bind (R := fun _ _ => True) ⟨rfl, trivial⟩ fun _ => ?_
    rw [← hl.hits]
    refine Refines.bind (Refines.forEach rfl fun hit t rng ht => ?_) fun ht => Refines.pure ?_
    · rw [ht]
      exact pushHit_shows x hit rng
    · rw [ht]
      rfl

theorem readBack_shows {d : Nat × Nat} {t : Bool × AsyncState depth}
    (hl : t.1 = true → CudaEngine.Launched h cfg dev (t.2.slots[slot]).now.toPipelineSlot ∧
      ((t.2.slots[slot]).now.draw, (t.2.slots[slot]).now.launch) = d) :
    Refines PipelineEvent.shown? (fun u v => u.2.host = v) (readBack h cfg dev slot t)
      (if t.1 = false ∨ CudaEngine.launchMatches h cfg dev d = [] then pure t.2.host
      else Epochs.harvest h cfg dev d t.2.host) := by
  rw [readBack]
  cases ht : t.1 with
  | false => exact Refines.pure rfl
  | true =>
    obtain ⟨hl, hepoch⟩ := hl ht
    rw [if_neg (not_not.mpr rfl)]
    have hempty := hl.empty
    rw [hepoch] at hempty
    by_cases h0 : (t.2.slots[slot]).now.hHitCount = 0
    · rw [if_pos h0, if_pos (Or.inr (hempty.mp h0))]
      exact Refines.pure rfl
    · rw [if_neg h0, if_neg]
      · have hharvest := harvest_shows hl
          (update slot (Queued.write fun x => { x with undrained := false }) t.2)
        rw [hepoch] at hharvest
        exact hharvest
      · rintro (hfail | hnil)
        · cases hfail
        · exact h0 (hempty.mpr hnil)

/-- **`drain_epoch`** shows that the epoch in flight is drained. -/
theorem drainEpoch_shows {d : Nat × Nat} (hr : At cfg dev slot q s r) (hd : InFlight h cfg dev d q) :
    Refines PipelineEvent.shown? (fun t v => t.2.host = v) (drainEpoch h cfg dev m slot r)
      (Epochs.drain h cfg dev d r.host) := by
  have hsync := synchronize_at (m := m) hr
  have hquiet : select PipelineEvent.shown? (synchronize cfg dev m slot r) = [] :=
    hsync.select_eq_nil fun e he => PipelineEvent.shown?_background e he.2
  have hhost : _ = Epochs.calls dev.ok 1 r.host := synchronize_host dev m slot r
  obtain ⟨-, -, -, -, hepoch, hdone⟩ := hsync.2
  rw [drainEpoch, Epochs.drain, ← hhost]
  refine Refines.after hquiet (Refines.before (readBack_shows fun hok => ⟨?_, ?_⟩)
    fun hval => ⟨rfl, hval⟩)
  · rw [hdone hok]
    exact hd.done.1
  · exact hepoch.trans hd.epoch

/-! ## a run -/

variable [NeZero depth] {cur : Fin depth}

/-- `t` is at the head of the loop, with the epoch of `u` in flight -/
structure Shows (h : Host) (cfg : CudaConfig) (dev : Device cfg.threads cfg.kStepsPerThread)
    (slot : Fin depth) (t : Bool × AsyncState depth) (u : Option (Nat × Nat) × HostThread) : Prop where
  host : t.2.host = u.2
  live : t.1 = u.1.isSome
  epoch : ∀ d ∈ u.1, Ready h cfg dev d slot t.2

omit [NeZero depth] in
theorem Head.ready {d : Nat × Nat} {t : Bool × AsyncState depth} (ht : Head h cfg dev cur [d] t) :
    Ready h cfg dev d cur t.2 := by
  cases ht with
  | live hs => exact hs

theorem round_shows {d : Nat × Nat} (hne : cur ≠ cur + 1) (hs : Ready h cfg dev d cur s) :
    Refines PipelineEvent.shown? (Shows h cfg dev (cur + 1)) (round h cfg dev m cur s)
      (Epochs.round h cfg dev d s.host) := by
  obtain ⟨y, hy, hyu⟩ := hs.idle (cur + 1) hne.symm
  have hquiet := tryStart_quiet (h := h) (m := m) PipelineEvent.shown?_background (fun _ _ => rfl)
    hs.meets hy hyu
  obtain ⟨-, -, -, hmeets, hothers, hlive⟩ := tryStart_at (h := h) (m := m) hs.meets hy hyu
  obtain ⟨hhost, hsome⟩ := tryStart_host h dev m (cur + 1) s
  rw [round, Epochs.round]
  refine Refines.after hquiet ?_
  generalize (tryStart h cfg dev m (cur + 1) s).val = next at hmeets hothers hlive hhost hsome ⊢
  have hat := At.refl cur hmeets
  have hdrain := drainEpoch_shows (m := m) hat (hs.flight.later (hothers cur hne))
  obtain ⟨-, ⟨z, hz, hzu⟩, hothers', hrng', -⟩ := drainEpoch_at (h := h) (m := m) hat
  rw [hhost] at hdrain
  refine Refines.bind hdrain fun hv => Refines.pure ⟨hv, hsome, fun e he => ?_⟩
  -- the next epoch is in flight while this one is drained
  have hok : next.1 = true := hsome.trans (Option.isSome_of_mem he)
  obtain ⟨-, hlt, hflight⟩ := hlive hok
  rw [Epochs.start_epoch he]
  exact hs.next hne hothers hflight hz hzu hothers' (hlt.trans_le hrng')

theorem loop_shows (hne : ∀ c : Fin depth, c ≠ c + 1) (fuel : Nat) (cur : Fin depth)
    (t : Bool × AsyncState depth) (u : Option (Nat × Nat) × HostThread) (ht : Shows h cfg dev cur t u) :
    Refines PipelineEvent.shown? (fun s v => s.host = v) (loop h cfg dev m fuel cur t)
      (Epochs.loop h cfg dev fuel u) := by
  induction fuel generalizing cur t u with
  | zero => exact Refines.pure ht.host
  | succ fuel ih =>
    obtain ⟨live, s⟩ := t
    obtain ⟨epoch, v⟩ := u
    obtain rfl : s.host = v := ht.host
    cases epoch with
    | none =>
      obtain rfl : live = false := ht.live
      exact Refines.pure rfl
    | some d =>
      obtain rfl : live = true := ht.live
      have hs := ht.epoch d rfl
      rw [loop, Epochs.loop, if_neg (not_not.mpr rfl), show s.host.polls = s.polls from rfl]
      cases s.polls with
      | zero => exact Refines.after rfl (Refines.pure rfl)
      | succ polls =>
        have hround := round_shows (m := m) (s := { s with polls := polls }) (hne cur)
          ⟨hs.flight, hs.idle, hs.rng⟩
        exact Refines.after rfl (Refines.bind hround fun hnext => ih (cur + 1) _ _ hnext)

omit [NeZero depth] in
theorem allocate_host (n : Nat) (s : AsyncState depth) :
    ((allocate cfg dev n s).1, (allocate cfg dev n s).2.host) = Epochs.calls dev.ok n s.host := by
  induction n generalizing s with
  | zero => rfl
  | succ n ih =>
    rw [allocate, Epochs.calls, show s.host.calls = s.calls from rfl]
    cases dev.ok s.calls with
    | true => exact ih { s with calls := s.calls + 1 }
    | false => rfl

variable (dev) in
omit [NeZero depth] in
theorem init_host (s : AsyncState depth) :
    ((init cfg dev s).1, (init cfg dev s).2.host) = Epochs.init cfg dev depth s.host := by
  rw [init, Epochs.init]
  split
  · rw [if_pos (Or.inl ‹_›)]
  · split
    · rw [if_pos (Or.inr (Or.inl ‹_›))]
    · split
      · rw [if_pos (Or.inr (Or.inr ‹_›))]
      · rw [if_neg]
        · exact allocate_host _ s
        · rintro (h1 | h2 | h3)
          · contradiction
          · contradiction
          · contradiction

/-- **A run beside streams** shows the epochs. -/
theorem run_shows (hne : ∀ c : Fin depth, c ≠ c + 1) (polls : Nat) (slots : Vector PinnedSlot depth) :
    Refines PipelineEvent.shown? (fun s v => s.host = v) (run h cfg dev m (start polls slots))
      (Epochs.run h cfg dev depth ⟨0, polls, 0⟩) := by
  have hinit := init_host dev (start polls slots)
  have hidle := init_idle dev polls slots
  rw [run, Epochs.run]
  rw [show (⟨0, polls, 0⟩ : HostThread) = (start polls slots).host from rfl, ← hinit]
  generalize init cfg dev (start polls slots) = r at hidle ⊢
  dsimp only
  cases hr : r.1 with
  | false => exact Refines.pure rfl
  | true =>
    obtain ⟨x, hx, hxu⟩ := hidle 0
    have hmeets := idle_meets dev hidle
    have hquiet := tryStart_quiet (h := h) (m := m) PipelineEvent.shown?_background (fun _ _ => rfl)
      hmeets hx hxu
    obtain ⟨hhost, hsome⟩ := tryStart_host h dev m 0 r.2
    refine Refines.after hquiet (loop_shows hne polls 0 _ _ ⟨hhost, hsome, fun d hd => ?_⟩)
    have hhead := tryStart_head (h := h) (m := m) dev hidle
    rw [tryStart_starts hmeets hx hxu, if_pos (hsome.trans (Option.isSome_of_mem hd))] at hhead
    rw [Epochs.start_epoch hd]
    exact hhead.ready

end
end Pipeline

/-- **Double buffering changes nothing.**  Whatever the streams do and whichever calls fail, the run
beside streams reads the same launches back as the run over slots that are filled at once, and pushes
the same candidates in the same order; both are the run over epochs. -/
theorem double_buffered (h : Host) (cfg : CudaConfig)
    (dev : Device cfg.threads cfg.kStepsPerThread) (m : Timing kPipelineDepth) (polls : Nat)
    (slots : Vector PinnedSlot kPipelineDepth) (s : CudaState kPipelineDepth) :
    let a := Pipeline.run h cfg dev m (Pipeline.start polls slots)
    let r := CudaEngine.run h cfg dev { s with rng := 0, polls := polls, calls := 0 }
    let e := Epochs.run h cfg dev kPipelineDepth ⟨0, polls, 0⟩
    Refines PipelineEvent.shown? (fun t v => t.host = v) a e ∧
    Refines EngineEvent.shown? (fun t v => t.host = v) r e ∧
    Pipeline.pushes a = pushes r ∧ Pipeline.harvests a = harvests r := by
  intro a r e
  have ha : Refines PipelineEvent.shown? (fun t v => t.host = v) a e :=
    Pipeline.run_shows kPipelineDepth_ne polls slots
  have hr : Refines EngineEvent.shown? (fun t v => t.host = v) r e :=
    CudaEngine.run_shows kPipelineDepth_ne { s with rng := 0, polls := polls, calls := 0 }
  refine ⟨ha, hr, ?_, ?_⟩
  · rw [pushes, hr.select (g := EpochEvent.push?) fun e => by cases e <;> rfl, Pipeline.pushes]
    exact ha.select fun e => by cases e <;> rfl
  · rw [harvests, hr.select (g := EpochEvent.harvested?) fun e => by cases e <;> rfl, Pipeline.harvests]
    exact ha.select fun e => by cases e <;> rfl

end Onion
