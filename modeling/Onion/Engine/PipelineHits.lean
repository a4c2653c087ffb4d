import Onion.Engine.PipelineRuns

/-!
# What the pipelined loop pushes

* `hits`, `harvests`, `starts`, `drains`, `stops`   parts of the log;
* `Harvesting`    what is pushed: the hits of every drained epoch, unless a call of its drain fails;
* `drainEpoch_at`, `drainEpoch_run`   a drain leaves the slot idle, and harvests the epoch that was
                  in flight on it;
* `tryStart_at`, `tryStart_starts`    a start on an idle slot.
-/

namespace Onion
open Logged

/-- an epoch that is drained, and the number of the call that waits for it; the copy of its hits, if
there are any, is the next call -/
structure Drain where
  epoch : Nat × Nat
  call : Nat

namespace PipelineEvent

def hit? : PipelineEvent → Option Hit
  | .push p => some p.hit
  | _ => none

def harvested? : PipelineEvent → Option (Nat × Nat)
  | .harvested draw launch => some (draw, launch)
  | _ => none

def started? : PipelineEvent → Option (Nat × Nat)
  | .started draw launch => some (draw, launch)
  | _ => none

def drained? : PipelineEvent → Option Drain
  | .drained draw launch call => some ⟨(draw, launch), call⟩
  | _ => none

def stopped? : PipelineEvent → Option (Nat × Nat)
  | .turn draw launch true => some (draw, launch)
  | _ => none

theorem background_none {γ : Type} {f : PipelineEvent → Option γ}
    (hm : ∀ e, f (.machine e) = none) (hx : ∀ op c, f (.exec op c) = none)
    (hw : ∀ u, f (.write u) = none) (e : PipelineEvent) (he : e.Background) : f e = none := by
  cases e with
  | machine e => exact hm e
  | exec op c => exact hx op c
  | write u => exact hw u
  | _ => exact he.elim

theorem hit?_background : ∀ e : PipelineEvent, e.Background → e.hit? = none :=
  background_none (fun _ => rfl) (fun _ _ => rfl) fun _ => rfl

theorem harvested?_background : ∀ e : PipelineEvent, e.Background → e.harvested? = none :=
  background_none (fun _ => rfl) (fun _ _ => rfl) fun _ => rfl

theorem started?_background : ∀ e : PipelineEvent, e.Background → e.started? = none :=
  background_none (fun _ => rfl) (fun _ _ => rfl) fun _ => rfl

theorem drained?_background : ∀ e : PipelineEvent, e.Background → e.drained? = none :=
  background_none (fun _ => rfl) (fun _ _ => rfl) fun _ => rfl

theorem stopped?_background : ∀ e : PipelineEvent, e.Background → e.stopped? = none :=
  background_none (fun _ => rfl) (fun _ _ => rfl) fun _ => rfl

end PipelineEvent

/-- both calls of the drain succeed, and there are hits -/
def Drain.reads (h : Host) (cfg : CudaConfig) (dev : Device cfg.threads cfg.kStepsPerThread)
    (d : Drain) : Bool :=
  dev.ok d.call && dev.ok (d.call + 1) && !(CudaEngine.launchMatches h cfg dev d.epoch).isEmpty

namespace Pipeline

section
variable {α : Type}

def hits (x : Pipe α) : List Hit := select PipelineEvent.hit? x

/-- the epochs whose hits are read back: the draw of the base scalar, and the launch -/
def harvests (x : Pipe α) : List (Nat × Nat) := select PipelineEvent.harvested? x

def starts (x : Pipe α) : List (Nat × Nat) := select PipelineEvent.started? x

def drains (x : Pipe α) : List Drain := select PipelineEvent.drained? x

/-- the epoch whose turn meets the stop -/
def stops (x : Pipe α) : List (Nat × Nat) := select PipelineEvent.stopped? x

end

/-- the hits of every drained epoch are read back and pushed, unless a call of its drain fails -/
structure Harvesting (h : Host) (cfg : CudaConfig) (dev : Device cfg.threads cfg.kStepsPerThread)
    {α : Type} (x : Pipe α) : Prop where
  harvests : harvests x = ((drains x).filter (Drain.reads h cfg dev)).map Drain.epoch
  hits : hits x = (Pipeline.harvests x).flatMap (CudaEngine.launchHits h cfg dev)

section
variable {depth : Nat} {h : Host} {cfg : CudaConfig}
  {dev : Device cfg.threads cfg.kStepsPerThread} {m : Timing depth} {slot : Fin depth}
  {q : Queued PinnedSlot StreamOp} {s r : AsyncState depth}

/-! ## harvests -/

theorem Harvesting.quiet {α : Type} {x : Pipe α} (hd : drains x = []) (hv : Pipeline.harvests x = [])
    (hh : Pipeline.hits x = []) : Harvesting h cfg dev x := by
  refine ⟨?_, ?_⟩
  · rw [hv, hd]
    rfl
  · rw [hh, hv]
    rfl

/-- it is about the drains, the harvests and the hits only -/
theorem Harvesting.of_select {α β : Type} {x : Pipe α} {y : Pipe β} (hx : Harvesting h cfg dev x)
    (hd : drains y = drains x) (hv : Pipeline.harvests y = Pipeline.harvests x)
    (hh : Pipeline.hits y = Pipeline.hits x) : Harvesting h cfg dev y :=
  ⟨by rw [hv, hd, hx.harvests], by rw [hh, hv, hx.hits]⟩

theorem Harvesting.bind {α β : Type} {x : Pipe α} {f : α → Pipe β} (hx : Harvesting h cfg dev x)
    (hf : Harvesting h cfg dev (f x.val)) : Harvesting h cfg dev (x >>= f) := by
  have hharvests : Pipeline.harvests (x >>= f) =
    Pipeline.harvests x ++ Pipeline.harvests (f x.val) := select_bind x f
  have hdrains : drains (x >>= f) = drains x ++ drains (f x.val) := select_bind x f
  have hhits : Pipeline.hits (x >>= f) = Pipeline.hits x ++ Pipeline.hits (f x.val) := select_bind x f
  refine ⟨?_, ?_⟩
  · rw [hharvests, hdrains, List.filter_append, List.map_append, ← hx.harvests, ← hf.harvests]
  · rw [hhits, hharvests, List.flatMap_append, ← hx.hits, ← hf.hits]

/-- when no call fails, nothing is lost -/
theorem Harvesting.complete {α : Type} {x : Pipe α} (hx : Harvesting h cfg dev x)
    (hok : ∀ n, dev.ok n = true) : Pipeline.hits x =
      ((drains x).map Drain.epoch).flatMap (CudaEngine.launchHits h cfg dev) := by
  rw [hx.hits, hx.harvests]
  induction drains x with
  | nil => rfl
  | cons d ds ih =>
    rw [List.filter_cons, List.map_cons, List.flatMap_cons]
    split
    · rw [List.map_cons, List.flatMap_cons, ih]
    · rename_i hreads
      have hnil : CudaEngine.launchMatches h cfg dev d.epoch = [] := by
        simpa [Drain.reads, hok] using hreads
      rw [ih, CudaEngine.launchHits, hnil]
      rfl

theorem pushHit_safe (x : PipelineSlot) (hit : HitSlot) (rng : Nat) :
    Safely (pushHit h cfg x hit rng) fun r => rng ≤ r := by
  simp only [pushHit]
  cases pubkeyFromScalar h.baseNoclamp _ with
  | none => exact Holds.pure le_rfl
  | some pk => exact (log_holds (e := .push _) trivial).bind fun _ _ => Holds.pure (Nat.le_succ rng)

theorem pushHit_hits (x : PipelineSlot) (hit : HitSlot) (rng : Nat) :
    hits (pushHit h cfg x hit rng) = (CudaEngine.recordedHit h cfg x hit).toList := by
  simp only [pushHit, CudaEngine.recordedHit, pubkeyFromScalar]
  cases h.baseNoclamp (scalarAdd8i x.slotA0 (CudaEngine.hitIndex cfg.threads hit)) <;> rfl

theorem pushHit_select {γ : Type} {f : PipelineEvent → Option γ} (hf : ∀ p, f (.push p) = none)
    (x : PipelineSlot) (hit : HitSlot) (rng : Nat) : select f (pushHit h cfg x hit rng) = [] := by
  simp only [pushHit]
  cases pubkeyFromScalar h.baseNoclamp _ with
  | none => rfl
  | some pk =>
    rw [select_bind, select_log, hf]
    rfl

theorem harvest_safe (x : PipelineSlot) (s : AsyncState depth) :
    Safely (harvest h cfg dev x s) fun t => t.2.slots = s.slots ∧ s.rng ≤ t.2.rng ∧
      t.2.polls = s.polls := by
  rw [harvest]
  split
  · exact Holds.pure ⟨rfl, le_rfl, rfl⟩
  · refine (log_holds (e := .harvested _ _) trivial).bind fun _ _ => ?_
    refine (Holds.forEach (fun rng => s.rng ≤ rng) le_rfl fun hit _ rng hrng =>
      (pushHit_safe x hit rng).mono fun r hr => hrng.trans hr).bind fun rng hrng =>
        Holds.pure ⟨rfl, hrng, rfl⟩

theorem harvest_select {γ : Type} {f : PipelineEvent → Option γ} (hf : ∀ p, f (.push p) = none)
    (x : PipelineSlot) (s : AsyncState depth) : select f (harvest h cfg dev x s) =
      if dev.ok s.calls then (f (.harvested x.draw x.launch)).toList else [] := by
  rw [harvest]
  split
  · rfl
  · rename_i hok
    rw [if_pos (not_not.mp hok), select_bind, select_log, select_bind,
      select_forEach fun hit _ rng => pushHit_select hf x hit rng]
    have hnil : ((CudaEngine.recorded x).flatMap fun _ => ([] : List γ)) = [] :=
      List.flatMap_eq_nil_iff.mpr fun _ _ => rfl
    rw [hnil, select_pure, List.append_nil, List.append_nil]

theorem harvest_hits (x : PipelineSlot) (s : AsyncState depth) : hits (harvest h cfg dev x s) =
    if dev.ok s.calls then
      (CudaEngine.recorded x).filterMap (CudaEngine.recordedHit h cfg x) else [] := by
  rw [harvest]
  split
  · rfl
  · rename_i hok
    rw [if_pos (not_not.mp hok), hits, select_bind, select_log, select_bind,
      select_forEach fun hit _ rng => pushHit_hits x hit rng, select_pure, List.append_nil,
      List.filterMap_eq_flatMap_toList]
    rfl

/-! ## draining an epoch -/

theorem readBack_safe {t : Bool × AsyncState depth} (ht : At cfg dev slot q s t.2)
    (hnil : (t.2.slots[slot]).queue = []) :
    Safely (readBack h cfg dev slot t) fun u =>
      (∃ x, u.2.slots[slot] = ⟨x, []⟩ ∧ x.undrained = false) ∧
      (∀ j ≠ slot, Queued.Later (exec cfg dev) s.slots[j] u.2.slots[j]) ∧
      s.rng ≤ u.2.rng ∧ u.2.polls = s.polls := by
  have hidle : ∀ u : AsyncState depth, u.slots = (update slot
      (Queued.write fun x => { x with undrained := false }) t.2).slots →
      (∃ x, u.slots[slot] = ⟨x, []⟩ ∧ x.undrained = false) ∧
        ∀ j ≠ slot, Queued.Later (exec cfg dev) s.slots[j] u.slots[j] := by
    intro u hu
    have hget : ∀ j : Fin depth, u.slots[j] = (update slot
        (Queued.write fun x => { x with undrained := false }) t.2).slots[j] := fun j => by rw [hu]
    refine ⟨⟨{ (t.2.slots[slot]).now with undrained := false }, ?_, rfl⟩, fun j hj => ?_⟩
    · rw [hget, update_self, Queued.write, hnil]
    · rw [hget, update_other hj]
      exact ht.others j hj
  rw [readBack]
  split
  · obtain ⟨h1, h2⟩ := hidle _ rfl
    exact Holds.pure ⟨h1, h2, ht.rng.ge, ht.polls⟩
  · split
    · obtain ⟨h1, h2⟩ := hidle _ rfl
      exact Holds.pure ⟨h1, h2, ht.rng.ge, ht.polls⟩
    · refine (harvest_safe _ _).mono fun u ⟨hu, hrng, hpolls⟩ => ?_
      obtain ⟨h1, h2⟩ := hidle u.2 hu
      exact ⟨h1, h2, ht.rng.ge.trans hrng, hpolls.trans ht.polls⟩

/-- **`drain_epoch`** leaves the slot idle. -/
theorem drainEpoch_at (hr : At cfg dev slot q s r) :
    Safely (drainEpoch h cfg dev m slot r) fun t =>
      (∃ x, t.2.slots[slot] = ⟨x, []⟩ ∧ x.undrained = false) ∧
      (∀ j ≠ slot, Queued.Later (exec cfg dev) s.slots[j] t.2.slots[j]) ∧
      s.rng ≤ t.2.rng ∧ t.2.polls = s.polls :=
  (synchronize_at hr).safely.bind fun _ ⟨_, ht, hnil, _⟩ =>
    (readBack_safe ht hnil).bind fun _ hu =>
      (log_holds (e := .drained _ _ _) trivial).bind fun _ _ => Holds.pure hu

/-- reading back tells of nothing but the hits -/
theorem readBack_select {γ : Type} {f : PipelineEvent → Option γ} (hp : ∀ p, f (.push p) = none)
    (hh : ∀ draw launch, f (.harvested draw launch) = none) (t : Bool × AsyncState depth) :
    select f (readBack h cfg dev slot t) = [] := by
  rw [readBack]
  split
  · rfl
  · split
    · rfl
    · rw [harvest_select hp, hh]
      split <;> rfl

variable (dev slot) in
/-- the hits of a launched slot are read back if the wait and the copy succeed -/
theorem readBack_run {t : Bool × AsyncState depth} (d : Drain) (hok : t.1 = dev.ok d.call)
    (hcalls : t.2.calls = d.call + 1)
    (hepoch : ((t.2.slots[slot]).now.draw, (t.2.slots[slot]).now.launch) = d.epoch)
    (hl : t.1 = true → CudaEngine.Launched h cfg dev (t.2.slots[slot]).now.toPipelineSlot) :
    let x := readBack h cfg dev slot t
    harvests x = ([d].filter (Drain.reads h cfg dev)).map Drain.epoch ∧
      hits x = (harvests x).flatMap (CudaEngine.launchHits h cfg dev) := by
  intro x
  show harvests (readBack h cfg dev slot t) = _ ∧ hits (readBack h cfg dev slot t) =
    (harvests (readBack h cfg dev slot t)).flatMap _
  rw [readBack, List.filter_singleton, Drain.reads, ← hok]
  split
  · rename_i hfail
    rw [Bool.eq_false_iff.mpr hfail]
    exact ⟨rfl, rfl⟩
  · rename_i hsync
    have hsync : t.1 = true := not_not.mp hsync
    have hempty := (hl hsync).empty
    rw [hepoch] at hempty
    rw [hsync, Bool.true_and]
    split
    · rename_i h0
      rw [hempty.mp h0, List.isEmpty_nil, Bool.not_true, Bool.and_false]
      exact ⟨rfl, rfl⟩
    · rename_i h0
      have hne := List.isEmpty_eq_false_iff.mpr (mt hempty.mpr h0)
      rw [hne, Bool.not_false, Bool.and_true, harvest_hits, (hl hsync).hits, hepoch, harvests,
        harvest_select fun _ => rfl, show PipelineEvent.harvested? (.harvested
          (t.2.slots[slot]).now.draw (t.2.slots[slot]).now.launch) = some d.epoch from
          congrArg some hepoch]
      show (if dev.ok t.2.calls then [d.epoch] else []) = _ ∧ (if dev.ok t.2.calls then _ else []) =
        (if dev.ok t.2.calls then [d.epoch] else []).flatMap _
      rw [hcalls]
      cases dev.ok (d.call + 1) with
      | true => exact ⟨rfl, (List.flatMap_singleton _ _).symm⟩
      | false => exact ⟨rfl, rfl⟩

/-- a drain of the epoch in flight -/
theorem drainEpoch_run {d : Nat × Nat} (hr : At cfg dev slot q s r) (hd : InFlight h cfg dev d q) :
    let x := drainEpoch h cfg dev m slot r
    starts x = [] ∧ stops x = [] ∧ drains x = [⟨d, r.calls⟩] ∧ Harvesting h cfg dev x := by
  have hsync := synchronize_at (m := m) hr
  obtain ⟨hok, -, -, hcalls, hepoch, hdone⟩ := hsync.2
  have hepoch := hepoch.trans hd.epoch
  have hselect : ∀ {γ : Type} {f : PipelineEvent → Option γ}, (∀ e, e.Background → f e = none) →
      select f (drainEpoch h cfg dev m slot r) =
        select f (readBack h cfg dev slot (synchronize cfg dev m slot r).val) ++
          (f (.drained d.1 d.2 r.calls)).toList := by
    intro γ f hf
    rw [drainEpoch, select_bind, hsync.select_eq_nil fun e he => hf e he.2, List.nil_append,
      select_bind, select_bind, select_log, select_pure, List.append_nil, ← hepoch]
  have hrun := readBack_run (h := h) dev slot ⟨d, r.calls⟩ hok hcalls hepoch fun hok => by
    rw [hdone hok]
    exact hd.done.1
  have hharvests := (hselect PipelineEvent.harvested?_background).trans (List.append_nil _)
  have hhits := (hselect PipelineEvent.hit?_background).trans (List.append_nil _)
  have hdrains : drains (drainEpoch h cfg dev m slot r) = [⟨d, r.calls⟩] := by
    rw [drains, hselect PipelineEvent.drained?_background,
      readBack_select (fun _ => rfl) fun _ _ => rfl]
    rfl
  refine ⟨?_, ?_, hdrains, ?_, ?_⟩
  · rw [starts, hselect PipelineEvent.started?_background,
      readBack_select (fun _ => rfl) fun _ _ => rfl]
    rfl
  · rw [stops, hselect PipelineEvent.stopped?_background,
      readBack_select (fun _ => rfl) fun _ _ => rfl]
    rfl
  · rw [harvests, hharvests, hdrains]
    exact hrun.1
  · rw [harvests, hits, hharvests, hhits]
    exact hrun.2

/-! ## trying to start one -/

theorem tryStart_at {x : PinnedSlot}
    (hs : ∀ j : Fin depth, (s.slots[j]).Meets (exec cfg dev) ZeroStart)
    (hslot : s.slots[slot] = ⟨x, []⟩) (hx : x.undrained = false) :
    Safely (tryStart h cfg dev m slot s) fun t => t.2.polls ≤ s.polls ∧ s.rng ≤ t.2.rng ∧
      (∀ j : Fin depth, (t.2.slots[j]).Meets (exec cfg dev) ZeroStart) ∧
      (∀ j ≠ slot, Queued.Later (exec cfg dev) s.slots[j] t.2.slots[j]) ∧
      (t.1 = true → t.2.polls < s.polls ∧ s.rng < t.2.rng ∧
        InFlight h cfg dev (s.rng, s.calls + 3) t.2.slots[slot]) := by
  rw [tryStart]
  split
  · exact Holds.pure ⟨le_rfl, le_rfl, hs, fun _ _ => .refl, nofun⟩
  · rename_i polls hp
    refine (startEpoch_at (s := { s with polls := polls }) hs hslot hx).bind
      fun t ⟨_, hlive, q', ht⟩ => ?_
    have hpolls : t.2.polls = polls := ht.polls
    have hrng : t.2.rng = s.rng + 1 := ht.rng
    split
    · exact Holds.pure ⟨by omega, by omega, ht.all_meet, ht.others,
        fun hok => ⟨by omega, by omega, hlive hok⟩⟩
    · rename_i hok
      split
      · exact Holds.pure ⟨by omega, by omega, ht.all_meet, ht.others, fun h => absurd h hok⟩
      · rename_i polls' hp'
        exact Holds.pure ⟨show polls' ≤ s.polls by omega, show s.rng ≤ t.2.rng by omega,
          ht.all_meet, ht.others, nofun⟩

theorem tryStart_select {γ : Type} {f : PipelineEvent → Option γ} {x : PinnedSlot}
    (hf : ∀ e, e.Background → f e = none)
    (hs : ∀ j : Fin depth, (s.slots[j]).Meets (exec cfg dev) ZeroStart)
    (hslot : s.slots[slot] = ⟨x, []⟩) (hx : x.undrained = false) :
    select f (tryStart h cfg dev m slot s) =
      if (tryStart h cfg dev m slot s).val.1 then (f (.started s.rng (s.calls + 3))).toList
      else [] := by
  rw [tryStart]
  split
  · rfl
  · rename_i polls hp
    rw [select_bind, startEpoch_select (s := { s with polls := polls }) hf hs hslot hx, bind_val]
    by_cases hok : (startEpoch h cfg dev m slot { s with polls := polls }).val.1 = true
    · rw [if_pos hok, if_pos hok]
      exact (List.append_nil _).trans (if_pos hok).symm
    · rw [if_neg hok, if_neg hok]
      split
      · exact (if_neg hok).symm
      · rfl

theorem tryStart_quiet {γ : Type} {f : PipelineEvent → Option γ} {x : PinnedSlot}
    (hf : ∀ e, e.Background → f e = none) (hst : ∀ draw launch, f (.started draw launch) = none)
    (hs : ∀ j : Fin depth, (s.slots[j]).Meets (exec cfg dev) ZeroStart)
    (hslot : s.slots[slot] = ⟨x, []⟩) (hx : x.undrained = false) :
    select f (tryStart h cfg dev m slot s) = [] := by
  rw [tryStart_select hf hs hslot hx, hst]
  split <;> rfl

theorem tryStart_starts {x : PinnedSlot}
    (hs : ∀ j : Fin depth, (s.slots[j]).Meets (exec cfg dev) ZeroStart)
    (hslot : s.slots[slot] = ⟨x, []⟩) (hx : x.undrained = false) :
    starts (tryStart h cfg dev m slot s) =
      if (tryStart h cfg dev m slot s).val.1 then [(s.rng, s.calls + 3)] else [] :=
  tryStart_select PipelineEvent.started?_background hs hslot hx

end

end Pipeline

end Onion
