import Onion.Engine.Pipeline

/-!
# Runs of the pipelined loop

* `At`           what the actions on one slot keep: the slot is a known one with some of its queue
                 done, and the others have at most got on;
* `tick_at`, `write_at`, `enqueue_at`, `synchronize_at`   the actions;
* `InFlight`     a slot between launch and drain, however far its stream has got;
* `startEpoch_at`  the start of an epoch.
-/

namespace Onion
open Logged

/-- no write meets an undrained epoch, and every kernel starts on a zero counter -/
def PipelineEvent.Safe : PipelineEvent → Prop
  | .exec (.kernel _) hitCount => hitCount = 0
  | .write undrained => undrained = false
  | _ => True

/-- the events of the streams, and of the point work and the writes for an epoch -/
def PipelineEvent.Background : PipelineEvent → Prop
  | .machine _ | .exec _ _ | .write _ => True
  | _ => False

abbrev Safely {α : Type} (x : Pipe α) (Q : α → Prop) : Prop := Holds PipelineEvent.Safe x Q

abbrev Quietly {α : Type} (x : Pipe α) (Q : α → Prop) : Prop :=
  Holds (fun e => e.Safe ∧ e.Background) x Q

theorem Quietly.safely {α : Type} {x : Pipe α} {Q : α → Prop} (h : Quietly x Q) : Safely x Q :=
  h.imp fun _ he => he.1

namespace Pipeline

section
variable {depth : Nat} {h : Host} {cfg : CudaConfig}
  {dev : Device cfg.threads cfg.kStepsPerThread} {m : Timing depth}

/-- a kernel starts on a zero counter -/
def ZeroStart (x : PinnedSlot) : StreamOp → Prop
  | .kernel _ => x.buffer.hitCount = 0
  | _ => True

theorem exec_keeps (x : PinnedSlot) (op : StreamOp) : (exec cfg dev x op).draw = x.draw ∧
    (exec cfg dev x op).launch = x.launch ∧ (exec cfg dev x op).undrained = x.undrained := by
  cases op <;> exact ⟨rfl, rfl, rfl⟩

theorem log_holds {G : PipelineEvent → Prop} {e : PipelineEvent} (he : G e) :
    Holds G (log e) fun _ => True :=
  ⟨fun e' h => by rw [List.mem_singleton.mp h]; exact he, trivial⟩

theorem select_log {γ : Type} (f : PipelineEvent → Option γ) (e : PipelineEvent) :
    select f (log e) = (f e).toList := by
  rw [select, log, List.filterMap_cons]
  cases f e <;> rfl

theorem update_self (slot : Fin depth) (f : Queued PinnedSlot StreamOp → Queued PinnedSlot StreamOp)
    (s : AsyncState depth) : (update slot f s).slots[slot] = f s.slots[slot] :=
  Vector.getElem_set_fin_self _ _ _

theorem update_other {slot j : Fin depth} (hj : j ≠ slot)
    (f : Queued PinnedSlot StreamOp → Queued PinnedSlot StreamOp) (s : AsyncState depth) :
    (update slot f s).slots[j] = s.slots[j] :=
  Vector.getElem_set_fin_ne hj _ _

/-! ## the actions on one slot -/

/-- from `s` on, only `slot` was acted on: it is `q` with some of its queue done -/
structure At (cfg : CudaConfig) (dev : Device cfg.threads cfg.kStepsPerThread) (slot : Fin depth)
    (q : Queued PinnedSlot StreamOp) (s r : AsyncState depth) : Prop where
  here : Queued.Later (exec cfg dev) q r.slots[slot]
  meets : q.Meets (exec cfg dev) ZeroStart
  others : ∀ j ≠ slot, Queued.Later (exec cfg dev) s.slots[j] r.slots[j]
  calm : ∀ j ≠ slot, (s.slots[j]).Meets (exec cfg dev) ZeroStart
  rng : r.rng = s.rng
  polls : r.polls = s.polls

variable {slot : Fin depth} {q : Queued PinnedSlot StreamOp} {s r : AsyncState depth}

theorem At.all_meet (h : At cfg dev slot q s r) (j : Fin depth) :
    (r.slots[j]).Meets (exec cfg dev) ZeroStart := by
  by_cases hj : j = slot
  · rw [hj]
    exact h.here.meets h.meets
  · exact (h.others j hj).meets (h.calm j hj)

theorem At.refl (slot : Fin depth)
    (hs : ∀ j : Fin depth, (s.slots[j]).Meets (exec cfg dev) ZeroStart) :
    At cfg dev slot s.slots[slot] s s :=
  ⟨.refl, hs slot, fun _ _ => .refl, fun j _ => hs j, rfl, rfl⟩

theorem At.update (h : At cfg dev slot q s r) {f : Queued PinnedSlot StreamOp → Queued PinnedSlot StreamOp}
    {q' : Queued PinnedSlot StreamOp} (hq : Queued.Later (exec cfg dev) q' (f r.slots[slot]))
    (hm : q'.Meets (exec cfg dev) ZeroStart) : At cfg dev slot q' s (update slot f r) := by
  refine ⟨?_, hm, fun j hj => ?_, h.calm, h.rng, h.polls⟩
  · rw [update_self]
    exact hq
  · rw [update_other hj]
    exact h.others j hj

theorem advance_at (j : Fin depth) (h : At cfg dev slot q s r) :
    Quietly (advance cfg dev j r) fun t => At cfg dev slot q s t ∧ t.calls = r.calls ∧
      t.slots[j] = (r.slots[j]).advance (exec cfg dev) := by
  have hm := h.all_meet j
  rw [advance]
  split
  · rename_i hq
    refine Holds.pure ⟨h, rfl, ?_⟩
    rw [Queued.advance, hq]
  · rename_i op ops hq
    have hzero : (PipelineEvent.exec op (r.slots[j]).now.buffer.hitCount).Safe := by
      rw [Queued.Meets, hq] at hm
      cases op with
      | kernel n => exact hm.1
      | _ => trivial
    refine (log_holds (show _ ∧ _ from ⟨hzero, trivial⟩)).bind fun _ _ => Holds.pure ⟨?_, rfl, update_self _ _ _⟩
    by_cases hj : j = slot
    · subst hj
      exact h.update h.here.step h.meets
    · refine ⟨?_, h.meets, fun k hk => ?_, h.calm, h.rng, h.polls⟩
      · rw [update_other (Ne.symm hj)]
        exact h.here
      · by_cases hkj : k = j
        · rw [hkj, update_self]
          exact (h.others j hj).step
        · rw [update_other hkj]
          exact h.others k hk

theorem tick_at (h : At cfg dev slot q s r) :
    Quietly (tick cfg dev m r) fun t => At cfg dev slot q s t ∧ t.calls = r.calls := by
  refine Holds.forEach (fun t : AsyncState depth => At cfg dev slot q s t ∧ t.calls = r.calls)
    ⟨⟨h.here, h.meets, h.others, h.calm, h.rng, h.polls⟩, rfl⟩ fun j _ t ht => ?_
  exact (advance_at j ht.1).mono fun t' ht' => ⟨ht'.1, ht'.2.1.trans ht.2⟩

theorem write_at {f : PinnedSlot → PinnedSlot} (h : At cfg dev slot q s r)
    (hund : q.now.undrained = false)
    (hf : ∀ op ∈ q.queue, ∀ x, exec cfg dev (f x) op = f (exec cfg dev x op))
    (hm : (q.write f).Meets (exec cfg dev) ZeroStart) :
    Quietly (write cfg dev m slot f r) fun t => At cfg dev slot (q.write f) s t ∧
      t.calls = r.calls := by
  refine (tick_at h).bind fun t ⟨ht, hc⟩ => ?_
  have hu : (t.slots[slot]).now.undrained = false :=
    (ht.here.proj fun x op => (exec_keeps x op).2.2).trans hund
  refine (log_holds (e := .write _) (show _ ∧ _ from ⟨hu, trivial⟩)).bind fun _ _ => Holds.pure ⟨?_, hc⟩
  exact ht.update (ht.here.write hf) hm

theorem enqueue_at (op : Nat → StreamOp) (h : At cfg dev slot q s r)
    (hop : ZeroStart (q.done (exec cfg dev)) (op r.calls)) :
    Quietly (enqueue cfg dev m slot op r) fun t => t.1 = dev.ok r.calls ∧
      t.2.calls = r.calls + 1 ∧ (t.1 = true → At cfg dev slot (q.push (op r.calls)) s t.2) ∧
      ∃ q', At cfg dev slot q' s t.2 := by
  refine (tick_at h).bind fun t ⟨ht, hc⟩ => ?_
  rw [hc]
  split
  · rename_i hok
    have hpush := (ht.update (ht.here.push (op r.calls)) (ht.meets.push hop))
    have hat : At cfg dev slot (q.push (op r.calls)) s
        (update slot (Queued.push (op r.calls)) { t with calls := r.calls + 1 }) :=
      ⟨hpush.here, hpush.meets, hpush.others, hpush.calm, hpush.rng, hpush.polls⟩
    exact Holds.pure ⟨hok.symm, rfl, fun _ => hat, _, hat⟩
  · rename_i hok
    refine Holds.pure ⟨(Bool.eq_false_iff.mpr hok).symm, rfl, nofun, q, ?_⟩
    exact ⟨ht.here, ht.meets, ht.others, ht.calm, ht.rng, ht.polls⟩

/-- after a synchronisation that succeeds the slot is what its queue makes of it -/
theorem synchronize_at (h : At cfg dev slot q s r) :
    Quietly (synchronize cfg dev m slot r) fun t => t.1 = dev.ok r.calls ∧
      At cfg dev slot t.2.slots[slot] s t.2 ∧ (t.2.slots[slot]).queue = [] ∧
      t.2.calls = r.calls + 1 ∧
      ((t.2.slots[slot]).now.draw, (t.2.slots[slot]).now.launch) = (q.now.draw, q.now.launch) ∧
      (t.1 = true → (t.2.slots[slot]).now = q.done (exec cfg dev)) := by
  refine (tick_at h).bind fun t ⟨ht, hc⟩ => ?_
  rw [hc]
  -- after `i` operations
  have key := Holds.forUp (G := fun e => e.Safe ∧ e.Background)
    (fun i (u : AsyncState depth) => At cfg dev slot q s u ∧
      (u.slots[slot]).queue.length = (t.slots[slot]).queue.length - i)
    (if dev.ok r.calls then (t.slots[slot]).queue.length
      else min (m.kept r.calls) (t.slots[slot]).queue.length)
    (f := fun _ => advance cfg dev slot) (s := t) ⟨ht, rfl⟩ ?_
  · refine key.bind fun u ⟨hu, hlen⟩ => Holds.pure ⟨rfl, ?_⟩
    have hslot : (update slot Queued.clear { u with calls := r.calls + 1 }).slots[slot] =
        (u.slots[slot]).clear := update_self _ _ _
    have hat := hu.update (f := Queued.clear) (Queued.Later.refl) (Queued.Meets.clear _)
    refine ⟨?_, ?_, rfl, ?_, fun hok => ?_⟩
    · rw [hslot]
      exact ⟨hat.here, hat.meets, hat.others, hat.calm, hat.rng, hat.polls⟩
    · rw [hslot]
      rfl
    · rw [hslot]
      exact hu.here.proj (p := fun x => (x.draw, x.launch)) fun x op =>
        Prod.ext (exec_keeps x op).1 (exec_keeps x op).2.1
    · have hok : dev.ok r.calls = true := hok
      rw [if_pos hok, Nat.sub_self] at hlen
      rw [hslot, ← hu.here.done, Queued.done_nil (List.eq_nil_of_length_eq_zero hlen)]
      rfl
  · rintro i u - ⟨hu, hlen⟩
    refine (advance_at slot hu).mono fun v ⟨hv, _, hstep⟩ => ⟨hv, ?_⟩
    rw [hstep, Queued.advance]
    split
    · rename_i hq
      rw [hq] at hlen ⊢
      simp only [List.length_nil] at hlen ⊢
      omega
    · rename_i op ops hq
      rw [hq, List.length_cons] at hlen
      show ops.length = _
      omega

/-! ## starting an epoch -/

/-- the slot right after `start_epoch`, with nothing of its queue done yet -/
def launched (h : Host) (cfg : CudaConfig) (x : PinnedSlot) (d : Nat × Nat) :
    Queued PinnedSlot StreamOp :=
  let pts := (CudaEngine.startPoints cfg (baseScalar h d.1)).val
  ⟨{ x with
      draw := d.1
      slotA0 := baseScalar h d.1
      hStarts := pts.1
      hBigstep := pts.2
      hHitCount := 0
      launch := d.2
      undrained := true },
    [.copyStarts, .copyBigstep, .copyHitCount, .kernel d.2, .readHitCount]⟩

/-- the epoch `d` is on the slot, however far its stream has got -/
def InFlight (h : Host) (cfg : CudaConfig) (dev : Device cfg.threads cfg.kStepsPerThread)
    (d : Nat × Nat) (y : Queued PinnedSlot StreamOp) : Prop :=
  ∃ x, Queued.Later (exec cfg dev) (launched h cfg x d) y

theorem launched_meets (x : PinnedSlot) (d : Nat × Nat) :
    (launched h cfg x d).Meets (exec cfg dev) ZeroStart := ⟨trivial, trivial, trivial, rfl, trivial, trivial⟩

theorem InFlight.later {d : Nat × Nat} {y z : Queued PinnedSlot StreamOp}
    (hy : InFlight h cfg dev d y) (hz : Queued.Later (exec cfg dev) y z) :
    InFlight h cfg dev d z := by
  obtain ⟨x, hx⟩ := hy
  exact ⟨x, hx.trans hz⟩

theorem InFlight.epoch {d : Nat × Nat} {y : Queued PinnedSlot StreamOp}
    (hy : InFlight h cfg dev d y) : (y.now.draw, y.now.launch) = d := by
  obtain ⟨x, hx⟩ := hy
  exact hx.proj (p := fun x => (x.draw, x.launch)) fun x op =>
    Prod.ext (exec_keeps x op).1 (exec_keeps x op).2.1

theorem InFlight.undrained {d : Nat × Nat} {y : Queued PinnedSlot StreamOp}
    (hy : InFlight h cfg dev d y) : y.now.undrained = true := by
  obtain ⟨x, hx⟩ := hy
  exact hx.proj (p := fun x => x.undrained) fun x op => (exec_keeps x op).2.2

/-- what the queue makes of the slot -/
theorem launched_done (x : PinnedSlot) (d : Nat × Nat) :
    let y := (launched h cfg x d).done (exec cfg dev)
    let pts := (CudaEngine.startPoints cfg (baseScalar h d.1)).val
    y.draw = d.1 ∧ y.launch = d.2 ∧ y.slotA0 = baseScalar h d.1 ∧ y.hHitCount = y.buffer.hitCount ∧
      y.buffer = searchKernel dev cfg.patterns pts.1 pts.2 d.2 { x.buffer with hitCount := 0 } :=
  ⟨rfl, rfl, rfl, rfl, rfl⟩

/-- when its stream is done, the slot holds the matches of its own launch -/
theorem InFlight.done {d : Nat × Nat} {y : Queued PinnedSlot StreamOp}
    (hy : InFlight h cfg dev d y) :
    CudaEngine.Launched h cfg dev (y.done (exec cfg dev)).toPipelineSlot ∧
      ((y.done (exec cfg dev)).draw, (y.done (exec cfg dev)).launch) = d := by
  obtain ⟨x, hx⟩ := hy
  obtain ⟨hdraw, hlaunch, ha0, hcount, hbuf⟩ := launched_done x d
  rw [hx.done]
  refine ⟨⟨?_, hcount, ?_⟩, ?_⟩
  · rw [ha0, hdraw]
  · rw [hdraw, hlaunch, hbuf]
    exact searchKernel_records dev cfg.patterns _ _ d.2 rfl
  · rw [hdraw, hlaunch]

/-- the uploads commute with the reset of the staged counter -/
theorem resets_commute {op : StreamOp} (hop : op ∈ [StreamOp.copyStarts, .copyBigstep])
    (x : PinnedSlot) : exec cfg dev { x with hHitCount := 0 } op =
      { exec cfg dev x op with hHitCount := 0 } := by
  rcases List.mem_cons.mp hop with rfl | hop
  · rfl
  · rw [List.mem_singleton.mp hop]
    rfl

theorem marks_commute (n : Nat) (op : StreamOp) (x : PinnedSlot) :
    exec cfg dev (markLaunched n x) op = markLaunched n (exec cfg dev x op) := by
  cases op <;> rfl

/-- a call that failed ends the function, with `false` for all its calls -/
theorem failed_holds {G : PipelineEvent → Prop} {t : Bool × AsyncState depth} {ok : Bool}
    {A B : Bool × AsyncState depth → Prop} (hfail : t.1 = false) (hok : ok = false) (hB : B t) :
    Holds G (pure t) fun t => t.1 = ok ∧ (t.1 = true → A t) ∧ B t := by
  refine Holds.pure ⟨hfail.trans hok.symm, fun ht => ?_, hB⟩
  rw [hfail] at ht
  cases ht

theorem setupEpoch_at {x : PinnedSlot} (draw : Nat) (a0 : Bytes 32)
    (hr : At cfg dev slot ⟨x, []⟩ s r) (hx : x.undrained = false) :
    Quietly (setupEpoch cfg dev m slot draw a0 r) fun t =>
      t.1 = (dev.ok r.calls && dev.ok (r.calls + 1) && dev.ok (r.calls + 2)) ∧
      (t.1 = true → t.2.calls = r.calls + 3 ∧
        At cfg dev slot ⟨{ x with
          draw := draw
          slotA0 := a0
          hStarts := (CudaEngine.startPoints cfg a0).val.1
          hBigstep := (CudaEngine.startPoints cfg a0).val.2
          hHitCount := 0 }, [.copyStarts, .copyBigstep, .copyHitCount]⟩ s t.2) ∧
      ∃ q', At cfg dev slot q' s t.2 := by
  have hnil : ∀ {f : PinnedSlot → PinnedSlot}, ∀ op ∈ ([] : List StreamOp), ∀ x,
      exec cfg dev (f x) op = f (exec cfg dev x op) := fun op hop => absurd hop (by simp)
  have hpts : Quietly (lift .machine (CudaEngine.startPoints cfg a0)) fun p =>
      p = (CudaEngine.startPoints cfg a0).val :=
    Holds.lift ⟨fun e _ => ⟨trivial, trivial⟩, rfl⟩
  unfold setupEpoch
  refine hpts.bind fun pts epts => ?_
  rw [← epts]
  refine (write_at hr hx hnil trivial).bind fun r1 ⟨h1, c1⟩ => ?_
  refine (write_at h1 hx hnil trivial).bind fun r2 ⟨h2, c2⟩ => ?_
  refine (write_at h2 hx hnil trivial).bind fun r3 ⟨h3, c3⟩ => ?_
  refine (enqueue_at (fun _ => .copyStarts) h3 trivial).bind fun t1 ⟨f1, d1, a1, q1⟩ => ?_
  have e1 : r3.calls = r.calls := by omega
  rw [e1] at f1 d1
  cases hok1 : t1.1 with
  | false =>
    exact failed_holds hok1 (by rw [← f1, hok1]; rfl) q1
  | true =>
    rw [hok1] at f1
    have h4 := a1 hok1
    refine (enqueue_at (fun _ => .copyBigstep) h4 trivial).bind fun t2 ⟨f2, d2, a2, q2⟩ => ?_
    rw [d1] at f2 d2
    cases hok2 : t2.1 with
    | false =>
      exact failed_holds hok2 (by rw [← f1, ← f2, hok2]; rfl) q2
    | true =>
      rw [hok2] at f2
      have h5 := a2 hok2
      refine (write_at h5 hx (fun op hop y => resets_commute hop y)
        ⟨trivial, trivial, trivial⟩).bind fun r5 ⟨h5, c5⟩ => ?_
      refine (enqueue_at (fun _ => .copyHitCount) h5 trivial).mono fun t3 ⟨f3, d3, a3, q3⟩ => ?_
      have e5 : r5.calls = r.calls + 2 := by omega
      rw [e5] at f3 d3
      refine ⟨?_, fun ht => ⟨d3, a3 ht⟩, q3⟩
      rw [f3, ← f1, ← f2]
      rfl

theorem launchEpoch_at {x : PinnedSlot} (d : Nat × Nat) (hd : r.calls = d.2)
    (hr : At cfg dev slot ⟨{ x with
      draw := d.1
      slotA0 := baseScalar h d.1
      hStarts := (CudaEngine.startPoints cfg (baseScalar h d.1)).val.1
      hBigstep := (CudaEngine.startPoints cfg (baseScalar h d.1)).val.2
      hHitCount := 0 }, [.copyStarts, .copyBigstep, .copyHitCount]⟩ s r) :
    Quietly (launchEpoch cfg dev m slot r) fun t =>
      t.1 = (dev.ok r.calls && dev.ok (r.calls + 1)) ∧
      (t.1 = true → At cfg dev slot (launched h cfg x d) s t.2) ∧ ∃ q', At cfg dev slot q' s t.2 := by
  unfold launchEpoch
  refine (enqueue_at .kernel hr rfl).bind
    fun t1 ⟨f1, d1, a1, q1⟩ => ?_
  cases hok1 : t1.1 with
  | false =>
    exact failed_holds hok1 (by rw [← f1, hok1]; rfl) q1
  | true =>
    rw [hok1] at f1
    have h1 := a1 hok1
    have h2 := h1.update (h1.here.write fun op _ y => marks_commute r.calls op y)
      (show Queued.Meets _ _ _ from ⟨trivial, trivial, trivial, rfl, trivial⟩)
    refine (enqueue_at (fun _ => .readHitCount) h2 trivial).mono
      fun t2 ⟨f2, _, a2, q2⟩ => ⟨?_, fun ht => ?_, q2⟩
    · rw [f2, ← f1]
      show dev.ok t1.2.calls = _
      rw [d1]
      rfl
    · have h3 := a2 ht
      rw [hd] at h3
      exact h3

/-- nothing is on any stream yet but what was there -/
theorem At.fresh {x : PinnedSlot}
    (hs : ∀ j : Fin depth, (s.slots[j]).Meets (exec cfg dev) ZeroStart)
    (hslot : s.slots[slot] = ⟨x, []⟩) :
    At cfg dev slot ⟨x, []⟩ { s with rng := s.rng + 1 } { s with rng := s.rng + 1 } := by
  rw [← hslot]
  exact At.refl (s := { s with rng := s.rng + 1 }) slot hs

theorem noteStart_safe (draw launch : Nat) (t : Bool × AsyncState depth) :
    Safely (noteStart draw launch t) fun r => r = t := by
  rw [noteStart]
  split
  · exact (log_holds (e := .started _ _) trivial).bind fun _ _ => Holds.pure rfl
  · exact Holds.pure rfl

theorem noteStart_select {γ : Type} (f : PipelineEvent → Option γ) (draw launch : Nat)
    (t : Bool × AsyncState depth) : select f (noteStart draw launch t) =
      if t.1 then (f (.started draw launch)).toList else [] := by
  rw [noteStart]
  split
  · rw [select_bind, select_log]
    exact List.append_nil _
  · rfl

/-- **`start_epoch`** on an idle slot writes no undrained buffer; if it succeeds, the epoch of the
fresh draw is in flight. -/
theorem startEpoch_at {x : PinnedSlot}
    (hs : ∀ j : Fin depth, (s.slots[j]).Meets (exec cfg dev) ZeroStart)
    (hslot : s.slots[slot] = ⟨x, []⟩) (hx : x.undrained = false) :
    Safely (startEpoch h cfg dev m slot s) fun t =>
      t.1 = (dev.ok s.calls && dev.ok (s.calls + 1) && dev.ok (s.calls + 2) &&
        (dev.ok (s.calls + 3) && dev.ok (s.calls + 4))) ∧
      (t.1 = true → InFlight h cfg dev (s.rng, s.calls + 3) t.2.slots[slot]) ∧
      ∃ q', At cfg dev slot q' { s with rng := s.rng + 1 } t.2 := by
  unfold startEpoch
  refine (setupEpoch_at s.rng (baseScalar h s.rng) (At.fresh hs hslot) hx).safely.bind
    fun t1 ⟨f1, a1, q1⟩ => ?_
  cases hok1 : t1.1 with
  | false =>
    exact failed_holds hok1 (by rw [← f1, hok1]; rfl) q1
  | true =>
    rw [hok1] at f1
    obtain ⟨c1, h1⟩ := a1 hok1
    refine (launchEpoch_at (s.rng, s.calls + 3) c1 h1).safely.bind fun t2 ⟨f2, a2, q2⟩ => ?_
    rw [c1] at f2
    have hflag : t2.1 = (dev.ok s.calls && dev.ok (s.calls + 1) && dev.ok (s.calls + 2) &&
        (dev.ok (s.calls + 3) && dev.ok (s.calls + 4))) := by
      rw [f2, ← f1]
      rfl
    refine (noteStart_safe s.rng t1.2.calls t2).mono fun t ht => ?_
    rw [ht]
    exact ⟨hflag, fun hok => ⟨x, (a2 hok).here⟩, q2⟩

/-- in the foreground there is the start only -/
theorem startEpoch_select {γ : Type} {f : PipelineEvent → Option γ} {x : PinnedSlot}
    (hf : ∀ e, e.Background → f e = none)
    (hs : ∀ j : Fin depth, (s.slots[j]).Meets (exec cfg dev) ZeroStart)
    (hslot : s.slots[slot] = ⟨x, []⟩) (hx : x.undrained = false) :
    select f (startEpoch h cfg dev m slot s) =
      if (startEpoch h cfg dev m slot s).val.1 then (f (.started s.rng (s.calls + 3))).toList
      else [] := by
  have hsetup := setupEpoch_at (m := m) s.rng (baseScalar h s.rng) (At.fresh hs hslot) hx
  rw [startEpoch, show clamp (h.rand s.rng) = baseScalar h s.rng from rfl, select_bind,
    hsetup.select_eq_nil fun e he => hf e he.2, bind_val, List.nil_append]
  obtain ⟨-, -, ha, -⟩ := hsetup
  generalize (setupEpoch cfg dev m slot s.rng (baseScalar h s.rng)
    { s with rng := s.rng + 1 }).val = t at ha ⊢
  split
  · rename_i hok1
    show _ = if t.1 then _ else _
    rw [if_neg hok1]
    rfl
  · rename_i hok1
    obtain ⟨c1, h1⟩ := ha (not_not.mp hok1)
    have hlaunch := launchEpoch_at (m := m) (s.rng, s.calls + 3) c1 h1
    rw [select_bind, hlaunch.select_eq_nil fun e he => hf e he.2, List.nil_append, noteStart_select,
      c1, bind_val, (noteStart_safe _ _ _).2]

end

end Pipeline

end Onion
