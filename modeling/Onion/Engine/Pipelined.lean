import Onion.Engine.PipelineHits
import Onion.Engine.Found

/-!
# Two slots: every epoch keeps its base scalar

* `Tidy`           the epochs of a run get their turn, and every drained one is harvested;
* `RoundOk`        what a round does to the epoch in flight;
* `round_ok`       a round that starts the next epoch on another slot;
* `round_last`     a round that starts none;
* `loop_tidy`, `run_tidy`   a run of such rounds;
* `pipelined_epochs`   two slots, whatever the calls return and however the streams progress.
-/

namespace Onion
open Logged

namespace Pipeline

/-! ## rounds -/

/-- the epochs in flight at the start of a run and the started ones get their turn, in order, once
each; and what is pushed are the hits of the drained ones -/
structure Tidy (h : Host) (cfg : CudaConfig) (dev : Device cfg.threads cfg.kStepsPerThread)
    {α : Type} (live : List (Nat × Nat)) (x : Pipe α) : Prop extends Harvesting h cfg dev x where
  turns : live ++ starts x = (drains x).map Drain.epoch ++ stops x
  draws : (live ++ starts x).Pairwise fun d d' => d.1 < d'.1

theorem Tidy.sublist {h : Host} {cfg : CudaConfig} {dev : Device cfg.threads cfg.kStepsPerThread}
    {α : Type} {live : List (Nat × Nat)} {x : Pipe α} (hx : Tidy h cfg dev live x) :
    (Pipeline.harvests x).Sublist (live ++ starts x) := by
  rw [hx.turns, hx.harvests]
  exact (List.filter_sublist.map Drain.epoch).trans (List.sublist_append_left _ _)

section
variable {depth : Nat} [NeZero depth]

/-- the epoch `d` is in flight on the slot `cur`, and nothing is on the others -/
structure Ready (h : Host) (cfg : CudaConfig) (dev : Device cfg.threads cfg.kStepsPerThread)
    (d : Nat × Nat) (cur : Fin depth) (s : AsyncState depth) : Prop where
  flight : InFlight h cfg dev d s.slots[cur]
  idle : ∀ j ≠ cur, ∃ x, s.slots[j] = ⟨x, []⟩ ∧ x.undrained = false
  rng : d.1 < s.rng

inductive Head (h : Host) (cfg : CudaConfig) (dev : Device cfg.threads cfg.kStepsPerThread)
    (cur : Fin depth) : List (Nat × Nat) → Bool × AsyncState depth → Prop where
  | dead (s : AsyncState depth) : Head h cfg dev cur [] (false, s)
  | live {d : Nat × Nat} {s : AsyncState depth} (hs : Ready h cfg dev d cur s) :
    Head h cfg dev cur [d] (true, s)

variable {h : Host} {cfg : CudaConfig} {dev : Device cfg.threads cfg.kStepsPerThread}
  {m : Timing depth} {cur : Fin depth} {s : AsyncState depth}

omit [NeZero depth] in
theorem Ready.meets {d : Nat × Nat} (hs : Ready h cfg dev d cur s) (j : Fin depth) :
    (s.slots[j]).Meets (exec cfg dev) ZeroStart := by
  by_cases hj : j = cur
  · obtain ⟨x, hx⟩ := hs.flight
    rw [hj]
    exact hx.meets (launched_meets x d)
  · obtain ⟨x, hx, -⟩ := hs.idle j hj
    rw [hx]
    trivial

/-- the next slot in flight, when this one is drained -/
theorem Ready.next {d e : Nat × Nat} {u t : AsyncState depth} {x : PinnedSlot} (hne : cur ≠ cur + 1)
    (hs : Ready h cfg dev d cur s)
    (hu : ∀ j ≠ cur + 1, Queued.Later (exec cfg dev) s.slots[j] u.slots[j])
    (he : InFlight h cfg dev e u.slots[cur + 1]) (hx : t.slots[cur] = ⟨x, []⟩)
    (hxu : x.undrained = false)
    (ht : ∀ j ≠ cur, Queued.Later (exec cfg dev) u.slots[j] t.slots[j]) (hrng : e.1 < t.rng) :
    Ready h cfg dev e (cur + 1) t := by
  have hflight := he.later (ht (cur + 1) hne.symm)
  have hidle : ∀ j ≠ cur + 1, ∃ x, t.slots[j] = ⟨x, []⟩ ∧ x.undrained = false := by
    intro j hj
    by_cases hc : j = cur
    · rw [hc]
      exact ⟨x, hx, hxu⟩
    · obtain ⟨y, hy, hyu⟩ := hs.idle j hc
      have hlater := (hu j hj).trans (ht j hc)
      rw [hy] at hlater
      exact ⟨y, hlater.eq_of_nil rfl, hyu⟩
  exact ⟨hflight, hidle, hrng⟩

/-- what a round does to the epoch `d` in flight -/
structure RoundOk (h : Host) (cfg : CudaConfig) (dev : Device cfg.threads cfg.kStepsPerThread)
    (d : Nat × Nat) (cur : Fin depth) (polls : Nat) (x : Pipe (Bool × AsyncState depth)) : Prop where
  safe : ∀ e ∈ x.log, e.Safe
  polls : x.val.2.polls ≤ polls
  head : Head h cfg dev (cur + 1) (starts x) x.val
  later : ∀ e ∈ starts x, d.1 < e.1
  stops : stops x = []
  drains : (drains x).map Drain.epoch = [d]
  harvesting : Harvesting h cfg dev x

theorem round_select {γ : Type} (f : PipelineEvent → Option γ) :
    select f (round h cfg dev m cur s) = select f (tryStart h cfg dev m (cur + 1) s) ++
      select f (drainEpoch h cfg dev m cur (tryStart h cfg dev m (cur + 1) s).val.2) := by
  rw [round, select_bind, select_bind, select_pure, List.append_nil]

theorem round_safe (hs : ∀ e ∈ (tryStart h cfg dev m (cur + 1) s).log, e.Safe)
    (hd : ∀ e ∈ (drainEpoch h cfg dev m cur (tryStart h cfg dev m (cur + 1) s).val.2).log, e.Safe) :
    ∀ e ∈ (round h cfg dev m cur s).log, e.Safe := by
  intro e he
  rcases List.mem_append.mp he with he | he
  · exact hs e he
  · rw [bind_log, pure_log, List.append_nil] at he
    exact hd e he

/-- a round that starts the next epoch on another slot -/
theorem round_ok {d : Nat × Nat} (hne : cur ≠ cur + 1) (hs : Ready h cfg dev d cur s) :
    RoundOk h cfg dev d cur s.polls (round h cfg dev m cur s) := by
  obtain ⟨y, hy, hyu⟩ := hs.idle (cur + 1) hne.symm
  have hstart := tryStart_at (h := h) (m := m) hs.meets hy hyu
  obtain ⟨hsafe, hpolls, hrng, hmeets, hothers, hlive⟩ := hstart
  have hat := At.refl cur hmeets
  have hdrain := drainEpoch_at (h := h) (m := m) hat
  obtain ⟨hst, hsp, hdr, hh⟩ := drainEpoch_run (m := m) hat (hs.flight.later (hothers cur hne))
  have hselect : ∀ {γ : Type} {f : PipelineEvent → Option γ}, (∀ e, e.Background → f e = none) →
      (∀ draw launch, f (.started draw launch) = none) → select f (round h cfg dev m cur s) =
        select f (drainEpoch h cfg dev m cur (tryStart h cfg dev m (cur + 1) s).val.2) :=
    fun hf hst => by
      rw [round_select, tryStart_quiet hf hst hs.meets hy hyu]
      rfl
  obtain ⟨hsafe', ⟨z, hz, hzu⟩, hothers', hrng', hpolls'⟩ := hdrain
  have hstarts : starts (round h cfg dev m cur s) =
      if (tryStart h cfg dev m (cur + 1) s).val.1 then [(s.rng, s.calls + 3)] else [] := by
    rw [← tryStart_starts hs.meets hy hyu, starts, round_select, ← starts, ← starts, hst,
      List.append_nil]
  refine ⟨round_safe hsafe hsafe', hpolls'.trans_le hpolls, ?_, ?_, ?_, ?_, ?_⟩
  · rw [hstarts, show (round h cfg dev m cur s).val = ((tryStart h cfg dev m (cur + 1) s).val.1,
      (drainEpoch h cfg dev m cur (tryStart h cfg dev m (cur + 1) s).val.2).val.2) from rfl]
    cases hl : (tryStart h cfg dev m (cur + 1) s).val.1 with
    | false => exact .dead _
    | true =>
      obtain ⟨-, hlt, hflight⟩ := hlive hl
      exact .live (hs.next hne hothers hflight hz hzu hothers' (hlt.trans_le hrng'))
  · intro e he
    rw [hstarts] at he
    split at he
    · rw [List.mem_singleton.mp he]
      exact hs.rng
    · cases he
  · exact (hselect PipelineEvent.stopped?_background fun _ _ => rfl).trans hsp
  · rw [drains, hselect PipelineEvent.drained?_background fun _ _ => rfl, ← drains, hdr]
    rfl
  · exact hh.of_select (hselect PipelineEvent.drained?_background fun _ _ => rfl)
      (hselect PipelineEvent.harvested?_background fun _ _ => rfl)
      (hselect PipelineEvent.hit?_background fun _ _ => rfl)

/-- a round that meets the stop, and starts none -/
theorem round_last {d : Nat × Nat} (hp : s.polls = 0) (hs : Ready h cfg dev d cur s) :
    RoundOk h cfg dev d cur s.polls (round h cfg dev m cur s) := by
  have hstart : tryStart h cfg dev m (cur + 1) s = pure (false, s) := by
    unfold tryStart
    rw [hp]
  have hat := At.refl cur hs.meets
  have hdrain := drainEpoch_at (h := h) (m := m) hat
  obtain ⟨hst, hsp, hdr, hh⟩ := drainEpoch_run (m := m) hat hs.flight
  have hselect : ∀ {γ : Type} (f : PipelineEvent → Option γ), select f (round h cfg dev m cur s) =
      select f (drainEpoch h cfg dev m cur s) := by
    intro γ f
    rw [round_select, hstart]
    rfl
  have hstarts : starts (round h cfg dev m cur s) = [] := (hselect _).trans hst
  refine ⟨round_safe ?_ ?_, ?_, ?_, ?_, (hselect _).trans hsp, ?_,
    hh.of_select (hselect _) (hselect _) (hselect _)⟩
  · rw [hstart]
    exact nofun
  · rw [hstart]
    exact hdrain.1
  · have hpolls := hdrain.2.2.2.2
    unfold round
    rw [hstart]
    exact hpolls.le
  · rw [hstarts]
    unfold round
    rw [hstart]
    exact .dead _
  · rw [hstarts]
    exact nofun
  · rw [drains, hselect, ← drains, hdr]
    rfl

/-- the turn of an epoch that goes on -/
theorem Tidy.turn {α : Type} {live : List (Nat × Nat)} {x : Pipe α} (hx : Tidy h cfg dev live x)
    (draw launch : Nat) : Tidy h cfg dev live (log (.turn draw launch false) >>= fun _ => x) :=
  ⟨⟨hx.harvests, hx.hits⟩, hx.turns, hx.draws⟩

/-- the epoch `d` is drained, and the rest is tidy -/
theorem Tidy.drain {α β : Type} {d : Nat × Nat} {x : Pipe α} {f : α → Pipe β}
    (hh : Harvesting h cfg dev x) (hdr : (drains x).map Drain.epoch = [d]) (hsp : stops x = [])
    (hlater : ∀ e ∈ starts x, d.1 < e.1) (hdead : starts x = [] → starts (f x.val) = [])
    (hf : Tidy h cfg dev (starts x) (f x.val)) : Tidy h cfg dev [d] (x >>= f) := by
  have hstarts : starts (x >>= f) = starts x ++ starts (f x.val) := select_bind x f
  have hdrains : drains (x >>= f) = drains x ++ drains (f x.val) := select_bind x f
  have hstops : stops (x >>= f) = stops x ++ stops (f x.val) := select_bind x f
  refine ⟨hh.bind hf.toHarvesting, ?_, ?_⟩
  · rw [hstarts, hdrains, hstops, List.map_append, hdr, hsp, List.append_assoc, List.nil_append,
      ← hf.turns]
  · rw [hstarts]
    show (d :: (starts x ++ starts (f x.val))).Pairwise _
    refine List.pairwise_cons.mpr ⟨fun e he => ?_, hf.draws⟩
    rcases List.mem_append.mp he with he | he
    · exact hlater e he
    · -- the rest starts nothing unless `x` does, and then later
      cases hx : starts x with
      | nil =>
        rw [hdead hx] at he
        cases he
      | cons e₀ es =>
        have he₀ : e₀ ∈ starts x := hx ▸ List.mem_cons_self
        exact (hlater e₀ he₀).trans ((List.pairwise_append.mp hf.draws).2.2 e₀ he₀ e he)

/-- first the epochs are started that the rest has in flight -/
theorem Tidy.start {α β : Type} {x : Pipe α} {f : α → Pipe β} (hh : Pipeline.hits x = [])
    (hv : Pipeline.harvests x = []) (hdr : drains x = []) (hsp : stops x = [])
    (hf : Tidy h cfg dev (starts x) (f x.val)) : Tidy h cfg dev [] (x >>= f) := by
  have hselect : ∀ {γ : Type} (g : PipelineEvent → Option γ),
      select g (x >>= f) = select g x ++ select g (f x.val) := fun g => select_bind x f
  refine ⟨(Harvesting.quiet hdr hv hh).bind hf.toHarvesting, ?_, ?_⟩
  · rw [drains, stops, starts, hselect, hselect, hselect, ← drains, ← stops, hdr, hsp]
    exact hf.turns
  · rw [starts, hselect]
    exact hf.draws

theorem loop_dead (fuel : Nat) (cur : Fin depth) (s : AsyncState depth) :
    loop h cfg dev m fuel cur (false, s) = pure s := by
  cases fuel <;> rfl

theorem tidy_pure {α : Type} (a : α) : Tidy h cfg dev [] (pure a : Pipe α) :=
  ⟨.quiet rfl rfl rfl, rfl, .nil⟩

theorem Head.dead_starts {ds : List (Nat × Nat)} {t : Bool × AsyncState depth}
    (ht : Head h cfg dev cur ds t) (fuel : Nat) (hds : ds = []) :
    starts (loop h cfg dev m fuel cur t) = [] := by
  cases ht with
  | dead s =>
    rw [loop_dead]
    rfl
  | live hs => cases hds

/-- the rounds left: as many as polls, at most -/
theorem loop_tidy {bound : Nat} (fuel : Nat) (cur : Fin depth) (ds : List (Nat × Nat))
    (t : Bool × AsyncState depth) (ht : Head h cfg dev cur ds t)
    (hround : t.1 = true → ∀ (cur : Fin depth) (d : Nat × Nat) (s : AsyncState depth),
      s.polls < bound → Ready h cfg dev d cur s →
        RoundOk h cfg dev d cur s.polls (round h cfg dev m cur s))
    (hfuel : t.1 = true → t.2.polls < fuel)
    (hbound : t.1 = true → t.2.polls ≤ bound) :
    (∀ e ∈ (loop h cfg dev m fuel cur t).log, e.Safe) ∧
      Tidy h cfg dev ds (loop h cfg dev m fuel cur t) := by
  induction fuel generalizing cur ds t with
  | zero =>
    cases ht with
    | dead s => exact ⟨nofun, tidy_pure s⟩
    | live hs => exact absurd (hfuel rfl) (Nat.not_lt_zero _)
  | succ fuel ih =>
    cases ht with
    | dead s => exact ⟨nofun, tidy_pure s⟩
    | @live d s hs =>
      have hepoch := hs.flight.epoch
      rw [loop, if_neg (not_not.mpr rfl), show (s.slots[cur]).now.draw = d.1 from
        congrArg Prod.fst hepoch, show (s.slots[cur]).now.launch = d.2 from
        congrArg Prod.snd hepoch]
      split
      · -- the turn of `d` meets the stop
        refine ⟨fun e he => ?_, .quiet rfl rfl rfl, rfl, List.pairwise_singleton _ d⟩
        rw [bind_log, pure_log, List.append_nil] at he
        rw [List.mem_singleton.mp he]
        trivial
      · rename_i polls hp
        have hle : s.polls ≤ bound := hbound rfl
        have hlt : s.polls < fuel + 1 := hfuel rfl
        have hx := hround rfl cur d { s with polls := polls } (show polls < bound by omega)
          ⟨hs.flight, hs.idle, hs.rng⟩
        generalize round h cfg dev m cur { s with polls := polls } = x at hx ⊢
        have hpolls : x.val.2.polls ≤ polls := hx.polls
        obtain ⟨hsafe, htidy⟩ := ih (cur + 1) _ x.val hx.head (fun _ => hround rfl)
          (fun _ => by omega) fun _ => by omega
        refine ⟨fun e he => ?_, (Tidy.drain hx.harvesting hx.drains hx.stops hx.later
          (hx.head.dead_starts fuel) htidy).turn d.1 d.2⟩
        rcases List.mem_append.mp he with he | he
        · rw [List.mem_singleton.mp he]
          trivial
        · rcases List.mem_append.mp he with he | he
          · exact hx.safe e he
          · exact hsafe e he

omit [NeZero depth] in
theorem allocate_keeps (n : Nat) (s : AsyncState depth) :
    (allocate cfg dev n s).2.slots = s.slots ∧ (allocate cfg dev n s).2.polls = s.polls := by
  induction n generalizing s with
  | zero => exact ⟨rfl, rfl⟩
  | succ n ih =>
    rw [allocate]
    split
    · exact ih { s with calls := s.calls + 1 }
    · exact ⟨rfl, rfl⟩

omit [NeZero depth] in
theorem init_keeps (s : AsyncState depth) :
    (init cfg dev s).2.slots = s.slots ∧ (init cfg dev s).2.polls = s.polls := by
  rw [init]
  split
  · exact ⟨rfl, rfl⟩
  · split
    · exact ⟨rfl, rfl⟩
    · split
      · exact ⟨rfl, rfl⟩
      · exact allocate_keeps _ s

variable (dev) in
omit [NeZero depth] in
theorem init_idle (polls : Nat) (slots : Vector PinnedSlot depth) (j : Fin depth) :
    ∃ x, (init cfg dev (start polls slots)).2.slots[j] = ⟨x, []⟩ ∧ x.undrained = false := by
  refine ⟨{ slots[j] with undrained := false }, ?_, rfl⟩
  rw [(init_keeps (start polls slots)).1]
  exact Vector.getElem_map _ j.isLt

variable (dev) in
omit [NeZero depth] in
theorem idle_meets (hidle : ∀ j : Fin depth, ∃ x, s.slots[j] = ⟨x, []⟩ ∧ x.undrained = false)
    (j : Fin depth) : (s.slots[j]).Meets (exec cfg dev) ZeroStart := by
  obtain ⟨x, hx, -⟩ := hidle j
  rw [hx]
  trivial

variable (dev) in
theorem tryStart_head (hidle : ∀ j : Fin depth, ∃ x, s.slots[j] = ⟨x, []⟩ ∧ x.undrained = false) :
    Head h cfg dev 0 (starts (tryStart h cfg dev m 0 s)) (tryStart h cfg dev m 0 s).val := by
  obtain ⟨x, hx, hxu⟩ := hidle 0
  obtain ⟨-, -, -, -, hothers, hlive⟩ := tryStart_at (h := h) (m := m) (idle_meets dev hidle) hx hxu
  rw [tryStart_starts (idle_meets dev hidle) hx hxu, show (tryStart h cfg dev m 0 s).val =
    ((tryStart h cfg dev m 0 s).val.1, (tryStart h cfg dev m 0 s).val.2) from rfl]
  cases hl : (tryStart h cfg dev m 0 s).val.1 with
  | false => exact .dead _
  | true =>
    obtain ⟨-, hlt, hflight⟩ := hlive hl
    refine .live ⟨hflight, fun j hj => ?_, hlt⟩
    obtain ⟨y, hy, hyu⟩ := hidle j
    have hlater := hothers j hj
    rw [hy] at hlater
    exact ⟨y, hlater.eq_of_nil rfl, hyu⟩

/-- a run, whatever the streams do -/
theorem run_tidy (polls : Nat) (slots : Vector PinnedSlot depth)
    (hround : (init cfg dev (start polls slots)).1 = true →
      (tryStart h cfg dev m 0 (init cfg dev (start polls slots)).2).val.1 = true →
      ∀ (cur : Fin depth) (d : Nat × Nat) (s : AsyncState depth), s.polls + 1 < polls →
        Ready h cfg dev d cur s → RoundOk h cfg dev d cur s.polls (round h cfg dev m cur s)) :
    (∀ e ∈ (run h cfg dev m (start polls slots)).log, e.Safe) ∧
      Tidy h cfg dev [] (run h cfg dev m (start polls slots)) := by
  rw [run]
  split
  · exact ⟨nofun, tidy_pure _⟩
  · rename_i hinit
    have hround := hround (not_not.mp hinit)
    have hpolls : (init cfg dev (start polls slots)).2.polls = polls := (init_keeps _).2
    have hidle := init_idle dev polls slots
    generalize (init cfg dev (start polls slots)).2 = s at hpolls hround hidle ⊢
    obtain ⟨x, hx, hxu⟩ := hidle 0
    have hmeets := idle_meets dev hidle
    obtain ⟨hsafe, -, -, -, -, hlive⟩ := tryStart_at (h := h) (m := m) hmeets hx hxu
    have hlt : (tryStart h cfg dev m 0 s).val.1 = true →
        (tryStart h cfg dev m 0 s).val.2.polls < polls := fun hl => (hlive hl).1.trans_eq hpolls
    obtain ⟨hsafe', htidy⟩ := loop_tidy (m := m) polls 0 _ _ (tryStart_head dev hidle)
      (fun hl cur d s hs => hround hl cur d s (Nat.add_lt_of_lt_sub hs)) hlt
      fun hl => Nat.le_sub_one_of_lt (hlt hl)
    refine ⟨fun e he => ?_, Tidy.start ?_ ?_ ?_ ?_ htidy⟩
    · rcases List.mem_append.mp he with he | he
      · exact hsafe e he
      · exact hsafe' e he
    · exact tryStart_quiet PipelineEvent.hit?_background (fun _ _ => rfl) hmeets hx hxu
    · exact tryStart_quiet PipelineEvent.harvested?_background (fun _ _ => rfl) hmeets hx hxu
    · exact tryStart_quiet PipelineEvent.drained?_background (fun _ _ => rfl) hmeets hx hxu
    · exact tryStart_quiet PipelineEvent.stopped?_background (fun _ _ => rfl) hmeets hx hxu

end

end Pipeline

/-- **Double buffering.**  Whatever the streams do and whichever calls fail, in every run the host
writes to a slot only while no epoch is undrained on it; a candidate that is pushed is a match of an
epoch that was started, with the scalar of that epoch; no candidate is pushed twice; every epoch is
drained, in order, but for the one whose turn meets the stop; and a drained epoch has all its hits
pushed, unless one of the two calls of its drain fails. -/
theorem pipelined_epochs (h : Host) (cfg : CudaConfig)
    (dev : Device cfg.threads cfg.kStepsPerThread) (m : Timing kPipelineDepth) (polls : Nat)
    (slots : Vector PinnedSlot kPipelineDepth) :
    let r := Pipeline.run h cfg dev m (Pipeline.start polls slots)
    (∀ undrained, .write undrained ∈ r.log → undrained = false) ∧
    (∀ launch hitCount, .exec (.kernel launch) hitCount ∈ r.log → hitCount = 0) ∧
    (∀ x ∈ Pipeline.hits r, ∃ d ∈ Pipeline.starts r, ∃ hit ∈ CudaEngine.launchMatches h cfg dev d,
      x.draw = d.1 ∧ x.pattern = hit.patternIndex ∧ x.index = hit.t + hit.j * cfg.threads ∧
      x.scalar = scalarAdd8i (baseScalar h d.1) x.index ∧
      (cfg.kStepsPerThread ≤ 2^30 →
        x.scalar.toNat = (baseScalar h d.1).toNat + 8 * (hit.t + hit.j * cfg.threads))) ∧
    Pipeline.starts r = (Pipeline.drains r).map Drain.epoch ++ Pipeline.stops r ∧
    Pipeline.harvests r = ((Pipeline.drains r).filter (Drain.reads h cfg dev)).map Drain.epoch ∧
    Pipeline.hits r = (Pipeline.harvests r).flatMap (CudaEngine.launchHits h cfg dev) ∧
    ((∀ n, dev.ok n = true) → Pipeline.hits r =
      ((Pipeline.drains r).map Drain.epoch).flatMap (CudaEngine.launchHits h cfg dev)) ∧
    ((Pipeline.starts r).map Prod.fst).Nodup ∧
    ((Pipeline.hits r).map fun x => (x.draw, x.index)).Nodup := by
  intro r
  obtain ⟨hsafe, htidy⟩ : (∀ e ∈ r.log, e.Safe) ∧ Pipeline.Tidy h cfg dev [] r :=
    Pipeline.run_tidy polls slots fun _ _ cur _ _ _ hs => Pipeline.round_ok (kPipelineDepth_ne cur) hs
  have hpush : ((Pipeline.hits r).map fun x => (x.draw, x.index)).Nodup := by
    rw [htidy.hits]
    exact CudaEngine.launches_nodup (htidy.draws.sublist htidy.sublist)
  refine ⟨fun _ he => hsafe _ he, fun _ _ he => hsafe _ he, fun x hx => ?_, htidy.turns,
    htidy.harvests, htidy.hits, htidy.complete, ?_, hpush⟩
  · rw [htidy.hits] at hx
    obtain ⟨d, hd, hx⟩ := List.mem_flatMap.mp hx
    obtain ⟨hit, hm, hx⟩ := CudaEngine.mem_launchHits.mp hx
    have hm := List.mem_of_mem_take hm
    obtain ⟨hdraw, -, -, hp, -⟩ := CudaEngine.slotHit_eq_some.mp hx
    exact ⟨d, htidy.sublist.subset hd, hit, hm, hdraw, hp, CudaEngine.slotHit_scalar hm hx⟩
  · exact List.pairwise_map.mpr (htidy.draws.imp fun hlt => hlt.ne)

def idleSlot : PinnedSlot :=
  let zero : Fe := ⟨0, 0, 0, 0, 0⟩
  ⟨⟨0, 0, Bytes.ofNat 32 0, 0, [], ⟨zero, zero, zero⟩, ⟨0, Vector.replicate _ ⟨0, 0, 0⟩⟩⟩, [],
    ⟨zero, zero, zero⟩, false⟩

/-- the default knobs: the candidates of an epoch are `a0 + 8 * (t + j*T)`, and no hit is lost -/
theorem pipelined_epochs_default :
    let cfg : CudaConfig := ⟨letterPatterns.take 4, 2^14, 128, 3072, by decide, by decide⟩
    let dev := zeroDevice (2^14) 3072
    let m : Timing kPipelineDepth := ⟨fun n => if n % 2 = 0 then [0] else [1], fun _ => 0⟩
    let r := Pipeline.run (constHost 0) cfg dev m (Pipeline.start 9 (Vector.replicate _ idleSlot))
    (∀ x ∈ Pipeline.hits r, ∃ d ∈ Pipeline.starts r,
      ∃ hit ∈ CudaEngine.launchMatches (constHost 0) cfg dev d,
        x.scalar.toNat = (baseScalar (constHost 0) d.1).toNat + 8 * (hit.t + hit.j * 2^14)) ∧
    Pipeline.hits r = ((Pipeline.drains r).map Drain.epoch).flatMap
      (CudaEngine.launchHits (constHost 0) cfg dev) := by
  intro cfg dev m r
  obtain ⟨-, -, hpush, -, -, -, hall, -⟩ :=
    pipelined_epochs (constHost 0) cfg dev m 9 (Vector.replicate _ idleSlot)
  refine ⟨fun x hx => ?_, hall fun _ => rfl⟩
  obtain ⟨d, hd, hit, hm, -, -, -, -, hscalar⟩ := hpush x hx
  exact ⟨d, hd, hit, hm, hscalar (by norm_num [cfg])⟩

end Onion
