import Onion.Engine.Pipelined

/-!
# One slot: `ONION_CUDA_NO_PIPELINE`

* `Serial`           what the loop is meant to be: one epoch after the other, set up, launched and
                     drained;
* `FirstStarts`      the constructor and the first `start_epoch` succeed;
* `round_overlaps`   the next epoch is set up on the slot of the epoch in flight;
* `serial_iff`       when a run is serial.
-/

namespace Onion
open Logged

/-- the checks of `init` and its calls pass, and so do the calls of the first `start_epoch` -/
def FirstStarts (cfg : CudaConfig) (dev : Device cfg.threads cfg.kStepsPerThread) : Prop :=
  cfg.patterns ≠ [] ∧ cfg.patterns.length ≤ kMaxConstPatterns ∧ cfg.threads ≠ 0 ∧ cfg.block ≠ 0 ∧
    ∀ n < 16, dev.ok n = true

namespace Pipeline

/-- no write meets an undrained epoch, every kernel starts on a zero counter, every epoch is drained
in its turn, and what is pushed are the hits of every drained epoch, with its own base scalar, unless
a call of its drain fails -/
def Serial (h : Host) (cfg : CudaConfig) (dev : Device cfg.threads cfg.kStepsPerThread)
    {α : Type} (r : Pipe α) : Prop :=
  (∀ e ∈ r.log, e.Safe) ∧ Tidy h cfg dev [] r

section
variable {depth : Nat} {h : Host} {cfg : CudaConfig}
  {dev : Device cfg.threads cfg.kStepsPerThread} {m : Timing depth} {slot : Fin depth}
  {s : AsyncState depth}

/-! ## the first start -/

theorem allocate_ok (n : Nat) (s : AsyncState depth) : (allocate cfg dev n s).1 = true ↔
    ∀ i < n, dev.ok (s.calls + i) = true := by
  induction n generalizing s with
  | zero => exact ⟨fun _ => nofun, fun _ => rfl⟩
  | succ n ih =>
    rw [allocate]
    have hstep : (∀ i < n + 1, dev.ok (s.calls + i) = true) ↔
        dev.ok s.calls = true ∧ ∀ i < n, dev.ok (s.calls + 1 + i) = true := by
      rw [Nat.forall_lt_succ_left']
      simp only [Nat.add_zero, Nat.add_assoc, Nat.add_comm 1]
    rw [hstep]
    split
    · rename_i hok
      rw [ih, and_iff_right hok]
    · rename_i hok
      exact iff_of_false (by simp) fun hall => hok hall.1

theorem allocate_calls (n : Nat) (s : AsyncState depth) (hok : (allocate cfg dev n s).1 = true) :
    (allocate cfg dev n s).2.calls = s.calls + n := by
  induction n generalizing s with
  | zero => rfl
  | succ n ih =>
    rw [allocate] at hok ⊢
    split at hok
    · rw [if_pos ‹_›, ih _ hok]
      show s.calls + 1 + n = _
      omega
    · cases hok

theorem init_eq (s : AsyncState depth) : init cfg dev s =
    if cfg.patterns ≠ [] ∧ cfg.patterns.length ≤ kMaxConstPatterns ∧ cfg.threads ≠ 0 ∧ cfg.block ≠ 0
    then allocate cfg dev (2 + depth * 9) s else (false, s) := by
  rw [init]
  split
  · rw [if_neg fun h => h.1 ‹_›]
  · split
    · rw [if_neg fun h => absurd h.2.1 (Nat.not_le.mpr ‹_›)]
    · split
      · rename_i h0
        rw [if_neg fun h => h0.elim h.2.2.1 h.2.2.2]
      · rename_i hp hn h0
        rw [if_pos ⟨hp, Nat.le_of_not_lt hn, fun e => h0 (Or.inl e), fun e => h0 (Or.inr e)⟩]

theorem tryStart_live {x : PinnedSlot}
    (hs : ∀ j : Fin depth, (s.slots[j]).Meets (exec cfg dev) ZeroStart)
    (hslot : s.slots[slot] = ⟨x, []⟩) (hx : x.undrained = false) :
    ((tryStart h cfg dev m slot s).val.1 = true ↔
      0 < s.polls ∧ ∀ i < 5, dev.ok (s.calls + i) = true) ∧
    ((tryStart h cfg dev m slot s).val.1 = true →
      (tryStart h cfg dev m slot s).val.2.polls + 1 = s.polls) := by
  unfold tryStart
  split
  · rename_i hp
    rw [hp]
    exact ⟨iff_of_false (by simp) fun h => absurd h.1 (Nat.lt_irrefl 0), nofun⟩
  · rename_i polls hp
    obtain ⟨-, hflag, -, q', ht⟩ :=
      startEpoch_at (h := h) (m := m) (s := { s with polls := polls }) hs hslot hx
    have hflag : (startEpoch h cfg dev m slot { s with polls := polls }).val.1 =
      (dev.ok s.calls && dev.ok (s.calls + 1) && dev.ok (s.calls + 2) &&
        (dev.ok (s.calls + 3) && dev.ok (s.calls + 4))) := hflag
    have hpolls : (startEpoch h cfg dev m slot { s with polls := polls }).val.2.polls = polls :=
      ht.polls
    have hfive : (∀ i < 5, dev.ok (s.calls + i) = true) ↔
        (startEpoch h cfg dev m slot { s with polls := polls }).val.1 = true := by
      rw [hflag]
      simp only [Bool.and_eq_true]
      constructor
      · intro hall
        exact ⟨⟨⟨hall 0 (by omega), hall 1 (by omega)⟩, hall 2 (by omega)⟩, hall 3 (by omega),
          hall 4 (by omega)⟩
      · rintro ⟨⟨⟨h0, h1⟩, h2⟩, h3, h4⟩ i hi
        interval_cases i <;> assumption
    rw [hp, and_iff_right (Nat.succ_pos polls), hfive, bind_val]
    split
    · exact ⟨Iff.rfl, fun _ => congrArg (· + 1) hpolls⟩
    · rename_i hok
      split
      · exact ⟨Iff.rfl, fun h => absurd h hok⟩
      · exact ⟨iff_of_false (by simp) hok, nofun⟩

/-! ## the second start on the same slot -/

/-- the host writes to the slot of an epoch in flight -/
theorem write_undrained {d : Nat × Nat} (f : PinnedSlot → PinnedSlot)
    (hs : ∀ j : Fin depth, (s.slots[j]).Meets (exec cfg dev) ZeroStart)
    (hd : InFlight h cfg dev d s.slots[slot]) :
    PipelineEvent.write true ∈ (write cfg dev m slot f s).log := by
  obtain ⟨-, ht, -⟩ := tick_at (m := m) (At.refl slot hs)
  have hu : ((tick cfg dev m s).val.slots[slot]).now.undrained = true :=
    (hd.later ht.here).undrained
  refine List.mem_append_right _ ?_
  rw [← hu]
  exact List.mem_cons_self

theorem startEpoch_undrained {d : Nat × Nat}
    (hs : ∀ j : Fin depth, (s.slots[j]).Meets (exec cfg dev) ZeroStart)
    (hd : InFlight h cfg dev d s.slots[slot]) :
    PipelineEvent.write true ∈ (startEpoch h cfg dev m slot s).log := by
  have hw := write_undrained (m := m) (s := { s with rng := s.rng + 1 })
    (fun x => { x with draw := s.rng, slotA0 := clamp (h.rand s.rng) }) hs hd
  exact List.mem_append_left _ (List.mem_append_right _ (List.mem_append_left _ hw))

variable [NeZero depth] {cur : Fin depth}

/-- with one slot, the next epoch is set up before this one is drained -/
theorem round_overlaps {d : Nat × Nat} (hcur : cur + 1 = cur) (hs : Ready h cfg dev d cur s)
    (hp : s.polls ≠ 0) : PipelineEvent.write true ∈ (round h cfg dev m cur s).log := by
  have hstart : PipelineEvent.write true ∈ (tryStart h cfg dev m cur s).log := by
    rw [tryStart]
    split
    · exact absurd ‹_› hp
    · rename_i polls _
      exact List.mem_append_left _
        (startEpoch_undrained (s := { s with polls := polls }) hs.meets hs.flight)
  rw [round, hcur]
  exact List.mem_append_left _ hstart

theorem loop_overlaps {d : Nat × Nat} {fuel : Nat} (hcur : cur + 1 = cur)
    (hs : Ready h cfg dev d cur s) (hp : 2 ≤ s.polls) :
    PipelineEvent.write true ∈ (loop h cfg dev m (fuel + 1) cur (true, s)).log := by
  rw [loop, if_neg (not_not.mpr rfl)]
  split
  · omega
  · rename_i polls _
    have hround := round_overlaps (m := m) (s := { s with polls := polls }) hcur
      ⟨hs.flight, hs.idle, hs.rng⟩ (show polls ≠ 0 by omega)
    exact List.mem_append_right _ (List.mem_append_left _ hround)

end

end Pipeline

/-! ## runs -/

section
variable {h : Host} {cfg : CudaConfig} {dev : Device cfg.threads cfg.kStepsPerThread}
  {m : Timing 1} {polls : Nat} {slots : Vector PinnedSlot 1}

theorem firstStarts_iff (slots : Vector PinnedSlot 1) (hp : 0 < polls) : FirstStarts cfg dev ↔
    (Pipeline.init cfg dev (Pipeline.start polls slots)).1 = true ∧
      (Pipeline.tryStart h cfg dev m 0
        (Pipeline.init cfg dev (Pipeline.start polls slots)).2).val.1 = true := by
  have hidle := Pipeline.init_idle dev polls slots
  obtain ⟨x, hx, hxu⟩ := hidle 0
  have hmeets := Pipeline.idle_meets dev hidle
  rw [(Pipeline.tryStart_live (h := h) (m := m) hmeets hx hxu).1, (Pipeline.init_keeps _).2]
  rw [Pipeline.init_eq]
  split
  · rename_i hchecks
    rw [Pipeline.allocate_ok]
    constructor
    · intro hf
      have hok : ∀ n < 16, dev.ok n = true := hf.2.2.2.2
      have halloc : ∀ i < 2 + 1 * 9, dev.ok ((Pipeline.start polls slots).calls + i) = true :=
        fun i hi => hok _ (show 0 + i < 16 by omega)
      refine ⟨halloc, hp, fun i hi => ?_⟩
      rw [Pipeline.allocate_calls _ _ ((Pipeline.allocate_ok _ _).mpr halloc)]
      exact hok _ (show 0 + (2 + 1 * 9) + i < 16 by omega)
    · rintro ⟨halloc, -, hfive⟩
      rw [Pipeline.allocate_calls _ _ ((Pipeline.allocate_ok _ _).mpr halloc)] at hfive
      refine ⟨hchecks.1, hchecks.2.1, hchecks.2.2.1, hchecks.2.2.2, fun n hn => ?_⟩
      by_cases hlt : n < 11
      · have hn := halloc n hlt
        rwa [show (Pipeline.start polls slots).calls + n = n from Nat.zero_add n] at hn
      · have hn := hfive (n - 11) (by omega)
        rwa [show (Pipeline.start polls slots).calls + (2 + 1 * 9) + (n - 11) = n from
          show 0 + (2 + 1 * 9) + (n - 11) = n by omega] at hn
  · rename_i hchecks
    refine iff_of_false (fun hf => hchecks ⟨hf.1, hf.2.1, hf.2.2.1, hf.2.2.2.1⟩) nofun

/-- with three polls to go, the second epoch meets the first -/
theorem run_overlaps (hfirst : FirstStarts cfg dev) (hp : 3 ≤ polls) :
    PipelineEvent.write true ∈
      (Pipeline.run h cfg dev m (Pipeline.start polls slots)).log := by
  obtain ⟨hinit, hl⟩ := (firstStarts_iff (h := h) (m := m) slots
    (show 0 < polls by omega)).mp hfirst
  have hidle := Pipeline.init_idle dev polls slots
  have hpolls : (Pipeline.init cfg dev (Pipeline.start polls slots)).2.polls = polls :=
    (Pipeline.init_keeps _).2
  rw [Pipeline.run, if_neg (not_not.mpr hinit)]
  generalize (Pipeline.init cfg dev (Pipeline.start polls slots)).2 = s at hl hidle hpolls ⊢
  obtain ⟨x, hx, hxu⟩ := hidle 0
  have hleft := (Pipeline.tryStart_live (h := h) (m := m)
    (Pipeline.idle_meets dev hidle) hx hxu).2 hl
  have hhead := Pipeline.tryStart_head (h := h) (m := m) dev hidle
  refine List.mem_append_right _ ?_
  generalize (Pipeline.tryStart h cfg dev m 0 s) = t at hl hleft hhead ⊢
  obtain ⟨⟨live, u⟩, tlog⟩ := t
  obtain rfl : live = true := hl
  have hu : u.polls + 1 = s.polls := hleft
  obtain ⟨fuel, rfl⟩ : ∃ fuel, polls = fuel + 1 := ⟨polls - 1, by omega⟩
  generalize Pipeline.starts _ = ds at hhead
  cases hhead with
  | live hs => exact Pipeline.loop_overlaps rfl hs (by omega)

/-- **One slot.**  A run of the build without the pipeline is serial only as long as it starts one
epoch: with the constructor and the first start through, and three polls of the stop token to go, the
second epoch is set up on the slot of the first, which is still in flight. -/
theorem serial_iff (h : Host) (cfg : CudaConfig) (dev : Device cfg.threads cfg.kStepsPerThread)
    (m : Timing 1) (polls : Nat) (slots : Vector PinnedSlot 1) :
    Pipeline.Serial h cfg dev (Pipeline.run h cfg dev m (Pipeline.start polls slots)) ↔
      ¬(FirstStarts cfg dev ∧ 3 ≤ polls) := by
  constructor
  · rintro ⟨hsafe, -⟩ ⟨hfirst, hp⟩
    exact absurd (hsafe _ (run_overlaps hfirst hp)) (by simp [PipelineEvent.Safe])
  · intro hnot
    refine Pipeline.run_tidy polls slots fun hinit hl cur d s hlt hs => Pipeline.round_last ?_ hs
    have hfirst : FirstStarts cfg dev := (firstStarts_iff slots (show 0 < polls by omega)).mpr ⟨hinit, hl⟩
    have hp : ¬ 3 ≤ polls := fun hp => hnot ⟨hfirst, hp⟩
    omega

/-- three polls to go, and streams that do nothing on their own -/
theorem second_epoch_overlaps :
    let cfg : CudaConfig := ⟨letterPatterns.take 4, 8, 4, 16, by decide, by decide⟩
    let m : Timing 1 := ⟨fun _ => [], fun _ => 0⟩
    let r := Pipeline.run (constHost 0) cfg (zeroDevice 8 16) m
      (Pipeline.start 3 (Vector.replicate _ idleSlot))
    PipelineEvent.write true ∈ r.log ∧ ¬ Pipeline.Serial (constHost 0) cfg (zeroDevice 8 16) r := by
  intro cfg m r
  have hfirst : FirstStarts cfg (zeroDevice 8 16) :=
    ⟨by decide, by decide, by decide, by decide, fun _ _ => rfl⟩
  have hw : PipelineEvent.write true ∈ r.log := run_overlaps hfirst le_rfl
  exact ⟨hw, fun hserial => Bool.noConfusion (show true = false from hserial.1 _ hw)⟩

end

end Onion
