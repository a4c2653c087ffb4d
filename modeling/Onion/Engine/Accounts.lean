import Onion.Crypto.Order
import Onion.Engine.Found

/-!
# What `CudaEngine` counts

* `launchDegenerate`   the recorded matches of a launch that have no public key, at most one;
* `counters`           the counters that only a drain changes;
* `accounted`          every recorded match of a harvested launch is pushed or counted as degenerate,
                       and the statistics count whole launches.
-/

namespace Onion
open Logged

namespace CudaEngine

/-! ## one launch -/

section
variable {h : Host} {cfg : CudaConfig} {dev : Device cfg.threads cfg.kStepsPerThread} {d : Nat × Nat}

/-- the recorded matches that libsodium rejects -/
def degenerates (h : Host) (cfg : CudaConfig) (draw : Nat) (slots : List HitSlot) : Nat :=
  slots.countP fun hit => (slotHit h cfg draw hit).isNone

/-- those of a launch -/
def launchDegenerate (h : Host) (cfg : CudaConfig) (dev : Device cfg.threads cfg.kStepsPerThread)
    (d : Nat × Nat) : Nat :=
  degenerates h cfg d.1 ((launchMatches h cfg dev d).take kMaxHitSlots)

theorem filterMap_length_add {α β : Type} (f : α → Option β) (l : List α) :
    (l.filterMap f).length + l.countP (fun a => (f a).isNone) = l.length := by
  induction l with
  | nil => rfl
  | cons a l ih =>
    cases hf : f a with
    | none =>
      rw [List.filterMap_cons_none hf, List.countP_cons_of_pos (by rw [hf]; rfl), List.length_cons]
      omega
    | some b =>
      rw [List.filterMap_cons_some hf, List.countP_cons_of_neg (by rw [hf]; exact Bool.false_ne_true),
        List.length_cons, List.length_cons]
      omega

theorem launchHits_length : (launchHits h cfg dev d).length + launchDegenerate h cfg dev d =
    min (launchMatches h cfg dev d).length kMaxHitSlots := by
  rw [launchHits, launchDegenerate, degenerates, filterMap_length_add, List.length_take, Nat.min_comm]

/-- the walk from a base scalar meets the identity once at most -/
theorem launchDegenerate_le_one (hrfc : Rfc8032 h.baseNoclamp) (hM : cfg.kStepsPerThread ≤ 2^30) :
    launchDegenerate h cfg dev d ≤ 1 := by
  have hindex : ∀ hit ∈ launchMatches h cfg dev d, hitIndex cfg.threads hit < 2^61 := by
    intro hit hm
    obtain ⟨ht, hj⟩ := launchMatches_lt hm
    have hT := cfg.threads_lt
    have hmul : (hit.j + 1) * cfg.threads ≤ 2^30 * 2^31 := Nat.mul_le_mul (by omega) hT.le
    rw [Nat.add_mul] at hmul
    exact (Nat.mod_le _ _).trans_lt (by omega)
  have hpairs : ((launchMatches h cfg dev d).take kMaxHitSlots).Pairwise fun a b =>
      ¬ ((slotHit h cfg d.1 a).isNone = true ∧ (slotHit h cfg d.1 b).isNone = true) := by
    have hne : (launchMatches h cfg dev d).Pairwise fun a b =>
        hitIndex cfg.threads a ≠ hitIndex cfg.threads b := launchMatches_index
    refine ((hne.imp_of_mem fun {a b} ha hb hne hnone => hne ?_).sublist (List.take_sublist _ _))
    obtain ⟨ha', hb'⟩ := hnone
    rw [Option.isNone_iff_eq_none, slotHit, Option.map_eq_none_iff] at ha' hb'
    exact walk_none_inj hrfc (clamp_toNat _).2.2 (hindex a ha) (hindex b hb) ha' hb'
  rw [launchDegenerate, degenerates, List.countP_eq_length_filter]
  have hfilter := hpairs.filter fun hit => (slotHit h cfg d.1 hit).isNone
  have hall : ∀ a ∈ List.filter (fun hit => (slotHit h cfg d.1 hit).isNone)
      ((launchMatches h cfg dev d).take kMaxHitSlots), (slotHit h cfg d.1 a).isNone = true :=
    fun a ha => (List.mem_filter.mp ha).2
  generalize List.filter _ _ = l at hfilter hall
  cases l with
  | nil => exact Nat.zero_le _
  | cons a l =>
    cases l with
    | nil => exact le_rfl
    | cons b l =>
      obtain ⟨hhead, -⟩ := List.pairwise_cons.mp hfilter
      exact absurd ⟨hall a List.mem_cons_self, hall b (by simp)⟩ (hhead b List.mem_cons_self)

end

/-! ## the counters -/

/-- the counters that only a drain and the end of a round change -/
def counters {depth : Nat} (s : CudaState depth) : Nat × Nat × Nat :=
  (s.droppedDegenerate, s.total, s.stat)

section
variable {depth : Nat} {h : Host} {cfg : CudaConfig} {dev : Device cfg.threads cfg.kStepsPerThread}
  {slot : Fin depth} {s : CudaState depth}

theorem call_counters (f : Nat → PipelineSlot → PipelineSlot) :
    counters (call cfg dev slot f s).2 = counters s := by
  rw [call]
  split <;> rfl

theorem cudaOk_counters {r : Bool × CudaState depth} {f : CudaState depth → Bool × CudaState depth}
    (hr : counters r.2 = counters s) (hf : ∀ t, counters (f t).2 = counters t) :
    counters (cudaOk r f).2 = counters s := by
  rw [cudaOk]
  split
  · exact (hf _).trans hr
  · exact hr

theorem allocate_counters (n : Nat) : counters (allocate cfg dev n s).2 = counters s := by
  induction n generalizing s with
  | zero => rfl
  | succ n ih =>
    rw [allocate]
    split
    · exact ih
    · rfl

theorem init_counters : counters (init cfg dev s).2 = counters s := by
  rw [init]
  split
  · rfl
  · split
    · rfl
    · split
      · rfl
      · exact allocate_counters _

theorem startEpoch_counters : counters (startEpoch h cfg dev slot s).val.2 = counters s := by
  rw [startEpoch, bind_val]
  refine cudaOk_counters ?_ fun t => ?_
  · rw [setupEpoch, bind_val]
    refine cudaOk_counters (cudaOk_counters (call_counters _) fun t => call_counters _) fun t => ?_
    exact call_counters _
  · rw [launchEpoch]
    exact cudaOk_counters (call_counters _) fun t => call_counters _

theorem tryStart_counters : counters (tryStart h cfg dev slot s).val.2 = counters s := by
  rw [tryStart]
  split
  · rfl
  · rw [bind_val]
    split
    · exact startEpoch_counters
    · split
      · exact startEpoch_counters
      · exact startEpoch_counters

end

/-! ## a drain -/

/-- the counter of degenerate scalars has gone up by `n`, and the statistics have not moved -/
structure Counts {depth : Nat} (n : Nat) (s r : CudaState depth) : Prop where
  degenerate : r.droppedDegenerate = (s.droppedDegenerate + n) % 2^64
  total : r.total = s.total
  stat : r.stat = s.stat

section
variable {depth : Nat} {h : Host} {cfg : CudaConfig} {dev : Device cfg.threads cfg.kStepsPerThread}
  {slot : Fin depth} {s r t : CudaState depth} {x : PipelineSlot} {n m : Nat}

theorem Counts.zero (hs : s.droppedDegenerate < 2^64) (hr : counters r = counters s) :
    Counts 0 s r := by
  obtain ⟨hd, hrest⟩ := Prod.mk.inj hr
  obtain ⟨htotal, hstat⟩ := Prod.mk.inj hrest
  exact ⟨by rw [hd, Nat.add_zero, Nat.mod_eq_of_lt hs], htotal, hstat⟩

theorem Counts.trans (h : Counts n s r) (h' : Counts m r t) : Counts (n + m) s t where
  degenerate := by rw [h'.degenerate, h.degenerate, Nat.mod_add_mod, Nat.add_assoc]
  total := h'.total.trans h.total
  stat := h'.stat.trans h.stat

theorem Counts.lt (h : Counts n s r) : r.droppedDegenerate < 2^64 :=
  h.degenerate ▸ Nat.mod_lt _ (Nat.two_pow_pos 64)

theorem pushHit_counts (hs : s.droppedDegenerate < 2^64) (hit : HitSlot) :
    Counts (if (recordedHit h cfg x hit).isNone then 1 else 0) s (pushHit h cfg x hit s).val := by
  obtain hk | ⟨pk, hk⟩ := Option.eq_none_or_eq_some
    (h.baseNoclamp (scalarAdd8i x.slotA0 (hitIndex cfg.threads hit)))
  · have hnone : (recordedHit h cfg x hit).isNone = true := by
      simp only [recordedHit, hk, Option.map_none, Option.isNone_none]
    rw [if_pos hnone]
    simp only [pushHit, pubkeyFromScalar, hk]
    exact ⟨rfl, rfl, rfl⟩
  · have hsome : ¬ (recordedHit h cfg x hit).isNone = true := by
      simp only [recordedHit, hk, Option.map_some, Option.isNone_some, Bool.false_eq_true,
        not_false_iff]
    rw [if_neg hsome]
    simp only [pushHit, pubkeyFromScalar, hk]
    exact Counts.zero hs rfl

theorem pushHits_counts (slots : List HitSlot) (hs : s.droppedDegenerate < 2^64) :
    Counts (slots.countP fun hit => (recordedHit h cfg x hit).isNone) s
      (forEach (pushHit h cfg x) slots s).val := by
  induction slots generalizing s with
  | nil => exact Counts.zero hs rfl
  | cons hit slots ih =>
    have hfirst : Counts (if (recordedHit h cfg x hit).isNone then 1 else 0) s
        (pushHit h cfg x hit s).val := pushHit_counts hs hit
    rw [forEach, bind_val, List.countP_cons, Nat.add_comm]
    exact hfirst.trans (ih hfirst.lt)

theorem harvest_counts (h : Host) (cfg : CudaConfig) (dev : Device cfg.threads cfg.kStepsPerThread)
    (slot : Fin depth) (hs : s.droppedDegenerate < 2^64) :
    let x := s.slots[slot]
    let r := harvest h cfg dev slot s
    harvests r = [] ∧ counters r.val.2 = counters s ∨ harvests r = [(x.draw, x.launch)] ∧
      Counts ((recorded x).countP fun hit => (recordedHit h cfg x hit).isNone) s r.val.2 := by
  intro x r
  have hcall : counters (call cfg dev slot (fun _ x => x) (countOverflow x.hHitCount s)).2 =
      counters s := by
    rw [call_counters, countOverflow]
    split <;> rfl
  have hrecorded := harvest_recorded h dev slot s
  dsimp only at hrecorded
  rcases hrecorded with ⟨hval, hd, -⟩ | ⟨hval, hd, -⟩
  · refine Or.inl ⟨hd, ?_⟩
    show counters (harvest h cfg dev slot s).val.2 = counters s
    rw [harvest] at hval ⊢
    split
    · exact hcall
    · rename_i hok
      rw [if_neg hok] at hval
      cases hval
  · refine Or.inr ⟨hd, ?_⟩
    show Counts _ s (harvest h cfg dev slot s).val.2
    rw [harvest] at hval ⊢
    split
    · rename_i hfail
      rw [if_pos hfail] at hval
      exact absurd hval hfail
    · have hmin : (if x.hHitCount < kMaxHitSlots then x.hHitCount else kMaxHitSlots) =
          min x.hHitCount kMaxHitSlots := by
        split <;> omega
      have hzero : Counts 0 s _ := Counts.zero hs hcall
      rw [bind_val, bind_val, hmin, ← Nat.zero_add (List.countP _ _)]
      exact hzero.trans (pushHits_counts _ hzero.lt)

/-- a drain counts the degenerate matches of the launch that it harvests -/
theorem drainEpoch_counts (slot : Fin depth) (hs : s.droppedDegenerate < 2^64)
    (hl : Launched h cfg dev s.slots[slot]) :
    let r := drainEpoch h cfg dev slot s
    Counts ((harvests r).map (launchDegenerate h cfg dev)).sum s r.val.2 := by
  have hsync : counters (call cfg dev slot (fun _ x => x) s).2 = counters s := call_counters _
  have hslot : (call cfg dev slot (fun _ x => x) s).2.slots[slot] = s.slots[slot] :=
    congrArg (fun v : Vector PipelineSlot depth => v[slot]) (call_keeps dev slot s).1
  have hzero : Counts 0 s (call cfg dev slot (fun _ x => x) s).2 := Counts.zero hs hsync
  dsimp only
  rw [drainEpoch]
  split
  · exact hzero
  · split
    · exact hzero
    · have hharvest := harvest_counts h cfg dev slot hzero.lt
      dsimp only at hharvest
      rw [hslot, hl.recorded, hl.recordedHit] at hharvest
      rcases hharvest with ⟨hd, hsame⟩ | ⟨hd, hcounts⟩
      · rw [hd]
        exact Counts.zero hs (hsame.trans hsync)
      · rw [hd, List.map_singleton, List.sum_singleton, ← Nat.zero_add (launchDegenerate ..)]
        exact hzero.trans hcounts

end

/-! ## a run -/

/-- what a run has counted: the degenerate matches of the launches that it harvested, and `n` rounds -/
structure Accounted {depth : Nat} (h : Host) (cfg : CudaConfig)
    (dev : Device cfg.threads cfg.kStepsPerThread) (n : Nat) (s : CudaState depth)
    (r : Worker (CudaState depth)) : Prop where
  degenerate : r.val.droppedDegenerate =
    (s.droppedDegenerate + ((harvests r).map (launchDegenerate h cfg dev)).sum) % 2^64
  total : r.val.total = (s.total + n * (cfg.threads * cfg.kStepsPerThread)) % 2^64
  stat : r.val.stat = r.val.total
  rounds : (harvests r).length ≤ n

/-- the counters fit their registers, and the slot of the board shows the total -/
structure Shown {depth : Nat} (s : CudaState depth) : Prop where
  degenerate : s.droppedDegenerate < 2^64
  total : s.total < 2^64
  stat : s.stat = s.total

section
variable {depth : Nat} {h : Host} {cfg : CudaConfig} {dev : Device cfg.threads cfg.kStepsPerThread}
  {s t : CudaState depth}

theorem Shown.congr (hs : Shown s) (hc : counters t = counters s) : Shown t := by
  obtain ⟨hdd, hrest⟩ := Prod.mk.inj hc
  obtain ⟨htotal, hstat⟩ := Prod.mk.inj hrest
  exact ⟨hdd ▸ hs.degenerate, htotal ▸ hs.total, by rw [hstat, htotal, hs.stat]⟩

theorem Accounted.congr {n : Nat} {r : Worker (CudaState depth)} (ha : Accounted h cfg dev n t r)
    (hc : counters t = counters s) : Accounted h cfg dev n s r := by
  obtain ⟨hdd, hrest⟩ := Prod.mk.inj hc
  obtain ⟨htotal, -⟩ := Prod.mk.inj hrest
  exact ⟨hdd ▸ ha.degenerate, htotal ▸ ha.total, ha.stat, ha.rounds⟩

theorem Shown.idle (hs : Shown s) : Accounted h cfg dev 0 s (pure s) where
  degenerate := (Nat.mod_eq_of_lt hs.degenerate).symm
  total := by rw [Nat.zero_mul, Nat.add_zero, Nat.mod_eq_of_lt hs.total]; rfl
  stat := hs.stat
  rounds := le_rfl

variable [NeZero depth]

theorem round_accounted {cur : Fin depth} (hne : cur ≠ cur + 1)
    (hl : Launched h cfg dev s.slots[cur]) (hdraw : s.slots[cur].draw < s.rng) (hs : Shown s) :
    let r := round h cfg dev cur s
    (harvests r).length ≤ 1 ∧ r.val.2.droppedDegenerate =
      (s.droppedDegenerate + ((harvests r).map (launchDegenerate h cfg dev)).sum) % 2^64 ∧
      r.val.2.total = (s.total + cfg.threads * cfg.kStepsPerThread) % 2^64 ∧
      r.val.2.stat = r.val.2.total := by
  intro r
  have hstart : counters (tryStart h cfg dev (cur + 1) s).val.2 = counters s := tryStart_counters
  have hcur : (tryStart h cfg dev (cur + 1) s).val.2.slots[cur] = s.slots[cur] :=
    tryStart_frame.others cur hne
  obtain ⟨hdd, hrest⟩ := Prod.mk.inj hstart
  have hcount : (tryStart h cfg dev (cur + 1) s).val.2.droppedDegenerate < 2^64 := by
    rw [hdd]
    exact hs.degenerate
  have hdrain := drainEpoch_counts cur hcount (hcur.symm ▸ hl)
  have hd : harvests r = harvests (drainEpoch h cfg dev cur (tryStart h cfg dev (cur + 1) s).val.2) := by
    show select _ (round h cfg dev cur s) = _
    rw [round, select_bind, select_bind, tryStart_silent fun _ => rfl]
    exact List.append_nil _
  refine ⟨?_, ?_, ?_, rfl⟩
  · rcases (round_run hne hl hdraw).1 with ⟨h0, -⟩ | ⟨h1, -⟩
    · rw [show harvests r = [] from h0]
      exact Nat.zero_le _
    · rw [show harvests r = [_] from h1]
      exact le_rfl
  · rw [hd, ← hdd]
    exact hdrain.degenerate
  · show ((drainEpoch h cfg dev cur _).val.2.total + _) % _ = _
    rw [hdrain.total, (Prod.mk.inj hrest).1]

theorem loop_accounted (hne : ∀ c : Fin depth, c ≠ c + 1) (fuel : Nat) (cur : Fin depth)
    (live : Bool) (s : CudaState depth) (hs : Shown s)
    (hcur : live = true → Launched h cfg dev s.slots[cur] ∧ s.slots[cur].draw < s.rng) :
    ∃ n ≤ fuel, Accounted h cfg dev n s (loop h cfg dev fuel cur (live, s)) := by
  induction fuel generalizing cur live s with
  | zero => exact ⟨0, le_rfl, hs.idle⟩
  | succ fuel ih =>
    cases live with
    | false =>
      rw [loop_dead]
      exact ⟨0, Nat.zero_le _, hs.idle⟩
    | true =>
      obtain ⟨hl, hdraw⟩ := hcur rfl
      rw [loop, if_neg (not_not.mpr rfl)]
      cases hp : s.polls with
      | zero => exact ⟨0, Nat.zero_le _, hs.idle⟩
      | succ polls =>
        obtain ⟨-, hnext⟩ := round_run (s := { s with polls := polls }) (hne cur) hl hdraw
        obtain ⟨hlen, hdd, htotal, hstat⟩ := round_accounted (s := { s with polls := polls }) (hne cur)
          hl hdraw ⟨hs.degenerate, hs.total, hs.stat⟩
        dsimp only at hnext hlen hdd htotal hstat ⊢
        generalize round h cfg dev cur { s with polls := polls } = r at hnext hlen hdd htotal hstat ⊢
        have hr : Shown r.val.2 := ⟨hdd ▸ Nat.mod_lt _ (Nat.two_pow_pos 64),
          htotal ▸ Nat.mod_lt _ (Nat.two_pow_pos 64), hstat⟩
        obtain ⟨n, hn, ha⟩ := ih (cur + 1) r.val.1 r.val.2 hr
          fun hlive => ⟨(hnext hlive).1, (hnext hlive).2.2⟩
        have hdrains : harvests (r >>= loop h cfg dev fuel (cur + 1)) =
            harvests r ++ harvests (loop h cfg dev fuel (cur + 1) r.val) := select_bind r _
        refine ⟨n + 1, Nat.succ_le_succ hn, ?_, ?_, ha.stat, ?_⟩
        · rw [hdrains, List.map_append, List.sum_append, ← Nat.add_assoc, ← Nat.mod_add_mod, ← hdd]
          exact ha.degenerate
        · have htail : (loop h cfg dev fuel (cur + 1) r.val).val.total = _ := ha.total
          rw [bind_val, htail, htotal, Nat.mod_add_mod, Nat.add_mul, Nat.one_mul, Nat.add_assoc,
            Nat.add_comm (n * _)]
        · rw [hdrains, List.length_append, Nat.add_comm n]
          exact Nat.add_le_add hlen ha.rounds

theorem run_accounted (hne : ∀ c : Fin depth, c ≠ c + 1) (hs : Shown s) :
    ∃ n ≤ s.polls, Accounted h cfg dev n s (run h cfg dev s) := by
  have hinit : counters (init cfg dev s).2 = counters s := init_counters
  rw [run]
  split
  · exact ⟨0, Nat.zero_le _, ((hs.congr hinit).idle).congr hinit⟩
  · generalize (init cfg dev s).2 = t at hinit
    have hstart : counters (tryStart h cfg dev 0 t).val.2 = counters s := tryStart_counters.trans hinit
    have hlaunched : ∀ hlive : (tryStart h cfg dev 0 t).val.1 = true,
        Launched h cfg dev (tryStart h cfg dev 0 t).val.2.slots[(0 : Fin depth)] ∧
          (tryStart h cfg dev 0 t).val.2.slots[(0 : Fin depth)].draw <
            (tryStart h cfg dev 0 t).val.2.rng := fun hlive =>
      ⟨(tryStart_slot hlive).1, (tryStart_slot hlive).2.1 ▸ (tryStart_slot hlive).2.2⟩
    obtain ⟨n, hn, ha⟩ := loop_accounted hne s.polls 0 _ _ (hs.congr hstart) hlaunched
    have hd : harvests (tryStart h cfg dev 0 t >>= loop h cfg dev s.polls 0) =
        harvests (loop h cfg dev s.polls 0 (tryStart h cfg dev 0 t).val) := by
      rw [harvests, select_bind, tryStart_silent fun _ => rfl]
      rfl
    have ha := ha.congr hstart
    exact ⟨n, hn, by rw [hd]; exact ha.degenerate, ha.total, ha.stat, by rw [hd]; exact ha.rounds⟩

end

/-- **What the GPU engine counts**, in every run: each of the first 256 matches of a harvested launch
is pushed, or counted in `dropped_degenerate` (one at most in a launch); and the slot of the board
shows as many whole launches as there were rounds, harvested or not. -/
theorem accounted (h : Host) (hrfc : Rfc8032 h.baseNoclamp) (cfg : CudaConfig)
    (hM : cfg.kStepsPerThread ≤ 2^30) (dev : Device cfg.threads cfg.kStepsPerThread)
    (s : CudaState kPipelineDepth) (h0 : s.droppedDegenerate = 0 ∧ s.total = 0 ∧ s.stat = 0) :
    let r := run h cfg dev s
    let ds := harvests r
    (pushes r).length + (ds.map (launchDegenerate h cfg dev)).sum =
      (ds.map fun d => min (launchMatches h cfg dev d).length kMaxHitSlots).sum ∧
    r.val.droppedDegenerate = (ds.map (launchDegenerate h cfg dev)).sum % 2^64 ∧
    (∀ d ∈ ds, launchDegenerate h cfg dev d ≤ 1) ∧
    ∃ rounds ≤ s.polls, ds.length ≤ rounds ∧
      r.val.stat = rounds * (cfg.threads * cfg.kStepsPerThread) % 2^64 := by
  intro r ds
  obtain ⟨hdd, htotal, hstat⟩ := h0
  have hs : Shown s := ⟨by rw [hdd]; exact Nat.two_pow_pos 64, by rw [htotal]; exact Nat.two_pow_pos 64,
    hstat.trans htotal.symm⟩
  have hpushes : (pushes r).length + (ds.map (launchDegenerate h cfg dev)).sum =
      (ds.map fun d => min (launchMatches h cfg dev d).length kMaxHitSlots).sum := by
    have hhits : hits r = ds.flatMap (launchHits h cfg dev) := (run_hits kPipelineDepth_ne s).1
    rw [← List.length_map (f := Push.hit), pushes_hit, hhits, List.length_flatMap, ← List.sum_map_add]
    exact congrArg List.sum (List.map_congr_left fun d _ => launchHits_length)
  obtain ⟨n, hn, ha⟩ : ∃ n ≤ s.polls, Accounted h cfg dev n s r := run_accounted kPipelineDepth_ne hs
  refine ⟨hpushes, ?_, fun d _ => launchDegenerate_le_one hrfc hM, n, hn, ha.rounds, ?_⟩
  · rw [ha.degenerate, hdd, Nat.zero_add]
  · rw [ha.stat, ha.total, htotal, Nat.zero_add]

/-- four letters, on a device whose threads all compare zeroes -/
theorem accounted_letters :
    let cfg : CudaConfig := ⟨letterPatterns.take 4, 8, 4, 16, by decide, by decide⟩
    let dev := zeroDevice 8 16
    let r := run (constHost 0) cfg dev (startCuda 9)
    let ds := harvests r
    (pushes r).length + (ds.map (launchDegenerate (constHost 0) cfg dev)).sum =
      (ds.map fun d => min (launchMatches (constHost 0) cfg dev d).length kMaxHitSlots).sum ∧
    r.val.droppedDegenerate = (ds.map (launchDegenerate (constHost 0) cfg dev)).sum % 2^64 ∧
    (∀ d ∈ ds, launchDegenerate (constHost 0) cfg dev d ≤ 1) ∧
    ∃ rounds ≤ 9, ds.length ≤ rounds ∧ r.val.stat = rounds * (8 * 16) % 2^64 := by
  intro cfg dev
  exact accounted (constHost 0) rfcBase_rfc8032 cfg (by decide) dev (startCuda 9) ⟨rfl, rfl, rfl⟩

end CudaEngine

end Onion
