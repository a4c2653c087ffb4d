import Onion.Lib.AppendBuffer
import Onion.Engine.Found

/-!
# `match_and_record` in all interleavings

The threads of a launch run freely against each other.  Of `match_and_record` two things reach the
memory that they share: the `atomicAdd` on the counter, and the stores of the three fields of a slot.

* `Launch.step`        the next access of a thread;
* `finished_claims`    a finished launch has claimed every match once, in some order;
* `finished_serial`    it leaves the counter and the slots as `searchKernel` does in that order;
* `slots_complete`     what `drain_epoch` finds after any interleaving.
-/

namespace Onion
open Logged

/-- the stores of `match_and_record`: `t`, then `j`, then `pattern_index` -/
def HitSlot.writes : List (HitSlot → HitSlot → HitSlot) :=
  [fun hit slot => { slot with t := hit.t }, fun hit slot => { slot with j := hit.j },
    fun hit slot => { slot with patternIndex := hit.patternIndex }]

theorem HitSlot.fill_writes (hit slot : HitSlot) : AppendBuffer.fill hit HitSlot.writes slot = hit :=
  rfl

namespace Launch
variable (patterns : List CompiledPattern) (y : Nat → Nat → Bytes 32) (T M : Nat)

/-- what thread `t` records, from step `M-1` down to step `0` -/
def program (t : Nat) : List (Option HitSlot) :=
  (List.range M).reverse.map fun j => firstHit patterns y (t, j)

/-- one access of a thread: the counter is an `int` -/
def step : AppendBuffer.State HitSlot → Nat → Option (AppendBuffer.State HitSlot) :=
  AppendBuffer.step (2^32) kMaxHitSlots HitSlot.writes

/-- a zero counter, and slots with anything in them; threads from `T` on return at once -/
def start (slots : Int → HitSlot) : AppendBuffer.State HitSlot :=
  AppendBuffer.start T (program patterns y M) slots

/-- the candidates that match some pattern -/
def matching : List (Nat × Nat) :=
  (candidates T M).filter fun c => patterns.any fun pat => matchesPubkey pat (y c.1 c.2)

/-- the hit slots as the host sees them -/
def buffer (s : AppendBuffer.State HitSlot) : HitBuffer :=
  ⟨s.mem.counter.toNat, Vector.ofFn fun i => s.mem.cells i⟩

variable {patterns y T M}

theorem firstHit_eq_some {c : Nat × Nat} {hit : HitSlot} (h : firstHit patterns y c = some hit) :
    (hit.t, hit.j) = c := by
  obtain ⟨p, -, rfl⟩ := Option.map_eq_some_iff.mp h
  rfl

variable (patterns y) in
theorem firstHit_isSome (c : Nat × Nat) :
    (firstHit patterns y c).isSome = patterns.any fun pat => matchesPubkey pat (y c.1 c.2) := by
  rw [firstHit, Option.isSome_map, List.findIdx?_isSome]

theorem matching_eq : matching patterns y T M =
    ((candidates T M).filterMap (firstHit patterns y)).map fun hit => (hit.t, hit.j) := by
  rw [matching]
  generalize candidates T M = cs
  induction cs with
  | nil => rfl
  | cons c cs ih =>
    have hc := firstHit_isSome patterns y c
    rw [List.filterMap_cons]
    cases h : firstHit patterns y c with
    | none =>
      rw [h] at hc
      rw [List.filter_cons_of_neg (by rw [← hc]; exact Bool.false_ne_true), ih]
    | some hit =>
      rw [h] at hc
      rw [List.filter_cons_of_pos (by rw [← hc]; rfl), List.map_cons, firstHit_eq_some h, ih]

theorem matching_length : (matching patterns y T M).length =
    ((candidates T M).filterMap (firstHit patterns y)).length := by
  rw [matching_eq, List.length_map]

theorem programs_perm : ((List.range T).flatMap fun t => (program patterns y M t).filterMap id).Perm
    ((candidates T M).filterMap (firstHit patterns y)) := by
  rw [candidates, List.filterMap_flatMap]
  refine List.Perm.flatMap_left _ fun t _ => ?_
  rw [program, List.filterMap_map, List.filterMap_map]
  exact (List.reverse_perm _).filterMap _

/-! ## finished launches -/

section
variable {slots : Int → HitSlot} {es : List Nat} {s : AppendBuffer.State HitSlot}
  (hfew : (matching patterns y T M).length < 2^31)
  (hrun : Trace.run step (start patterns y T M slots) es = some s)
include hfew hrun

theorem run_claims : ∃ ms, AppendBuffer.Inv T kMaxHitSlots
    ((List.range T).flatMap fun t => (program patterns y M t).filterMap id) slots ms s := by
  refine AppendBuffer.run_invariant (m := 2^32) ?_ HitSlot.fill_writes hrun
  rw [programs_perm.length_eq, ← matching_length]
  omega

theorem finished_claims (hdone : AppendBuffer.Finished s) :
    ∃ ms : List HitSlot, ms.Perm ((candidates T M).filterMap (firstHit patterns y)) ∧
      s.mem.counter = ms.length ∧
      ∀ i : Nat, s.mem.cells i =
        if i < min ms.length kMaxHitSlots then ms.getD i (slots i) else slots i := by
  obtain ⟨ms, hinv⟩ := run_claims hfew hrun
  obtain ⟨hperm, hcount, hcells⟩ := AppendBuffer.finished_cells hinv hdone
  refine ⟨ms, hperm.trans programs_perm, hcount.trans (by rw [hperm.length_eq]), fun i => ?_⟩
  by_cases hi : i < min ms.length kMaxHitSlots
  · have hlt : i < ms.length := hi.trans_le (min_le_left _ _)
    rw [if_pos hi, List.getD_eq_getElem _ _ hlt]
    exact hcells i _ (hi.trans_le (min_le_right _ _)) (List.getElem?_eq_getElem hlt)
  · rw [if_neg hi]
    exact hinv.rest i (by omega)

end

/-! ## the same launch, one match after the other -/

theorem foldl_add (ms : List HitSlot) (buf : HitBuffer) (h0 : buf.hitCount = 0) :
    (ms.foldl HitBuffer.add buf).hitCount = ms.length ∧
      ∀ i (hi : i < kMaxHitSlots), (ms.foldl HitBuffer.add buf).slots[i] =
        if i < min ms.length kMaxHitSlots then ms.getD i buf.slots[i] else buf.slots[i] := by
  induction ms using List.reverseRecOn with
  | nil => exact ⟨h0, fun i hi => rfl⟩
  | append_singleton ms hit ih =>
    obtain ⟨hcount, hslots⟩ := ih
    rw [List.foldl_append, List.foldl_cons, List.foldl_nil, List.length_append,
      List.length_singleton]
    generalize ms.foldl HitBuffer.add buf = r at hcount hslots
    refine ⟨by rw [HitBuffer.add, hcount], fun i hi => ?_⟩
    have hget : (r.add hit).slots[i] = if i = ms.length then hit else r.slots[i] := by
      rw [HitBuffer.add]
      dsimp only
      split
      · rw [Vector.getElem_set]
        exact if_congr (by rw [hcount, eq_comm]) rfl rfl
      · rw [if_neg (by omega)]
    rw [hget, hslots i hi]
    by_cases hlast : i = ms.length
    · have hlt : i < (ms ++ [hit]).length := by
        rw [hlast, List.length_append]
        exact Nat.lt_succ_self _
      rw [if_pos hlast, if_pos (by omega), List.getD_eq_getElem _ _ hlt]
      simp only [hlast, List.getElem_concat_length]
    · rw [if_neg hlast]
      by_cases hlt : i < min ms.length kMaxHitSlots
      · rw [if_pos hlt, if_pos (by omega), List.getD_append _ _ _ _ (by omega)]
      · rw [if_neg hlt, if_neg (by omega)]

/-- matches only count, in the order in which they come -/
theorem foldl_matchAndRecord (cs : List (Nat × Nat)) (buf : HitBuffer) :
    cs.foldl (fun buf c => matchAndRecord (y c.1 c.2) c.1 c.2 patterns 0 buf) buf =
      (cs.filterMap (firstHit patterns y)).foldl HitBuffer.add buf := by
  induction cs generalizing buf with
  | nil => rfl
  | cons c cs ih =>
    rw [List.foldl_cons, matchAndRecord_firstHit, List.filterMap_cons]
    cases firstHit patterns y c with
    | none => exact ih buf
    | some hit => exact ih (buf.add hit)

/-- every order of the matches is the order of all candidates, up to those that do not match -/
theorem order_of_matches {ms : List HitSlot}
    (hms : ms.Perm ((candidates T M).filterMap (firstHit patterns y))) :
    ∃ order : List (Nat × Nat), order.Perm (candidates T M) ∧
      order.filterMap (firstHit patterns y) = ms := by
  let hits := fun c => (firstHit patterns y c).isSome
  refine ⟨ms.map (fun hit => (hit.t, hit.j)) ++ (candidates T M).filter fun c => !hits c, ?_, ?_⟩
  · have hpairs : (ms.map fun hit => (hit.t, hit.j)).Perm ((candidates T M).filter hits) := by
      have heq : matching patterns y T M = (candidates T M).filter hits :=
        List.filter_congr fun c _ => (firstHit_isSome _ _ c).symm
      rw [← heq, matching_eq]
      exact hms.map _
    exact (hpairs.append_right _).trans (List.filter_append_perm _ _)
  · have hfirst : ∀ hit ∈ ms, firstHit patterns y (hit.t, hit.j) = some hit := by
      intro hit hh
      obtain ⟨c, -, hc⟩ := List.mem_filterMap.mp (hms.mem_iff.mp hh)
      rw [firstHit_eq_some hc]
      exact hc
    have hnone : ((candidates T M).filter fun c => !hits c).filterMap (firstHit patterns y) = [] := by
      refine List.filterMap_eq_nil_iff.mpr fun c hc => ?_
      have hc := (List.mem_filter.mp hc).2
      exact Option.not_isSome_iff_eq_none.mp (by simpa [hits] using hc)
    rw [List.filterMap_append, hnone, List.append_nil, List.filterMap_map]
    refine Eq.trans (List.filterMap_congr (g := some) hfirst) ?_
    exact List.filterMap_some

section
variable {slots : Int → HitSlot} {es : List Nat} {s : AppendBuffer.State HitSlot}

/-- **Interleavings are orders**: a finished launch leaves the counter and the slots as
`searchKernel` does, on a device with some order of the candidates. -/
theorem finished_serial (dev : Device T M) (starts : List GeP3) (bigstep : GeCachedAffine)
    (hfew : (matching patterns (dev.y starts bigstep) T M).length < 2^31)
    (hrun : Trace.run step (start patterns (dev.y starts bigstep) T M slots) es = some s)
    (hdone : AppendBuffer.Finished s) :
    ∃ dev' : Device T M, dev'.y = dev.y ∧ ∀ n, searchKernel dev' patterns starts bigstep n
      (buffer (start patterns (dev.y starts bigstep) T M slots)) = buffer s := by
  obtain ⟨ms, hperm, hcount, hcells⟩ := finished_claims hfew hrun hdone
  obtain ⟨order, horder, hms⟩ := order_of_matches hperm
  refine ⟨{ dev with order := fun _ => order, order_perm := fun _ => horder }, rfl, fun n => ?_⟩
  show order.foldl _ _ = _
  rw [foldl_matchAndRecord, hms]
  obtain ⟨hc, hs⟩ := foldl_add ms
    (buffer (start patterns (dev.y starts bigstep) T M slots)) rfl
  generalize ms.foldl HitBuffer.add _ = buf at hc hs
  obtain ⟨count, vec⟩ := buf
  have hcount' : count = s.mem.counter.toNat := by
    rw [hcount]
    exact hc
  have hvec : vec = Vector.ofFn fun i => s.mem.cells i := by
    refine Vector.ext fun i hi => ?_
    rw [Vector.getElem_ofFn]
    refine (hs i hi).trans ?_
    simp only [buffer, start, AppendBuffer.start, Vector.getElem_ofFn]
    exact (hcells i).symm
  rw [hcount', hvec]
  rfl

end

/-! ## what the host finds -/

section
variable {ms : List HitSlot}
  (hperm : ms.Perm ((candidates T M).filterMap (firstHit patterns y)))
include hperm

theorem matches_genuine {hit : HitSlot} (hm : hit ∈ ms) :
    hit.t < T ∧ hit.j < M ∧ firstHit patterns y (hit.t, hit.j) = some hit := by
  obtain ⟨c, hc, hf⟩ := List.mem_filterMap.mp (hperm.mem_iff.mp hm)
  have hpair : (hit.t, hit.j) = c := firstHit_eq_some hf
  rw [← hpair] at hc hf
  obtain ⟨ht, hj⟩ := CudaEngine.mem_candidates.mp hc
  exact ⟨ht, hj, hf⟩

theorem matches_inj {i k : Nat} (hi : i < ms.length) (hk : k < ms.length) (ht : ms[i].t = ms[k].t)
    (hj : ms[i].j = ms[k].j) : i = k := by
  have hnd : (ms.map fun hit => (hit.t, hit.j)).Nodup := by
    rw [(hperm.map _).nodup_iff, ← matching_eq]
    exact (CudaEngine.candidates_nodup T M).filter _
  have hi' : i < (ms.map fun hit => (hit.t, hit.j)).length := by rwa [List.length_map]
  have hk' : k < (ms.map fun hit => (hit.t, hit.j)).length := by rwa [List.length_map]
  have hpairs : (ms.map fun hit => (hit.t, hit.j))[i] = (ms.map fun hit => (hit.t, hit.j))[k] := by
    rw [List.getElem_map, List.getElem_map, ht, hj]
  exact hnd.getElem_inj_iff.mp hpairs

end

theorem recorded_cells {x : PipelineSlot} {s : AppendBuffer.State HitSlot} {n : Nat}
    (hbuf : x.buffer = buffer s) (hstaged : x.hHitCount = s.mem.counter.toNat)
    (hcount : s.mem.counter = n) : CudaEngine.recorded x =
      (List.range (min n kMaxHitSlots)).map fun (i : Nat) => s.mem.cells i := by
  rw [CudaEngine.recorded, hbuf, hstaged, hcount]
  refine List.ext_getElem ?_ fun i hi hi' => ?_
  · rw [List.length_take, Vector.length_toList, List.length_map, List.length_range]
    show min (min n kMaxHitSlots) kMaxHitSlots = _
    omega
  · rw [List.getElem_take, Vector.getElem_toList, List.getElem_map, List.getElem_range]
    exact Vector.getElem_ofFn _

/-- **Any interleaving of a launch.**  No slot from `kMaxHitSlots` on is ever written; and after the
kernel the counter is the number of candidates that match, the slots below it hold different
candidates with their first patterns, and `drain_epoch` works on exactly these. -/
theorem slots_complete (patterns : List CompiledPattern) (y : Nat → Nat → Bytes 32) (T M : Nat)
    (hfew : (matching patterns y T M).length < 2^31) (slots : Int → HitSlot) (es : List Nat)
    (s : AppendBuffer.State HitSlot)
    (hrun : Trace.run step (start patterns y T M slots) es = some s) :
    let n := (matching patterns y T M).length
    (∀ i : Int, kMaxHitSlots ≤ i → s.mem.cells i = slots i) ∧
    (AppendBuffer.Finished s →
      s.mem.counter = n ∧
      (∀ i < min n kMaxHitSlots, (s.mem.cells i).t < T ∧ (s.mem.cells i).j < M ∧
        firstHit patterns y ((s.mem.cells i).t, (s.mem.cells i).j) = some (s.mem.cells i)) ∧
      (∀ i < min n kMaxHitSlots, ∀ k < min n kMaxHitSlots, (s.mem.cells i).t = (s.mem.cells k).t →
        (s.mem.cells i).j = (s.mem.cells k).j → i = k) ∧
      ∀ (h : Host) (cfg : CudaConfig) (dev : Device cfg.threads cfg.kStepsPerThread) (depth : Nat)
        (slot : Fin depth) (t : CudaState depth), t.slots[slot].buffer = buffer s →
        t.slots[slot].hHitCount = s.mem.counter.toNat →
        let drain := CudaEngine.drainEpoch h cfg dev slot t
        drain.val.1 = true → hits drain =
          ((List.range (min n kMaxHitSlots)).map fun (i : Nat) => s.mem.cells i).filterMap
            (CudaEngine.recordedHit h cfg t.slots[slot])) := by
  intro n
  refine ⟨fun i hi => ?_, fun hdone => ?_⟩
  · obtain ⟨ms, hinv⟩ := run_claims hfew hrun
    exact hinv.rest i (Or.inr (Or.inl hi))
  obtain ⟨ms, hperm, hcount, hcells⟩ := finished_claims hfew hrun hdone
  have hn : ms.length = n := by rw [hperm.length_eq, ← matching_length]
  rw [hn] at hcount hcells
  have hget : ∀ i (hi : i < min n kMaxHitSlots), ∃ hlt : i < ms.length, s.mem.cells i = ms[i] := by
    intro i hi
    have hlt : i < ms.length := hn ▸ hi.trans_le (min_le_left _ _)
    refine ⟨hlt, ?_⟩
    rw [hcells i, if_pos hi, List.getD_eq_getElem _ _ hlt]
  refine ⟨hcount, fun i hi => ?_, fun i hi k hk ht hj => ?_,
    fun h cfg dev depth slot t hbuf hstaged => ?_⟩
  · obtain ⟨hlt, e⟩ := hget i hi
    rw [e]
    exact matches_genuine hperm (List.getElem_mem hlt)
  · obtain ⟨hlt, e⟩ := hget i hi
    obtain ⟨hlt', e'⟩ := hget k hk
    rw [e, e'] at ht hj
    exact matches_inj hperm hlt hlt' ht hj
  · intro drain hok
    rw [← recorded_cells hbuf hstaged hcount]
    exact CudaEngine.drainEpoch_ok hok

def prefixA : CompiledPattern := ⟨Bytes.ofNat 32 0, Bytes.ofNat 32 0xf8, 1, ['a']⟩

/-- two threads that match in their only step, and store in turns -/
theorem slots_complete_two :
    ∃ s, Trace.run step (start [prefixA] (fun _ _ => Bytes.ofNat 32 0) 2 1 fun _ => ⟨7, 7, 7⟩)
        [0, 1, 1, 0, 0, 1, 1, 0, 0, 1] = some s ∧ AppendBuffer.Finished s ∧ s.mem.counter = 2 ∧
      firstHit [prefixA] (fun _ _ => Bytes.ofNat 32 0) ((s.mem.cells 1).t, (s.mem.cells 1).j) =
        some (s.mem.cells 1) := by
  have hmatch : matching [prefixA] (fun _ _ => Bytes.ofNat 32 0) 2 1 = [(0, 0), (1, 0)] := by decide
  have hfew : (matching [prefixA] (fun _ _ => Bytes.ofNat 32 0) 2 1).length < 2^31 := by
    rw [hmatch]
    decide
  obtain ⟨s, hs⟩ : ∃ s, Trace.run step (start [prefixA] (fun _ _ => Bytes.ofNat 32 0) 2 1
    fun _ => ⟨7, 7, 7⟩) [0, 1, 1, 0, 0, 1, 1, 0, 0, 1] = some s := ⟨_, rfl⟩
  have hdone : AppendBuffer.Finished s := by
    intro t
    rw [← Option.some.inj hs]
    match t with
    | 0 => rfl
    | 1 => rfl
    | _ + 2 => rfl
  obtain ⟨-, hall⟩ := slots_complete [prefixA] _ 2 1 hfew _ _ s hs
  obtain ⟨hcount, hgenuine, -⟩ := hall hdone
  rw [hmatch] at hcount hgenuine
  exact ⟨s, hs, hdone, hcount, (hgenuine 1 (by decide)).2.2⟩

end Launch

end Onion
