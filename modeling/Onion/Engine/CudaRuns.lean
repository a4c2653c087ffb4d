import Onion.Engine.Cuda
import Onion.Engine.Runs

/-!
# Runs of the GPU engine

* `searchKernel_records`   a launch records its first matches, up to the number of hit slots;
* `Launched`               what a slot holds between launch and drain;
* `drainEpoch_hits`        a drain pushes what the launch recorded;
* `run_hits`               a run harvests launches of different draws;
* `run_hits_nodup`         it pushes no candidate twice.
-/

namespace Onion
open Logged

/-! ## one launch -/

/-- the first pattern that a candidate matches -/
def firstHit (patterns : List CompiledPattern) (y : Nat → Nat → Bytes 32) (c : Nat × Nat) :
    Option HitSlot :=
  (patterns.findIdx? fun pat => matchesPubkey pat (y c.1 c.2)).map fun p => ⟨c.1, c.2, p⟩

/-- the matches of a launch, in the order of the counter -/
def matched {T M : Nat} (dev : Device T M) (patterns : List CompiledPattern)
    (starts : List GeP3) (bigstep : GeCachedAffine) (launch : Nat) : List HitSlot :=
  (dev.order launch).filterMap (firstHit patterns (dev.y starts bigstep))

/-- the buffer after the matches `ms`, starting from an empty one -/
structure Records (ms : List HitSlot) (buf : HitBuffer) : Prop where
  count : buf.hitCount = ms.length
  slots : buf.slots.toList.take (min ms.length kMaxHitSlots) = ms.take kMaxHitSlots

def HitBuffer.add (buf : HitBuffer) (hit : HitSlot) : HitBuffer :=
  ⟨buf.hitCount + 1,
    if hs : buf.hitCount < kMaxHitSlots then buf.slots.set buf.hitCount hit hs else buf.slots⟩

theorem matchAndRecord_eq (enc : Bytes 32) (t j : Nat) (patterns : List CompiledPattern) (p : Nat)
    (buf : HitBuffer) : matchAndRecord enc t j patterns p buf =
      ((patterns.findIdx? fun pat => matchesPubkey pat enc).map fun i =>
        buf.add ⟨t, j, p + i⟩).getD buf := by
  induction patterns generalizing p with
  | nil => rfl
  | cons pat pats ih =>
    rw [matchAndRecord, List.findIdx?_cons]
    by_cases hm : matchesPubkey pat enc = true
    · rw [if_pos hm, if_pos hm]
      rfl
    · rw [if_neg hm, if_neg hm, ih]
      cases pats.findIdx? fun pat => matchesPubkey pat enc with
      | none => rfl
      | some i =>
        show buf.add ⟨t, j, p + 1 + i⟩ = buf.add ⟨t, j, p + (i + 1)⟩
        rw [Nat.add_assoc, Nat.add_comm 1]

theorem matchAndRecord_firstHit (patterns : List CompiledPattern) (y : Nat → Nat → Bytes 32)
    (c : Nat × Nat) (buf : HitBuffer) : matchAndRecord (y c.1 c.2) c.1 c.2 patterns 0 buf =
      ((firstHit patterns y c).map buf.add).getD buf := by
  rw [matchAndRecord_eq, firstHit, Option.map_map]
  simp only [Nat.zero_add]
  rfl

theorem Records.add {ms : List HitSlot} {buf : HitBuffer} (h : Records ms buf) (hit : HitSlot) :
    Records (ms ++ [hit]) (buf.add hit) := by
  have hlen : (ms ++ [hit]).length = ms.length + 1 := List.length_append
  have hsize : buf.slots.toList.length = kMaxHitSlots := buf.slots.length_toList
  refine ⟨by rw [HitBuffer.add, h.count, hlen], ?_⟩
  rw [HitBuffer.add, hlen]
  dsimp only
  by_cases hs : buf.hitCount < kMaxHitSlots
  · have hlt : ms.length < kMaxHitSlots := h.count ▸ hs
    have hprev : buf.slots.toList.take ms.length = ms := by
      rw [← min_eq_left hlt.le, h.slots, List.take_of_length_le hlt.le]
    have hall : (ms ++ [hit]).take kMaxHitSlots = ms ++ [hit] :=
      List.take_of_length_le (by rw [hlen]; exact hlt)
    rw [dif_pos hs, Vector.toList_set, min_eq_left (show ms.length + 1 ≤ kMaxHitSlots from hlt),
      h.count, take_succ_set (hsize.symm ▸ hlt), hprev, hall]
  · have hge : kMaxHitSlots ≤ ms.length := h.count ▸ Nat.le_of_not_lt hs
    have hslots := h.slots
    rw [min_eq_right hge] at hslots
    rw [dif_neg hs, min_eq_right (hge.trans (Nat.le_succ _)), List.take_append_of_le_length hge,
      hslots]

theorem searchKernel_records {T M : Nat} (dev : Device T M) (patterns : List CompiledPattern)
    (starts : List GeP3) (bigstep : GeCachedAffine) (launch : Nat) {buf : HitBuffer}
    (h0 : buf.hitCount = 0) : Records (matched dev patterns starts bigstep launch)
      (searchKernel dev patterns starts bigstep launch buf) := by
  have key : ∀ (cs : List (Nat × Nat)) (ms : List HitSlot) (buf : HitBuffer), Records ms buf →
      Records (ms ++ cs.filterMap (firstHit patterns (dev.y starts bigstep)))
        (cs.foldl (fun buf c =>
          matchAndRecord (dev.y starts bigstep c.1 c.2) c.1 c.2 patterns 0 buf) buf) := by
    intro cs
    induction cs with
    | nil =>
      intro ms buf h
      rw [List.filterMap_nil, List.append_nil]
      exact h
    | cons c cs ih =>
      intro ms buf h
      rw [List.foldl_cons, List.filterMap_cons, matchAndRecord_firstHit]
      cases firstHit patterns (dev.y starts bigstep) c with
      | none => exact ih ms buf h
      | some hit =>
        have hnext := ih _ _ (h.add hit)
        rw [List.append_assoc] at hnext
        exact hnext
  exact key _ [] buf ⟨h0, rfl⟩

/-! ## what a slot holds -/

namespace CudaEngine

/-- the matches of the launch `d.2` from the base scalar of draw `d.1` -/
def launchMatches (h : Host) (cfg : CudaConfig) (dev : Device cfg.threads cfg.kStepsPerThread)
    (d : Nat × Nat) : List HitSlot :=
  let pts := (startPoints cfg (baseScalar h d.1)).val
  matched dev cfg.patterns pts.1 pts.2 d.2

/-- between launch and drain -/
structure Launched (h : Host) (cfg : CudaConfig) (dev : Device cfg.threads cfg.kStepsPerThread)
    (x : PipelineSlot) : Prop where
  slotA0 : x.slotA0 = baseScalar h x.draw
  staged : x.hHitCount = x.buffer.hitCount
  records : Records (launchMatches h cfg dev (x.draw, x.launch)) x.buffer

structure Frame {depth : Nat} (slot : Fin depth) (s r : CudaState depth) : Prop where
  others : ∀ j ≠ slot, r.slots[j] = s.slots[j]
  rng : s.rng ≤ r.rng

section
variable {depth : Nat} {h : Host} {cfg : CudaConfig} {dev : Device cfg.threads cfg.kStepsPerThread}
  {slot : Fin depth} {s r t : CudaState depth} {f : PipelineSlot → PipelineSlot}

theorem Frame.trans (h : Frame slot s r) (h' : Frame slot r t) : Frame slot s t :=
  ⟨fun j hj => (h'.others j hj).trans (h.others j hj), h.rng.trans h'.rng⟩

theorem modifySlot_self : (modifySlot slot f s).slots[slot] = f s.slots[slot] :=
  Vector.getElem_set_fin_self _ _ _

theorem modifySlot_frame : Frame slot s (modifySlot slot f s) :=
  ⟨fun _ hj => Vector.getElem_set_fin_ne hj _ _, le_rfl⟩

theorem call_frame (g : Nat → PipelineSlot → PipelineSlot) :
    Frame slot s (call cfg dev slot g s).2 := by
  rw [call]
  split
  · exact ⟨modifySlot_frame.others, le_rfl⟩
  · exact ⟨fun _ _ => rfl, le_rfl⟩

theorem call_slot {g : Nat → PipelineSlot → PipelineSlot} (hok : (call cfg dev slot g s).1 = true) :
    (call cfg dev slot g s).2.slots[slot] = g s.calls s.slots[slot] := by
  rw [call] at hok ⊢
  split at hok
  · rw [if_pos ‹_›]
    exact modifySlot_self
  · cases hok

theorem cudaOk_frame {r : Bool × CudaState depth} {g : CudaState depth → Bool × CudaState depth}
    (hr : Frame slot s r.2) (hg : ∀ t, Frame slot t (g t).2) : Frame slot s (cudaOk r g).2 := by
  rw [cudaOk]
  split
  · exact hr.trans (hg _)
  · exact hr

theorem cudaOk_ok {r : Bool × CudaState depth} {g : CudaState depth → Bool × CudaState depth}
    (h : (cudaOk r g).1 = true) : r.1 = true ∧ (g r.2).1 = true ∧ cudaOk r g = g r.2 := by
  rw [cudaOk] at h ⊢
  split at h
  · rw [if_pos ‹_›]
    exact ⟨‹_›, h, rfl⟩
  · exact absurd h ‹_›

/-! ## starting an epoch -/

theorem setupEpoch_frame (draw : Nat) (a0 : Bytes 32) :
    Frame slot s (setupEpoch cfg dev slot draw a0 s).val.2 := by
  exact cudaOk_frame (cudaOk_frame (modifySlot_frame.trans (call_frame _)) fun _ => call_frame _)
    fun _ => modifySlot_frame.trans (call_frame _)

theorem launchEpoch_frame : Frame slot s (launchEpoch cfg dev slot s).2 :=
  cudaOk_frame (call_frame _) fun _ => call_frame _

theorem setupEpoch_slot {draw : Nat} {a0 : Bytes 32}
    (hok : (setupEpoch cfg dev slot draw a0 s).val.1 = true) :
    let x := (setupEpoch cfg dev slot draw a0 s).val.2.slots[slot]
    x.draw = draw ∧ x.slotA0 = a0 ∧ (x.starts, x.bigstep) = (startPoints cfg a0).val ∧
      x.buffer.hitCount = 0 := by
  obtain ⟨h2, h3, e3⟩ := cudaOk_ok hok
  obtain ⟨h1, h2', e2⟩ := cudaOk_ok h2
  intro x
  have hx : x = _ := (congrArg (fun r => r.2.slots[slot]) e3).trans (call_slot h3)
  rw [modifySlot_self, e2, call_slot h2', call_slot h1, modifySlot_self] at hx
  rw [hx]
  exact ⟨rfl, rfl, rfl, rfl⟩

theorem launchEpoch_slot (hok : (launchEpoch cfg dev slot s).1 = true) :
    ∃ n, (launchEpoch cfg dev slot s).2.slots[slot] =
      let x := s.slots[slot]
      let buffer := searchKernel dev cfg.patterns x.starts x.bigstep n x.buffer
      { x with launch := n, buffer := buffer, hHitCount := buffer.hitCount } := by
  obtain ⟨h1, h2, e2⟩ := cudaOk_ok hok
  have hslot := (congrArg (fun r => r.2.slots[slot]) e2).trans (call_slot h2)
  rw [call_slot h1] at hslot
  exact ⟨s.calls, hslot⟩

theorem startEpoch_frame : Frame slot { s with rng := s.rng + 1 } (startEpoch h cfg dev slot s).val.2 :=
  cudaOk_frame (setupEpoch_frame _ _) fun _ => launchEpoch_frame

theorem startEpoch_slot (hok : (startEpoch h cfg dev slot s).val.1 = true) :
    Launched h cfg dev (startEpoch h cfg dev slot s).val.2.slots[slot] ∧
      (startEpoch h cfg dev slot s).val.2.slots[slot].draw = s.rng := by
  obtain ⟨h1, h2, e⟩ := cudaOk_ok hok
  obtain ⟨hdraw, ha0, hpts, h0⟩ := setupEpoch_slot h1
  obtain ⟨n, hslot⟩ := launchEpoch_slot h2
  rw [← e] at hslot
  have hx : (startEpoch h cfg dev slot s).val.2.slots[slot] = _ := hslot
  rw [hx]
  refine ⟨⟨?_, rfl, ?_⟩, hdraw⟩
  · exact ha0.trans (congrArg (baseScalar h) hdraw.symm)
  · rw [launchMatches]
    dsimp only
    rw [hdraw, baseScalar, ← hpts]
    exact searchKernel_records dev cfg.patterns _ _ n h0

theorem startEpoch_silent {β : Type} {g : EngineEvent → Option β} (hg : ∀ e, g (.machine e) = none) :
    select g (startEpoch h cfg dev slot s) = [] := by
  rw [startEpoch, setupEpoch, select_bind, select_bind, select_machine hg]
  rfl

theorem tryStart_frame : Frame slot s (tryStart h cfg dev slot s).val.2 := by
  rw [tryStart]
  cases s.polls with
  | zero => exact ⟨fun _ _ => rfl, le_rfl⟩
  | succ polls =>
    have hf : Frame slot _ (startEpoch h cfg dev slot { s with polls := polls }).val.2 :=
      startEpoch_frame
    have hle : s.rng ≤ _ := (Nat.le_succ _).trans hf.rng
    rw [bind_val]
    split
    · exact ⟨hf.others, hle⟩
    · split
      · exact ⟨hf.others, hle⟩
      · exact ⟨hf.others, hle⟩

theorem tryStart_slot (hok : (tryStart h cfg dev slot s).val.1 = true) :
    Launched h cfg dev (tryStart h cfg dev slot s).val.2.slots[slot] ∧
      (tryStart h cfg dev slot s).val.2.slots[slot].draw = s.rng ∧
      s.rng < (tryStart h cfg dev slot s).val.2.rng := by
  rw [tryStart] at hok ⊢
  cases hp : s.polls with
  | zero =>
    rw [hp] at hok
    cases hok
  | succ polls =>
    rw [hp] at hok
    dsimp only at hok ⊢
    rw [bind_val] at hok ⊢
    have hf : Frame slot _ (startEpoch h cfg dev slot { s with polls := polls }).val.2 :=
      startEpoch_frame
    by_cases h1 : (startEpoch h cfg dev slot { s with polls := polls }).val.1 = true
    · rw [if_pos h1]
      obtain ⟨hl, hd⟩ := startEpoch_slot h1
      exact ⟨hl, hd, hf.rng⟩
    · rw [if_neg h1] at hok
      split at hok
      · exact absurd hok h1
      · cases hok

theorem tryStart_silent {β : Type} {g : EngineEvent → Option β} (hg : ∀ e, g (.machine e) = none) :
    select g (tryStart h cfg dev slot s) = [] := by
  rw [tryStart]
  cases s.polls with
  | zero => rfl
  | succ polls =>
    rw [select_bind, startEpoch_silent hg]
    split
    · rfl
    · split <;> rfl

/-! ## draining it -/

def slotHit (h : Host) (cfg : CudaConfig) (draw : Nat) (hit : HitSlot) : Option Hit :=
  (h.baseNoclamp (scalarAdd8i (baseScalar h draw) (hitIndex cfg.threads hit))).map fun pk =>
    ⟨draw, hitIndex cfg.threads hit, scalarAdd8i (baseScalar h draw) (hitIndex cfg.threads hit), pk,
      hit.patternIndex⟩

/-- the hits of the launch `d.2`: its first matches, with a public key -/
def launchHits (h : Host) (cfg : CudaConfig) (dev : Device cfg.threads cfg.kStepsPerThread)
    (d : Nat × Nat) : List Hit :=
  ((launchMatches h cfg dev d).take kMaxHitSlots).filterMap (slotHit h cfg d.1)

end

end CudaEngine

/-- the launches whose hits a run reads back: the draw of the base scalar, and the launch -/
def EngineEvent.harvested? : EngineEvent → Option (Nat × Nat)
  | .harvested draw launch => some (draw, launch)
  | _ => none

def harvests {α : Type} (x : Worker α) : List (Nat × Nat) := select EngineEvent.harvested? x

namespace CudaEngine

section
variable {depth : Nat} {h : Host} {cfg : CudaConfig} {dev : Device cfg.threads cfg.kStepsPerThread}
  {slot : Fin depth} {s : CudaState depth} {x : PipelineSlot}

/-- what a drain reads back -/
def recorded (x : PipelineSlot) : List HitSlot :=
  x.buffer.slots.toList.take (min x.hHitCount kMaxHitSlots)

/-- the hit that a drain makes of a recorded slot -/
def recordedHit (h : Host) (cfg : CudaConfig) (x : PipelineSlot) (hit : HitSlot) : Option Hit :=
  let scalar := scalarAdd8i x.slotA0 (hitIndex cfg.threads hit)
  (h.baseNoclamp scalar).map fun pk =>
    ⟨x.draw, hitIndex cfg.threads hit, scalar, pk, hit.patternIndex⟩

theorem pushHit_hits (hit : HitSlot) :
    hits (pushHit h cfg x hit s) = (recordedHit h cfg x hit).toList := by
  simp only [pushHit, recordedHit, pubkeyFromScalar]
  cases h.baseNoclamp (scalarAdd8i x.slotA0 (hitIndex cfg.threads hit)) <;> rfl

theorem pushHit_harvests (hit : HitSlot) : harvests (pushHit h cfg x hit s) = [] := by
  simp only [pushHit]
  cases pubkeyFromScalar h.baseNoclamp _ <;> rfl

theorem pushHit_frame (hit : HitSlot) :
    (pushHit h cfg x hit s).val.slots = s.slots ∧ s.rng ≤ (pushHit h cfg x hit s).val.rng := by
  simp only [pushHit]
  cases pubkeyFromScalar h.baseNoclamp _ with
  | none => exact ⟨rfl, le_rfl⟩
  | some pk => exact ⟨rfl, Nat.le_succ _⟩

theorem call_keeps (dev : Device cfg.threads cfg.kStepsPerThread) (slot : Fin depth)
    (s : CudaState depth) : (call cfg dev slot (fun _ x => x) s).2.slots = s.slots ∧
      (call cfg dev slot (fun _ x => x) s).2.rng = s.rng := by
  rw [call]
  split
  · exact ⟨Vector.set_getElem_self slot.isLt, rfl⟩
  · exact ⟨rfl, rfl⟩

theorem countOverflow_keeps (n : Nat) (s : CudaState depth) :
    (countOverflow n s).slots = s.slots ∧ (countOverflow n s).rng = s.rng := by
  rw [countOverflow]
  split <;> exact ⟨rfl, rfl⟩

theorem harvest_frame (h : Host) (dev : Device cfg.threads cfg.kStepsPerThread) (slot : Fin depth)
    (s : CudaState depth) : (harvest h cfg dev slot s).val.2.slots = s.slots ∧
      s.rng ≤ (harvest h cfg dev slot s).val.2.rng := by
  obtain ⟨hs, hr⟩ := countOverflow_keeps s.slots[slot].hHitCount s
  obtain ⟨hs', hr'⟩ := call_keeps dev slot (countOverflow s.slots[slot].hHitCount s)
  rw [harvest]
  split
  · exact ⟨hs'.trans hs, (hr'.trans hr).ge⟩
  · refine (Holds.forEach (G := fun _ => True)
      (fun t : CudaState depth => t.slots = s.slots ∧ s.rng ≤ t.rng)
      ⟨hs'.trans hs, (hr'.trans hr).ge⟩ fun hit _ t ht => ⟨fun _ _ => trivial, ?_⟩).2
    exact ⟨(pushHit_frame hit).1.trans ht.1, ht.2.trans (pushHit_frame hit).2⟩

theorem drainEpoch_frame (h : Host) (dev : Device cfg.threads cfg.kStepsPerThread)
    (slot : Fin depth) (s : CudaState depth) :
    (drainEpoch h cfg dev slot s).val.2.slots = s.slots ∧
      s.rng ≤ (drainEpoch h cfg dev slot s).val.2.rng := by
  obtain ⟨hs, hr⟩ := call_keeps dev slot s
  rw [drainEpoch]
  split
  · exact ⟨hs, hr.ge⟩
  · split
    · exact ⟨hs, hr.ge⟩
    · obtain ⟨hs', hr'⟩ := harvest_frame h dev slot (call cfg dev slot (fun _ x => x) s).2
      exact ⟨hs'.trans hs, hr.ge.trans hr'⟩

/-- the host reads the first matches, as many as there are slots -/
theorem recorded_eq {x : PipelineSlot} {ms : List HitSlot} (hr : Records ms x.buffer)
    (hs : x.hHitCount = x.buffer.hitCount) : recorded x = ms.take kMaxHitSlots := by
  rw [recorded, hs, hr.count, hr.slots]

theorem Launched.recorded {x : PipelineSlot} (hl : Launched h cfg dev x) :
    recorded x = (launchMatches h cfg dev (x.draw, x.launch)).take kMaxHitSlots :=
  recorded_eq hl.records hl.staged

theorem Launched.recordedHit {x : PipelineSlot} (hl : Launched h cfg dev x) :
    recordedHit h cfg x = slotHit h cfg x.draw := by
  funext hit
  rw [CudaEngine.recordedHit, hl.slotA0]
  rfl

theorem Launched.hits {x : PipelineSlot} (hl : Launched h cfg dev x) :
    (CudaEngine.recorded x).filterMap (CudaEngine.recordedHit h cfg x) =
      launchHits h cfg dev (x.draw, x.launch) := by
  rw [hl.recorded, hl.recordedHit]
  rfl

theorem Launched.empty {x : PipelineSlot} (hl : Launched h cfg dev x) :
    x.hHitCount = 0 ↔ launchMatches h cfg dev (x.draw, x.launch) = [] := by
  rw [hl.staged, hl.records.count, List.length_eq_zero_iff]

/-- the recorded hits of a slot are pushed, unless they cannot be read -/
theorem harvest_recorded (h : Host) (dev : Device cfg.threads cfg.kStepsPerThread)
    (slot : Fin depth) (s : CudaState depth) :
    let x := s.slots[slot]
    let r := harvest h cfg dev slot s
    r.val.1 = false ∧ harvests r = [] ∧ hits r = [] ∨
      r.val.1 = true ∧ harvests r = [(x.draw, x.launch)] ∧
        hits r = (recorded x).filterMap (recordedHit h cfg x) := by
  intro x r
  show (harvest h cfg dev slot s).val.1 = false ∧ harvests (harvest h cfg dev slot s) = [] ∧
    hits (harvest h cfg dev slot s) = [] ∨ (harvest h cfg dev slot s).val.1 = true ∧
      harvests (harvest h cfg dev slot s) = _ ∧ hits (harvest h cfg dev slot s) = _
  rw [harvest]
  split
  · refine Or.inl ⟨?_, rfl, rfl⟩
    exact Bool.eq_false_iff.mpr ‹_›
  · have hloop : ∀ (slots : List HitSlot) (t : CudaState depth),
        harvests (forEach (pushHit h cfg x) slots t) = [] := fun slots t => by
      rw [harvests, select_forEach fun hit _ t => pushHit_harvests hit]
      exact List.flatMap_eq_nil_iff.mpr fun _ _ => rfl
    have hpush : ∀ (slots : List HitSlot) (t : CudaState depth),
        hits (forEach (pushHit h cfg x) slots t) = slots.filterMap (recordedHit h cfg x) :=
      fun slots t => by
        rw [hits, select_forEach fun hit _ t => pushHit_hits hit]
        exact (List.filterMap_eq_flatMap_toList _ _).symm
    have hmin : (if x.hHitCount < kMaxHitSlots then x.hHitCount else kMaxHitSlots) =
        min x.hHitCount kMaxHitSlots := by
      split <;> omega
    refine Or.inr ⟨rfl, ?_, ?_⟩
    · rw [harvests, select_bind, select_bind, ← harvests, ← harvests, hloop]
      rfl
    · rw [hits, select_bind, select_bind, ← hits, ← hits, hpush, hmin]
      exact List.append_nil _

/-- a drain pushes the recorded hits, or fails -/
theorem drainEpoch_recorded (h : Host) (dev : Device cfg.threads cfg.kStepsPerThread)
    (slot : Fin depth) (s : CudaState depth) :
    let x := s.slots[slot]
    let r := drainEpoch h cfg dev slot s
    (harvests r = [] ∨ harvests r = [(x.draw, x.launch)]) ∧
      (r.val.1 = false ∧ harvests r = [] ∧ hits r = [] ∨
        r.val.1 = true ∧ hits r = (recorded x).filterMap (recordedHit h cfg x) ∧
          (harvests r = [] → hits r = [])) := by
  intro x
  have hs : (call cfg dev slot (fun _ x => x) s).2.slots[slot] = x :=
    congrArg (fun v : Vector PipelineSlot depth => v[slot]) (call_keeps dev slot s).1
  dsimp only
  rw [drainEpoch]
  split
  · exact ⟨Or.inl rfl, Or.inl ⟨Bool.eq_false_iff.mpr ‹_›, rfl, rfl⟩⟩
  · rename_i hsync
    rw [hs]
    split
    · rename_i h0
      refine ⟨Or.inl rfl, Or.inr ⟨not_not.mp hsync, ?_, fun _ => rfl⟩⟩
      rw [recorded, h0, Nat.zero_min, List.take_zero]
      rfl
    · have hh := harvest_recorded h dev slot (call cfg dev slot (fun _ x => x) s).2
      rw [hs] at hh
      rcases hh with ⟨h1, hd, hx⟩ | ⟨h1, hd, hx⟩
      · exact ⟨Or.inl hd, Or.inl ⟨h1, hd, hx⟩⟩
      · refine ⟨Or.inr hd, Or.inr ⟨h1, hx, fun he => ?_⟩⟩
        rw [he] at hd
        cases hd

/-- a drain that succeeds pushes every recorded hit -/
theorem drainEpoch_ok {h : Host} {dev : Device cfg.threads cfg.kStepsPerThread} {slot : Fin depth}
    {s : CudaState depth} (hok : (drainEpoch h cfg dev slot s).val.1 = true) :
    hits (drainEpoch h cfg dev slot s) =
      (recorded s.slots[slot]).filterMap (recordedHit h cfg s.slots[slot]) := by
  obtain ⟨-, ⟨hfail, -⟩ | ⟨-, hhits, -⟩⟩ := drainEpoch_recorded h dev slot s
  · exact absurd hok (Bool.eq_false_iff.mp hfail)
  · exact hhits

/-- a drain pushes what the launch recorded, or fails -/
theorem drainEpoch_hits (hl : Launched h cfg dev s.slots[slot]) :
    let d := (s.slots[slot].draw, s.slots[slot].launch)
    harvests (drainEpoch h cfg dev slot s) = [] ∧ hits (drainEpoch h cfg dev slot s) = [] ∨
      harvests (drainEpoch h cfg dev slot s) = [d] ∧
        hits (drainEpoch h cfg dev slot s) = launchHits h cfg dev d := by
  intro d
  obtain ⟨hd, ⟨-, h0, hx⟩ | ⟨-, hx, hnil⟩⟩ := drainEpoch_recorded h dev slot s
  · exact Or.inl ⟨h0, hx⟩
  · rcases hd with hd | hd
    · exact Or.inl ⟨hd, hnil hd⟩
    · rw [hl.recorded, hl.recordedHit] at hx
      exact Or.inr ⟨hd, hx⟩

/-! ## a run -/

variable [NeZero depth]

/-- one round harvests one launch at most, and starts another from a later draw -/
theorem round_run {cur : Fin depth} (hne : cur ≠ cur + 1) (hl : Launched h cfg dev s.slots[cur])
    (hdraw : s.slots[cur].draw < s.rng) :
    let d := (s.slots[cur].draw, s.slots[cur].launch)
    let r := round h cfg dev cur s
    (harvests r = [] ∧ hits r = [] ∨ harvests r = [d] ∧ hits r = launchHits h cfg dev d) ∧
    (r.val.1 = true → Launched h cfg dev r.val.2.slots[cur + 1] ∧
      s.slots[cur].draw < r.val.2.slots[cur + 1].draw ∧
      r.val.2.slots[cur + 1].draw < r.val.2.rng) := by
  intro d r
  have hcur : (tryStart h cfg dev (cur + 1) s).val.2.slots[cur] = s.slots[cur] :=
    tryStart_frame.others cur hne
  have hl' : Launched h cfg dev (tryStart h cfg dev (cur + 1) s).val.2.slots[cur] := hcur.symm ▸ hl
  have hdrain := drainEpoch_hits hl'
  rw [hcur] at hdrain
  constructor
  · have hd : harvests r = harvests (drainEpoch h cfg dev cur (tryStart h cfg dev (cur + 1) s).val.2) := by
      show select _ (round h cfg dev cur s) = _
      rw [round, select_bind, select_bind, tryStart_silent fun _ => rfl]
      exact List.append_nil _
    have hh : hits r = hits (drainEpoch h cfg dev cur (tryStart h cfg dev (cur + 1) s).val.2) := by
      show select _ (round h cfg dev cur s) = _
      rw [round, select_bind, select_bind, tryStart_silent fun _ => rfl]
      exact List.append_nil _
    rw [hd, hh]
    exact hdrain
  · intro hlive
    have hlive : (tryStart h cfg dev (cur + 1) s).val.1 = true := hlive
    obtain ⟨hl', hdraw', hlt⟩ := tryStart_slot hlive
    obtain ⟨hslots, hrng⟩ := drainEpoch_frame h dev cur (tryStart h cfg dev (cur + 1) s).val.2
    have hnext : r.val.2.slots[cur + 1] = (tryStart h cfg dev (cur + 1) s).val.2.slots[cur + 1] :=
      congrArg (fun v : Vector PipelineSlot depth => v[cur + 1]) hslots
    rw [hnext, hdraw']
    exact ⟨hl', hdraw, hlt.trans_le hrng⟩

theorem loop_dead (fuel : Nat) (cur : Fin depth) :
    loop h cfg dev fuel cur (false, s) = pure s := by
  cases fuel with
  | zero => rfl
  | succ fuel => rfl

/-- a run from a live slot harvests launches of different draws, and pushes their hits -/
theorem loop_run (hne : ∀ c : Fin depth, c ≠ c + 1) (fuel : Nat) (cur : Fin depth) (live : Bool)
    (s : CudaState depth)
    (hcur : live = true → Launched h cfg dev s.slots[cur] ∧ s.slots[cur].draw < s.rng) :
    let r := loop h cfg dev fuel cur (live, s)
    hits r = (harvests r).flatMap (launchHits h cfg dev) ∧
      (harvests r).Pairwise (fun d d' => d.1 < d'.1) ∧ ∀ d ∈ harvests r, s.slots[cur].draw ≤ d.1 := by
  have hidle : ∀ (cur : Fin depth) (s : CudaState depth),
      let r : Worker (CudaState depth) := pure s
      hits r = (harvests r).flatMap (launchHits h cfg dev) ∧
        (harvests r).Pairwise (fun d d' => d.1 < d'.1) ∧ ∀ d ∈ harvests r, s.slots[cur].draw ≤ d.1 :=
    fun cur s => ⟨rfl, List.Pairwise.nil, nofun⟩
  induction fuel generalizing cur live s with
  | zero => exact hidle cur s
  | succ fuel ih =>
    cases live with
    | false =>
      rw [loop_dead]
      exact hidle cur s
    | true =>
      obtain ⟨hl, hdraw⟩ := hcur rfl
      rw [loop, if_neg (not_not.mpr rfl)]
      cases hp : s.polls with
      | zero => exact hidle cur s
      | succ polls =>
        obtain ⟨hround, hnext⟩ := round_run (s := { s with polls := polls }) (hne cur) hl hdraw
        dsimp only at hround hnext ⊢
        generalize round h cfg dev cur { s with polls := polls } = r at hround hnext ⊢
        obtain ⟨hh, hpw, hle⟩ := ih (cur + 1) r.val.1 r.val.2
          fun hlive => ⟨(hnext hlive).1, (hnext hlive).2.2⟩
        -- what is harvested later comes from a later draw
        have hlater : ∀ d ∈ harvests (loop h cfg dev fuel (cur + 1) r.val), s.slots[cur].draw < d.1 := by
          intro d hd
          cases hlive : r.val.1 with
          | true => exact (hnext hlive).2.1.trans_le (hle d hd)
          | false =>
            rw [show r.val = (false, r.val.2) from Prod.ext hlive rfl, loop_dead] at hd
            cases hd
        have hdrains : harvests (r >>= loop h cfg dev fuel (cur + 1)) =
            harvests r ++ harvests (loop h cfg dev fuel (cur + 1) r.val) := select_bind r _
        have hhits : hits (r >>= loop h cfg dev fuel (cur + 1)) =
            hits r ++ hits (loop h cfg dev fuel (cur + 1) r.val) := select_bind r _
        have hh' : hits (loop h cfg dev fuel (cur + 1) r.val) = _ := hh
        rw [hdrains, hhits, hh']
        rcases hround with ⟨hd, hr⟩ | ⟨hd, hr⟩
        · rw [hd, hr]
          exact ⟨rfl, hpw, fun d hd => (hlater d hd).le⟩
        · rw [hd, hr, List.flatMap_append, List.flatMap_singleton]
          refine ⟨rfl, List.pairwise_cons.mpr ⟨hlater, hpw⟩, fun d hd => ?_⟩
          rcases List.mem_cons.mp hd with rfl | hd
          · exact le_rfl
          · exact (hlater d hd).le

/-- the hits of a run: those of the launches it harvests, all of different draws -/
theorem run_hits (hne : ∀ c : Fin depth, c ≠ c + 1) (s : CudaState depth) :
    hits (run h cfg dev s) = (harvests (run h cfg dev s)).flatMap (launchHits h cfg dev) ∧
      (harvests (run h cfg dev s)).Pairwise fun d d' => d.1 < d'.1 := by
  rw [run]
  split
  · exact ⟨rfl, List.Pairwise.nil⟩
  · generalize (init cfg dev s).2 = t
    have hlaunched : ∀ hlive : (tryStart h cfg dev 0 t).val.1 = true,
        Launched h cfg dev (tryStart h cfg dev 0 t).val.2.slots[(0 : Fin depth)] ∧
          (tryStart h cfg dev 0 t).val.2.slots[(0 : Fin depth)].draw <
            (tryStart h cfg dev 0 t).val.2.rng := fun hlive =>
      ⟨(tryStart_slot hlive).1, (tryStart_slot hlive).2.1 ▸ (tryStart_slot hlive).2.2⟩
    obtain ⟨hh, hpw, -⟩ := loop_run hne s.polls 0 _ _ hlaunched
    have hd : harvests (tryStart h cfg dev 0 t >>= loop h cfg dev s.polls 0) =
        harvests (loop h cfg dev s.polls 0 (tryStart h cfg dev 0 t).val) := by
      rw [harvests, select_bind, tryStart_silent fun _ => rfl]
      rfl
    have hx : hits (tryStart h cfg dev 0 t >>= loop h cfg dev s.polls 0) =
        hits (loop h cfg dev s.polls 0 (tryStart h cfg dev 0 t).val) := by
      rw [hits, select_bind, tryStart_silent fun _ => rfl]
      rfl
    rw [hd, hx]
    exact ⟨hh, hpw⟩

end

/-! ## the hits of a launch -/

section
variable {h : Host} {cfg : CudaConfig} {dev : Device cfg.threads cfg.kStepsPerThread} {d : Nat × Nat}

theorem slotHit_eq_some {draw : Nat} {hit : HitSlot} {x : Hit} : slotHit h cfg draw hit = some x ↔
    x.draw = draw ∧ x.index = hitIndex cfg.threads hit ∧
      x.scalar = scalarAdd8i (baseScalar h draw) x.index ∧ x.pattern = hit.patternIndex ∧
      h.baseNoclamp x.scalar = some x.pubkey := by
  rw [slotHit, Option.map_eq_some_iff]
  constructor
  · rintro ⟨pk, hpk, rfl⟩
    exact ⟨rfl, rfl, rfl, rfl, hpk⟩
  · rintro ⟨hd, hi, hs, hp, hpk⟩
    refine ⟨x.pubkey, ?_, Hit.ext hd.symm hi.symm ?_ rfl hp.symm⟩
    · rw [← hi, ← hs]
      exact hpk
    · rw [← hi]
      exact hs.symm

theorem mem_launchHits {x : Hit} : x ∈ launchHits h cfg dev d ↔
    ∃ hit ∈ (launchMatches h cfg dev d).take kMaxHitSlots, slotHit h cfg d.1 hit = some x :=
  List.mem_filterMap

theorem mem_candidates {T M : Nat} {c : Nat × Nat} : c ∈ candidates T M ↔ c.1 < T ∧ c.2 < M := by
  rw [candidates, List.mem_flatMap]
  constructor
  · rintro ⟨t, ht, hc⟩
    obtain ⟨j, hj, rfl⟩ := List.mem_map.mp hc
    exact ⟨List.mem_range.mp ht, List.mem_range.mp hj⟩
  · rintro ⟨ht, hj⟩
    exact ⟨c.1, List.mem_range.mpr ht, List.mem_map.mpr ⟨c.2, List.mem_range.mpr hj, rfl⟩⟩

theorem candidates_nodup (T M : Nat) : (candidates T M).Nodup := by
  refine List.nodup_flatMap.mpr ⟨fun t _ => ?_,
    List.Nodup.pairwise_of_forall_ne List.nodup_range fun t _ t' _ hne => ?_⟩
  · exact List.nodup_range.map fun j j' e => (Prod.mk.inj e).2
  · refine List.disjoint_left.mpr fun c hc hc' => hne ?_
    obtain ⟨j, -, rfl⟩ := List.mem_map.mp hc
    obtain ⟨j', -, e⟩ := List.mem_map.mp hc'
    exact (Prod.mk.inj e).1.symm

theorem hitIndex_inj {a b : HitSlot} (ha : a.t < cfg.threads ∧ a.j < cfg.kStepsPerThread)
    (hb : b.t < cfg.threads ∧ b.j < cfg.kStepsPerThread)
    (h : hitIndex cfg.threads a = hitIndex cfg.threads b) : a.t = b.t ∧ a.j = b.j := by
  have hpos : 0 < cfg.threads := (Nat.zero_le _).trans_lt ha.1
  have hlt : ∀ t j, t < cfg.threads → j < cfg.kStepsPerThread → t + j * cfg.threads < 2^64 := by
    intro t j ht hj
    have hT := cfg.threads_lt
    have hM := cfg.steps_lt
    have hmul : j * cfg.threads ≤ 2^31 * 2^31 := Nat.mul_le_mul (hj.trans hM).le hT.le
    omega
  rw [hitIndex, hitIndex, Nat.mod_eq_of_lt (hlt _ _ ha.1 ha.2),
    Nat.mod_eq_of_lt (hlt _ _ hb.1 hb.2)] at h
  have ht := congrArg (· % cfg.threads) h
  have hj := congrArg (· / cfg.threads) h
  simp only [Nat.add_mul_mod_self_right, Nat.mod_eq_of_lt ha.1, Nat.mod_eq_of_lt hb.1] at ht
  simp only [Nat.add_mul_div_right _ _ hpos, Nat.div_eq_of_lt ha.1, Nat.div_eq_of_lt hb.1,
    Nat.zero_add] at hj
  exact ⟨ht, hj⟩

theorem launchMatches_lt {hit : HitSlot} (hm : hit ∈ launchMatches h cfg dev d) :
    hit.t < cfg.threads ∧ hit.j < cfg.kStepsPerThread := by
  obtain ⟨c, hc, hf⟩ := List.mem_filterMap.mp hm
  obtain ⟨p, -, rfl⟩ := Option.map_eq_some_iff.mp hf
  exact mem_candidates.mp ((dev.order_perm d.2).mem_iff.mp hc)

theorem launchMatches_index : (launchMatches h cfg dev d).Pairwise fun a b =>
    hitIndex cfg.threads a ≠ hitIndex cfg.threads b := by
  have hnodup : (dev.order d.2).Nodup := (dev.order_perm d.2).nodup_iff.mpr (candidates_nodup _ _)
  have hpairs : (launchMatches h cfg dev d).Pairwise fun a b => (a.t, a.j) ≠ (b.t, b.j) := by
    refine List.pairwise_filterMap.mpr (hnodup.imp fun {c c'} hne a ha b hb e => hne ?_)
    obtain ⟨p, -, rfl⟩ := Option.map_eq_some_iff.mp ha
    obtain ⟨p', -, rfl⟩ := Option.map_eq_some_iff.mp hb
    exact e
  refine hpairs.imp_of_mem fun {a b} ha hb hne he => hne ?_
  obtain ⟨ht, hj⟩ := hitIndex_inj (launchMatches_lt ha) (launchMatches_lt hb) he
  rw [ht, hj]

theorem launchMatches_inj {a b : HitSlot} (ha : a ∈ launchMatches h cfg dev d)
    (hb : b ∈ launchMatches h cfg dev d) (hi : hitIndex cfg.threads a = hitIndex cfg.threads b) :
    a = b :=
  List.Pairwise.forall_of_forall_of_flip
    (R := fun a b => hitIndex cfg.threads a = hitIndex cfg.threads b → a = b) (fun _ _ _ => rfl)
    (launchMatches_index.imp fun hne he => absurd he hne)
    (launchMatches_index.imp fun hne he => absurd he.symm hne) ha hb hi

/-- no candidate of a launch is pushed twice -/
theorem launchHits_nodup : ((launchHits h cfg dev d).map Hit.index).Nodup := by
  rw [List.Nodup, List.pairwise_map]
  refine List.pairwise_filterMap.mpr
    ((launchMatches_index.sublist (List.take_sublist _ _)).imp fun {a b} hne x hx y hy e => hne ?_)
  rw [← (slotHit_eq_some.mp hx).2.1, ← (slotHit_eq_some.mp hy).2.1]
  exact e

theorem launchHits_draw {x : Hit} (hx : x ∈ launchHits h cfg dev d) : x.draw = d.1 := by
  obtain ⟨hit, -, hs⟩ := mem_launchHits.mp hx
  exact (slotHit_eq_some.mp hs).1

/-- launches from different draws push different candidates -/
theorem launches_nodup {ds : List (Nat × Nat)} (hds : ds.Pairwise fun d d' => d.1 < d'.1) :
    ((ds.flatMap (launchHits h cfg dev)).map fun x => (x.draw, x.index)).Nodup := by
  rw [List.map_flatMap, List.nodup_flatMap]
  refine ⟨fun d _ => ?_, hds.imp fun {d d'} hlt => List.disjoint_left.mpr fun k hk hk' => ?_⟩
  · refine List.Nodup.of_map Prod.snd ?_
    rw [List.map_map]
    exact launchHits_nodup
  · obtain ⟨x, hx, rfl⟩ := List.mem_map.mp hk
    obtain ⟨y, hy, e⟩ := List.mem_map.mp hk'
    have hdraw := (Prod.mk.inj e).1
    rw [launchHits_draw hx, launchHits_draw hy] at hdraw
    omega

theorem slotHit_scalar {hit : HitSlot} {x : Hit} (hm : hit ∈ launchMatches h cfg dev d)
    (hx : slotHit h cfg d.1 hit = some x) : x.index = hit.t + hit.j * cfg.threads ∧
      x.scalar = scalarAdd8i (baseScalar h d.1) x.index ∧
      (cfg.kStepsPerThread ≤ 2^30 →
        x.scalar.toNat = (baseScalar h d.1).toNat + 8 * (hit.t + hit.j * cfg.threads)) := by
  obtain ⟨-, hi, hs, -⟩ := slotHit_eq_some.mp hx
  obtain ⟨ht, hj⟩ := launchMatches_lt hm
  have hT := cfg.threads_lt
  have hM := cfg.steps_lt
  have hmul : hit.j * cfg.threads ≤ 2^31 * 2^31 := Nat.mul_le_mul (hj.trans hM).le hT.le
  have hindex : x.index = hit.t + hit.j * cfg.threads := by
    rw [hi, hitIndex, Nat.mod_eq_of_lt (by omega)]
  refine ⟨hindex, hs, fun hM' => ?_⟩
  have hmul' : (hit.j + 1) * cfg.threads ≤ 2^30 * 2^31 :=
    Nat.mul_le_mul ((Nat.succ_le_of_lt hj).trans hM') hT.le
  rw [Nat.add_mul] at hmul'
  have ha : (baseScalar h d.1).toNat < 2^255 := (clamp_toNat _).2.2
  rw [hs, scalarAdd8i_toNat, hindex]
  omega

/-! ## the hits of a run -/

variable {depth : Nat} [NeZero depth] (hne : ∀ c : Fin depth, c ≠ c + 1)

include hne in
theorem mem_run_hits {s : CudaState depth} {x : Hit} : x ∈ hits (run h cfg dev s) ↔
    ∃ d ∈ harvests (run h cfg dev s), x ∈ launchHits h cfg dev d := by
  rw [(run_hits hne s).1]
  exact List.mem_flatMap

include hne in
/-- a base scalar belongs to one launch -/
theorem harvests_unique {s : CudaState depth} {d d' : Nat × Nat} (hd : d ∈ harvests (run h cfg dev s))
    (hd' : d' ∈ harvests (run h cfg dev s)) (hdraw : d.1 = d'.1) : d = d' := by
  have hpw : (harvests (run h cfg dev s)).Pairwise _ := (run_hits hne s).2
  exact List.Pairwise.forall_of_forall_of_flip (R := fun d d' : Nat × Nat => d.1 = d'.1 → d = d')
    (fun _ _ _ => rfl) (hpw.imp fun hlt he => by omega) (hpw.imp fun hlt he => by omega) hd hd' hdraw

include hne in
theorem run_hits_nodup (s : CudaState depth) :
    ((hits (run h cfg dev s)).map fun x => (x.draw, x.index)).Nodup := by
  have hrun : _ ∧ (harvests (run h cfg dev s)).Pairwise _ := run_hits hne s
  rw [hrun.1]
  exact launches_nodup hrun.2

end

end CudaEngine

end Onion
