import Onion.Engine.Hits

/-!
# Runs of the CPU workers

* `Matched`           candidate `i` of a walk matches pattern `p` and has a public key;
* `mem_epochHits`     the hits of an epoch are the matches of its completed candidates;
* `epochLoop_run`     a run is a sequence of epochs, whose base scalars come from different draws;
* `mem_worker_hits`, `worker_hits_nodup`   every match of a completed candidate is pushed, once.
-/

namespace Onion
open Logged

/-- the base scalar that draw `draw` gives -/
def baseScalar (h : Host) (draw : Nat) : Bytes 32 := clamp (h.rand draw)

/-- the affine `y` of candidate `i` in the walk from draw `draw` -/
def walkY (h : Host) (draw i : Nat) : Bytes 32 :=
  canonBytes (walkPoint (baseScalar h draw).toNat i).y

def Matched (h : Host) (patterns : List CompiledPattern) (draw i p : Nat) (pk : Bytes 32) : Prop :=
  ∃ pat, patterns[p]? = some pat ∧ matchesPubkey pat (walkY h draw i) = true ∧
    h.baseNoclamp (scalarAdd8i (baseScalar h draw) i) = some pk

/-! ## the hits of an epoch -/

theorem mem_hitsAt {h : Host} {patterns : List CompiledPattern} {a0 y : Bytes 32} {draw i : Nat}
    {x : Hit} : x ∈ hitsAt h patterns 0 a0 draw i y ↔ x.draw = draw ∧ x.index = i ∧
      x.scalar = scalarAdd8i a0 i ∧ ∃ pat, patterns[x.pattern]? = some pat ∧
        matchesPubkey pat y = true ∧ h.baseNoclamp (scalarAdd8i a0 i) = some x.pubkey := by
  rw [hitsAt, List.mem_filterMap]
  constructor
  · rintro ⟨⟨pat, p⟩, hp, hx⟩
    rw [List.mem_zipIdx_iff_getElem?] at hp
    dsimp only at hx hp
    by_cases hm : matchesPubkey pat y = true
    · rw [if_pos hm, Option.map_eq_some_iff] at hx
      obtain ⟨pk, hpk, rfl⟩ := hx
      exact ⟨rfl, rfl, rfl, pat, hp, hm, hpk⟩
    · rw [if_neg hm] at hx
      cases hx
  · rintro ⟨hd, hi, hs, pat, hp, hm, hpk⟩
    refine ⟨(pat, x.pattern), List.mem_zipIdx_iff_getElem?.mpr hp, ?_⟩
    dsimp only
    rw [if_pos hm, hpk, ← hd, ← hi] at *
    exact congrArg some (Hit.ext rfl rfl hs.symm rfl rfl)

theorem hitsAt_le_pattern {h : Host} {patterns : List CompiledPattern} {p draw i : Nat}
    {a0 y : Bytes 32} {x : Hit} (hx : x ∈ hitsAt h patterns p a0 draw i y) : p ≤ x.pattern := by
  rw [hitsAt, List.mem_filterMap] at hx
  obtain ⟨⟨pat, q⟩, hq, hx⟩ := hx
  have hle := (List.mem_zipIdx_iff_le_and_getElem?_sub.mp hq).1
  dsimp only at hx hle
  by_cases hm : matchesPubkey pat y = true
  · rw [if_pos hm, Option.map_eq_some_iff] at hx
    obtain ⟨pk, -, rfl⟩ := hx
    exact hle
  · rw [if_neg hm] at hx
    cases hx

theorem hitsAt_nodup (h : Host) (patterns : List CompiledPattern) (p : Nat) (a0 y : Bytes 32)
    (draw i : Nat) : (hitsAt h patterns p a0 draw i y).Nodup := by
  induction patterns generalizing p with
  | nil => exact List.nodup_nil
  | cons pat pats ih =>
    rw [hitsAt_cons]
    by_cases hm : matchesPubkey pat y = true
    · rw [if_pos hm]
      cases h.baseNoclamp (scalarAdd8i a0 i) with
      | none => exact ih _
      | some pk =>
        refine List.nodup_cons.mpr ⟨fun hx => ?_, ih _⟩
        have hle : p + 1 ≤ p := hitsAt_le_pattern hx
        omega
    · rw [if_neg hm]
      exact ih _

theorem baseScalar_mod (h : Host) (draw : Nat) :
    (baseScalar h draw).toNat % 2^255 = (baseScalar h draw).toNat :=
  Nat.mod_eq_of_lt (clamp_toNat _).2.2

theorem baseScalars_get (h : Host) (lanes rng : Nat) (l : Fin lanes) :
    (baseScalars h lanes rng)[l] = baseScalar h (rng + l) := by
  rw [baseScalars, Vector.getElem_ofFn_fin]
  rfl

theorem EngineConfig.completed_le (cfg : EngineConfig) (polls : Nat) :
    cfg.completed polls * cfg.batch ≤ cfg.epochCandidates :=
  (Nat.mul_le_mul_right _ (min_le_left _ _)).trans (Nat.div_mul_le_self _ _)

section
variable {h : Host} {cfg : EngineConfig} {lanes rng n c k : Nat}

theorem mem_batchHits {x : Hit} (hc : c + k ≤ 2^64) :
    x ∈ batchHits h cfg.patterns (baseScalars h lanes rng) rng c k ↔
      (rng ≤ x.draw ∧ x.draw < rng + lanes) ∧ (c ≤ x.index ∧ x.index < c + k) ∧
      x.scalar = scalarAdd8i (baseScalar h x.draw) x.index ∧
      Matched h cfg.patterns x.draw x.index x.pattern x.pubkey := by
  rw [batchHits, List.mem_flatMap]
  constructor
  · rintro ⟨l, -, hx⟩
    obtain ⟨j, hj, hx⟩ := List.mem_flatMap.mp hx
    have hj := List.mem_range.mp hj
    rw [baseScalars_get, baseScalar_mod, Nat.mod_eq_of_lt (by omega), mem_hitsAt] at hx
    obtain ⟨hd, hi, hs, hm⟩ := hx
    rw [← hd, ← hi] at hs hm
    have hl := l.isLt
    exact ⟨by omega, by omega, hs, hm⟩
  · rintro ⟨hd, hi, hs, hm⟩
    refine ⟨⟨x.draw - rng, by omega⟩, List.mem_finRange _, List.mem_flatMap.mpr
      ⟨x.index - c, List.mem_range.mpr (by omega), ?_⟩⟩
    have hdraw : rng + (x.draw - rng) = x.draw := by omega
    have hindex : c + (x.index - c) = x.index := by omega
    rw [baseScalars_get, baseScalar_mod, hindex, Nat.mod_eq_of_lt (by omega), mem_hitsAt]
    dsimp only
    rw [hdraw]
    exact ⟨rfl, rfl, hs, hm⟩

theorem batchHits_nodup (hc : c + k ≤ 2^64) :
    (batchHits h cfg.patterns (baseScalars h lanes rng) rng c k).Nodup := by
  refine List.nodup_flatMap.mpr ⟨fun l _ => List.nodup_flatMap.mpr ⟨fun j _ => hitsAt_nodup ..,
    List.Nodup.pairwise_of_forall_ne List.nodup_range fun i hi j hj hij => ?_⟩,
    List.Nodup.pairwise_of_forall_ne (List.nodup_finRange _) fun l _ l' _ hll => ?_⟩
  · refine List.disjoint_left.mpr fun x hx hx' => hij ?_
    have h1 := (mem_hitsAt.mp hx).2.1
    have h2 := (mem_hitsAt.mp hx').2.1
    have hi := List.mem_range.mp hi
    have hj := List.mem_range.mp hj
    rw [Nat.mod_eq_of_lt (by omega)] at h1 h2
    omega
  · refine List.disjoint_left.mpr fun x hx hx' => hll ?_
    obtain ⟨i, -, hx⟩ := List.mem_flatMap.mp hx
    obtain ⟨j, -, hx'⟩ := List.mem_flatMap.mp hx'
    have h1 := (mem_hitsAt.mp hx).1
    have h2 := (mem_hitsAt.mp hx').1
    exact Fin.ext (by omega)

theorem batch_bounds {b i batch : Nat} : (b * batch ≤ i ∧ i < b * batch + batch) ↔
    0 < batch ∧ i / batch = b := by
  constructor
  · intro hi
    have hpos : 0 < batch := by omega
    refine ⟨hpos, Nat.div_eq_of_lt_le ?_ ?_⟩
    · exact hi.1
    · rw [Nat.add_mul, Nat.one_mul]
      exact hi.2
  · rintro ⟨hpos, rfl⟩
    have hd := Nat.div_add_mod i batch
    have hm := Nat.mod_lt i hpos
    rw [Nat.mul_comm] at hd
    omega

theorem mem_epochHits {x : Hit} (hn : n * cfg.batch ≤ 2^64) :
    x ∈ epochHits h cfg lanes rng n ↔ (rng ≤ x.draw ∧ x.draw < rng + lanes) ∧
      x.index < n * cfg.batch ∧ x.scalar = scalarAdd8i (baseScalar h x.draw) x.index ∧
      Matched h cfg.patterns x.draw x.index x.pattern x.pubkey := by
  have hb : ∀ b < n, b * cfg.batch + cfg.batch ≤ n * cfg.batch := fun b hb => by
    rw [← Nat.succ_mul]
    exact Nat.mul_le_mul_right _ hb
  rw [epochHits, List.mem_flatMap]
  constructor
  · rintro ⟨b, hbn, hx⟩
    have hbb := hb b (List.mem_range.mp hbn)
    obtain ⟨hd, hi, hs, hm⟩ := (mem_batchHits (hbb.trans hn)).mp hx
    exact ⟨hd, hi.2.trans_le hbb, hs, hm⟩
  · rintro ⟨hd, hi, hs, hm⟩
    have hpos : 0 < cfg.batch := Nat.pos_of_ne_zero fun h0 => by simp [h0] at hi
    have hbn : x.index / cfg.batch < n := (Nat.div_lt_iff_lt_mul hpos).mpr hi
    exact ⟨_, List.mem_range.mpr hbn, (mem_batchHits ((hb _ hbn).trans hn)).mpr
      ⟨hd, batch_bounds.mpr ⟨hpos, rfl⟩, hs, hm⟩⟩

theorem epochHits_nodup (hn : n * cfg.batch ≤ 2^64) : (epochHits h cfg lanes rng n).Nodup := by
  have hb : ∀ b < n, b * cfg.batch + cfg.batch ≤ 2^64 := fun b hb => by
    rw [← Nat.succ_mul]
    exact (Nat.mul_le_mul_right _ hb).trans hn
  refine List.nodup_flatMap.mpr ⟨fun b hbn => batchHits_nodup (hb b (List.mem_range.mp hbn)),
    List.Nodup.pairwise_of_forall_ne List.nodup_range fun b hbn b' hbn' hne => ?_⟩
  refine List.disjoint_left.mpr fun x hx hx' => hne ?_
  have h1 := ((mem_batchHits (hb b (List.mem_range.mp hbn))).mp hx).2.1
  have h2 := ((mem_batchHits (hb b' (List.mem_range.mp hbn'))).mp hx').2.1
  exact (batch_bounds.mp h1).2.symm.trans (batch_bounds.mp h2).2

end

/-! ## the epochs of a run -/

def EngineEvent.epoch? : EngineEvent → Option (Nat × Nat)
  | .epoch rng polls => some (rng, polls)
  | _ => none

def EngineEvent.nextBatch? : EngineEvent → Option Unit
  | .nextBatch => some ()
  | _ => none

/-- where the epochs of a run start: the draw of the first base scalar, and the polls to go -/
def epochs {α : Type} (x : Worker α) : List (Nat × Nat) := select EngineEvent.epoch? x

/-- the calls of `next_batch` -/
def nextBatches {α : Type} (x : Worker α) : Nat := (select EngineEvent.nextBatch? x).length

section
variable {lanes : Nat} {S O β : Type} {ops : LaneOps lanes S O} {h : Host} {cfg : EngineConfig}
  {f : EngineEvent → Option β}

theorem select_machine (hm : ∀ e, f (.machine e) = none) {α : Type} (x : Run α) :
    select f (lift .machine x) = [] := by
  rw [select_lift]
  exact select_eq_nil hm

theorem select_tryPatterns (hp : ∀ p, f (.push p) = none) (a0 : Bytes 32) (draw i : Nat)
    (y : Bytes 32) (patterns : List CompiledPattern) (p rng : Nat) :
    select f (tryPatterns h a0 draw i y patterns p rng) = [] := by
  have hoffer : ∀ p rng, select f (offer h a0 draw i p rng) = [] := fun p rng => by
    simp only [offer, pubkeyFromScalar]
    cases h.baseNoclamp (scalarAdd8i a0 i) with
    | none => rfl
    | some pk =>
      show List.filterMap f [EngineEvent.push _] = []
      rw [List.filterMap_cons, hp]
      rfl
  induction patterns generalizing p rng with
  | nil => rfl
  | cons pat pats ih =>
    rw [tryPatterns]
    split
    · rw [select_bind, hoffer]
      exact ih _ _
    · exact ih _ _

theorem select_workBatch (hm : ∀ e, f (.machine e) = none) (hp : ∀ p, f (.push p) = none)
    (a0 : Vector (Bytes 32) lanes) (draw : Nat) (s : S × WorkerState O) :
    select f (workBatch ops h cfg a0 draw s) = (f .nextBatch).toList := by
  have hloop : ∀ (buf : O) rng, select f (forEach (fun (l : Fin lanes) rng =>
      forUp (fun k rng => do
        let y ← lift .machine (vget (ops.lane buf l) k (Bytes.ofNat 32 0))
        tryPatterns h a0[l] (draw + l) ((ops.consumed s.1 + k) % 2^64) y cfg.patterns 0 rng)
        cfg.batch rng) (List.finRange lanes) rng) = [] := by
    intro buf rng
    rw [select_forEach fun l _ rng => select_forUp fun k rng _ => by
      rw [select_bind, select_machine hm, select_tryPatterns hp]]
    simp
  have hrec : select f (record .nextBatch) = (f .nextBatch).toList := by
    show List.filterMap f [EngineEvent.nextBatch] = _
    rw [List.filterMap_cons]
    cases f .nextBatch <;> rfl
  rw [workBatch, select_bind, select_bind, select_bind, select_machine hm, hloop, hrec]
  exact List.append_nil _

end

section
variable {lanes : Nat} {S O : Type} {ops : LaneOps lanes S O} (wk : Walks ops) {h : Host}
  {cfg : EngineConfig}

theorem batchLoop_epochs (a0 : Vector (Bytes 32) lanes) (draw left : Nat) (s : S × WorkerState O) :
    epochs (batchLoop ops h cfg a0 draw left s) = [] := by
  induction left generalizing s with
  | zero => rfl
  | succ left ih =>
    rw [batchLoop]
    cases s.2.polls with
    | zero => rfl
    | succ polls =>
      rw [epochs, select_bind, select_workBatch (fun _ => rfl) fun _ => rfl]
      exact ih _

theorem epoch_epochs (s : WorkerState O) :
    epochs (epoch ops h cfg s) = [(s.rng, s.polls)] := by
  have hdiv : select EngineEvent.epoch? (divide cfg.epochCandidates cfg.batch) = [] := by
    rw [divide, select]
    split <;> rfl
  rw [epoch, epochs, select_bind, select_bind, select_bind, select_bind, hdiv,
    select_machine fun _ => rfl]
  exact congrArg (_ :: ·) (congrArg₂ _ (batchLoop_epochs _ _ _ _) rfl)

include wk in
/-- a run is a sequence of epochs, each with its own draws -/
theorem epochLoop_run (fuel : Nat) {s : WorkerState O} (hs : Settled ops cfg s) :
    let run := epochLoop ops h cfg fuel s
    hits run = ((epochs run).flatMap fun e => epochHits h cfg lanes e.1 (cfg.completed e.2)) ∧
      (epochs run).Pairwise (fun e e' => e.1 + lanes ≤ e'.1) ∧ (∀ e ∈ epochs run, s.rng ≤ e.1) := by
  induction fuel generalizing s with
  | zero => exact ⟨rfl, List.Pairwise.nil, by simp [epochLoop, epochs, select_pure]⟩
  | succ fuel ih =>
    rw [epochLoop]
    cases hp : s.polls with
    | zero => exact ⟨rfl, List.Pairwise.nil, by simp [epochs, select_pure]⟩
    | succ polls =>
      have hs' := hs.polls polls
      obtain ⟨hr, hrng, -⟩ := epoch_val (h := h) wk hs'
      obtain ⟨hh, hpw, hle⟩ := ih hr
      have he : epochs (epoch ops h cfg { s with polls := polls } >>= epochLoop ops h cfg fuel) =
          (s.rng, polls) :: epochs (epochLoop ops h cfg fuel
            (epoch ops h cfg { s with polls := polls }).val) := by
        rw [epochs, select_bind]
        exact congrArg₂ _ (epoch_epochs { s with polls := polls }) rfl
      refine ⟨?_, ?_, ?_⟩
      · show hits (_ >>= _) = (epochs (_ >>= _)).flatMap _
        rw [he, List.flatMap_cons, hits, select_bind]
        exact congrArg₂ _ (epoch_hits wk hs') hh
      · show (epochs (_ >>= _)).Pairwise _
        rw [he]
        exact List.pairwise_cons.mpr ⟨fun e hm => hrng.trans (hle e hm), hpw⟩
      · show ∀ e ∈ epochs (_ >>= _), _
        rw [he]
        intro e hm
        rcases List.mem_cons.mp hm with rfl | hm
        · exact le_rfl
        · exact (Nat.le_add_right _ _).trans (hrng.trans (hle e hm))

theorem epochs_worker (polls : Nat) : epochs (worker ops h cfg (polls + 1)) =
    (0, polls) :: epochs (epochLoop ops h cfg polls
      (epoch ops h cfg ⟨ops.sized cfg.batch, 0, polls, 0, 0⟩).val) := by
  show epochs (epoch ops h cfg _ >>= epochLoop ops h cfg polls) = _
  rw [epochs, select_bind, ← epochs, epoch_epochs]
  rfl

theorem first_epoch (polls : Nat) : (0, polls) ∈ epochs (worker ops h cfg (polls + 1)) := by
  rw [epochs_worker]
  exact List.mem_cons_self

include wk in
theorem initial_settled (cfg : EngineConfig) (polls : Nat) :
    Settled ops cfg ⟨ops.sized cfg.batch, 0, polls, 0, 0⟩ :=
  ⟨wk.sized cfg.batch, rfl, Nat.two_pow_pos 64⟩

include wk in
/-- the hits of a run: the matches of the completed candidates of its epochs -/
theorem mem_worker_hits {polls : Nat} {x : Hit} :
    x ∈ hits (worker ops h cfg polls) ↔ ∃ e ∈ epochs (worker ops h cfg polls),
      (e.1 ≤ x.draw ∧ x.draw < e.1 + lanes) ∧ x.index < cfg.completed e.2 * cfg.batch ∧
      x.scalar = scalarAdd8i (baseScalar h x.draw) x.index ∧
      Matched h cfg.patterns x.draw x.index x.pattern x.pubkey := by
  have hrun := (epochLoop_run (h := h) wk polls (initial_settled wk cfg polls)).1
  rw [worker, hrun, List.mem_flatMap]
  refine exists_congr fun e => and_congr_right fun _ => mem_epochHits ?_
  exact (cfg.completed_le e.2).trans cfg.epoch_lt.le

include wk in
/-- no match is pushed twice -/
theorem worker_hits_nodup (polls : Nat) : (hits (worker ops h cfg polls)).Nodup := by
  obtain ⟨hh, hpw, -⟩ := epochLoop_run (h := h) wk polls (initial_settled wk cfg polls)
  have hn : ∀ e : Nat × Nat, cfg.completed e.2 * cfg.batch ≤ 2^64 := fun e =>
    (cfg.completed_le e.2).trans cfg.epoch_lt.le
  rw [worker, hh]
  refine List.nodup_flatMap.mpr ⟨fun e _ => epochHits_nodup (hn e), hpw.imp fun {e e'} hle => ?_⟩
  refine List.disjoint_left.mpr fun x hx hx' => ?_
  have h1 := ((mem_epochHits (hn e)).mp hx).1
  have h2 := ((mem_epochHits (hn e')).mp hx').1
  omega

include wk in
/-- a walk belongs to one epoch -/
theorem epochs_unique {polls draw : Nat} {e e' : Nat × Nat}
    (he : e ∈ epochs (worker ops h cfg polls)) (he' : e' ∈ epochs (worker ops h cfg polls))
    (hd : e.1 ≤ draw ∧ draw < e.1 + lanes) (hd' : e'.1 ≤ draw ∧ draw < e'.1 + lanes) : e = e' := by
  have hpw := (epochLoop_run (h := h) wk polls (initial_settled wk cfg polls)).2.1
  exact List.Pairwise.forall_of_forall_of_flip
    (R := fun e e' => (e.1 ≤ draw ∧ draw < e.1 + lanes) → (e'.1 ≤ draw ∧ draw < e'.1 + lanes) → e = e')
    (fun _ _ _ _ => rfl) (hpw.imp fun hle h1 h2 => by omega) (hpw.imp fun hle h1 h2 => by omega)
    he he' hd hd'

end

end Onion
