import Onion.Engine.Incremental
import Onion.Crypto.StepperX4

/-!
# What the CPU workers push

A push without its random PRF prefix is a `Hit`.

* `Walks`               the two steppers walk: what their operations do, in every lane;
* `hitsAt`              the hits of one candidate, from its scalar and the point it belongs to;
* `workBatch_ok`, `workBatch_hits`   one batch;
* `batchLoop_ok`, `batchLoop_hits`   the completed batches of an epoch;
* `epoch_ok`, `epoch_hits`           an epoch.
-/

namespace Onion
open Logged

/-! ## hits -/

@[ext] structure Hit where
  draw : Nat
  index : Nat
  scalar : Bytes 32
  pubkey : Bytes 32
  pattern : Nat
deriving DecidableEq

def Push.hit (p : Push) : Hit :=
  ⟨p.draw, p.index, p.cand.secret.scalar, p.cand.claimedPubkey, p.cand.patternIndex⟩

def EngineEvent.hit? (e : EngineEvent) : Option Hit := e.push?.map Push.hit

def hits {α : Type} (x : Worker α) : List Hit := select EngineEvent.hit? x

theorem pushes_hit {α : Type} (x : Worker α) : (pushes x).map Push.hit = hits x :=
  List.map_filterMap

theorem hits_lift {α : Type} (x : Run α) : hits (lift .machine x) = [] := by
  rw [hits, select_lift]
  exact select_eq_nil fun _ => rfl

/-- the hits of one candidate: a public key for every pattern that its `y` matches -/
def hitsAt (h : Host) (patterns : List CompiledPattern) (p : Nat) (a0 : Bytes 32) (draw i : Nat)
    (y : Bytes 32) : List Hit :=
  (patterns.zipIdx p).filterMap fun pat =>
    if matchesPubkey pat.1 y then
      (h.baseNoclamp (scalarAdd8i a0 i)).map fun pk => ⟨draw, i, scalarAdd8i a0 i, pk, pat.2⟩
    else none

theorem hitsAt_cons (h : Host) (pat : CompiledPattern) (pats : List CompiledPattern) (p : Nat)
    (a0 : Bytes 32) (draw i : Nat) (y : Bytes 32) :
    hitsAt h (pat :: pats) p a0 draw i y =
      (if matchesPubkey pat y then ((h.baseNoclamp (scalarAdd8i a0 i)).map fun pk =>
        (⟨draw, i, scalarAdd8i a0 i, pk, p⟩ : Hit)).toList else []) ++
      hitsAt h pats (p + 1) a0 draw i y := by
  rw [hitsAt, List.zipIdx_cons, List.filterMap_cons]
  dsimp only
  by_cases hm : matchesPubkey pat y = true
  · rw [if_pos hm, if_pos hm]
    generalize Option.map _ _ = o
    cases o <;> rfl
  · rw [if_neg hm, if_neg hm]
    rfl

theorem offer_hits (h : Host) (a0 : Bytes 32) (draw i p rng : Nat) :
    hits (offer h a0 draw i p rng) = ((h.baseNoclamp (scalarAdd8i a0 i)).map fun pk =>
      (⟨draw, i, scalarAdd8i a0 i, pk, p⟩ : Hit)).toList := by
  simp only [offer, pubkeyFromScalar]
  cases h.baseNoclamp (scalarAdd8i a0 i) <;> rfl

theorem tryPatterns_hits (h : Host) (a0 : Bytes 32) (draw i : Nat) (y : Bytes 32)
    (patterns : List CompiledPattern) (p rng : Nat) :
    hits (tryPatterns h a0 draw i y patterns p rng) = hitsAt h patterns p a0 draw i y := by
  induction patterns generalizing p rng with
  | nil => rfl
  | cons pat pats ih =>
    rw [tryPatterns, hitsAt_cons]
    by_cases hm : matchesPubkey pat y = true
    · rw [if_pos hm, if_pos hm, hits, select_bind]
      exact congrArg₂ _ (offer_hits h a0 draw i p rng) (ih _ _)
    · rw [if_neg hm, if_neg hm]
      exact ih _ _

/-! ## the events of a worker -/

/-- no bad machine event and no division by zero -/
def EngineEvent.Good : EngineEvent → Prop
  | .machine e => e.Good
  | .divZero => False
  | _ => True

abbrev WOk {α : Type} (x : Worker α) (Q : α → Prop) : Prop := Holds EngineEvent.Good x Q

theorem Ok.lift {α : Type} {x : Run α} {Q : α → Prop} (hx : Ok x Q) : WOk (lift .machine x) Q :=
  Holds.lift hx

theorem record_ok {e : EngineEvent} (he : e.Good) : WOk (record e) fun _ => True :=
  ⟨fun e' h => by rw [List.mem_singleton.mp h]; exact he, trivial⟩

theorem offer_ok (h : Host) (a0 : Bytes 32) (draw i p rng : Nat) :
    WOk (offer h a0 draw i p rng) fun _ => True := by
  simp only [offer, pubkeyFromScalar]
  cases h.baseNoclamp (scalarAdd8i a0 i) with
  | none => exact Holds.pure trivial
  | some pk => exact record_ok trivial

theorem tryPatterns_ok (h : Host) (a0 : Bytes 32) (draw i : Nat) (y : Bytes 32)
    (patterns : List CompiledPattern) (p rng : Nat) :
    WOk (tryPatterns h a0 draw i y patterns p rng) fun r => rng ≤ r := by
  induction patterns generalizing p rng with
  | nil => exact Holds.pure le_rfl
  | cons pat pats ih =>
    rw [tryPatterns]
    by_cases hm : matchesPubkey pat y = true
    · rw [if_pos hm]
      exact (offer_ok h a0 draw i p rng).bind fun _ _ =>
        (ih (p + 1) (rng + 1)).mono fun r hr => (Nat.le_succ rng).trans hr
    · rw [if_neg hm]
      exact ih _ _

/-! ## walkers -/

/-- `S` walks: `inv a c st` says that `st` is `c` candidates away from the scalars `a` -/
structure Walks {lanes : Nat} {S O : Type} (ops : LaneOps lanes S O) where
  inv : (Fin lanes → Nat) → Nat → S → Prop
  new : ∀ a0 : Vector (Bytes 32) lanes,
    Ok (ops.new a0) (inv (fun l => (a0[l]).toNat % 2^255) 0)
  consumed : ∀ {a c st}, inv a c st → ops.consumed st = c % 2^64
  nextBatch : ∀ {a c st out n}, inv a c st → 0 < n → n < 2^64 →
    (∀ l, (ops.lane out l).length = n) → Ok (ops.nextBatch st out n) fun r =>
      inv a (c + n) r.1 ∧ ∀ l, ops.lane r.2 l = walkBytes (a l) c n
  sized : ∀ n l, (ops.lane (ops.sized n) l).length = n

def laneWalks : Walks laneOps where
  inv a c st := Walking stepExact (fun _ => a (Fin.last 0)) c st
  new a0 := new_ok a0[Fin.last 0]
  consumed h := h.consumed
  nextBatch {a c st out n} h hpos hlt hlen := by
    have hn : out.length = n := hlen 0
    refine (nextBatch_ok stepExact h (n := out.length) (hn ▸ hpos) (hn ▸ hlt)
      fun _ => le_refl out.length).mono fun r ⟨hw, hr⟩ => ⟨hn ▸ hw, fun l => ?_⟩
    have hr := hr ()
    rw [show stepExact.read out () = out from rfl, List.drop_length, List.append_nil, hn] at hr
    rwa [Subsingleton.elim l (Fin.last 0)]
  sized n _ := List.length_replicate

def laneWalksX4 : Walks laneOpsX4 where
  inv := Walking stepExactX4
  new := newX4_ok
  consumed h := h.consumed
  nextBatch {a c st out n} h hpos hlt hlen := by
    refine (nextBatch_ok stepExactX4 h hpos hlt fun l => (hlen l).ge).mono
      fun r ⟨hw, hr⟩ => ⟨hw, fun l => ?_⟩
    have hlen : (stepExactX4.read out l).length = n := hlen l
    have hr := hr l
    rw [← hlen, List.drop_length, List.append_nil, hlen] at hr
    exact hr
  sized n l := by
    show (Vector.replicate 4 (List.replicate n (Bytes.ofNat 32 0)))[l].length = n
    rw [Vector.getElem_replicate_fin, List.length_replicate]

/-! ## one batch -/

section
variable {lanes : Nat} {S O : Type} {ops : LaneOps lanes S O} (wk : Walks ops) {h : Host}
  {cfg : EngineConfig} {a0 : Vector (Bytes 32) lanes} {draw c : Nat}

/-- between epochs: buffers of the batch size, and the published total -/
structure Settled (ops : LaneOps lanes S O) (cfg : EngineConfig) (s : WorkerState O) : Prop where
  sized : ∀ l, (ops.lane s.ybatch l).length = cfg.batch
  slot : s.slot = s.localTotal
  lt : s.localTotal < 2^64

structure InEpoch (cfg : EngineConfig) (a0 : Vector (Bytes 32) lanes) (c : Nat)
    (s : S × WorkerState O) : Prop where
  walk : wk.inv (fun l => (a0[l]).toNat % 2^255) c s.1
  settled : Settled ops cfg s.2

def batchHits (h : Host) (patterns : List CompiledPattern) (a0 : Vector (Bytes 32) lanes)
    (draw c n : Nat) : List Hit :=
  (List.finRange lanes).flatMap fun (l : Fin lanes) => (List.range n).flatMap fun k =>
    hitsAt h patterns 0 a0[l] (draw + l) ((c + k) % 2^64)
      (canonBytes (walkPoint ((a0[l]).toNat % 2^255) (c + k)).y)

/-- progress of a worker over `n` candidates -/
structure Progress (lanes n polls : Nat) (s r : WorkerState O) : Prop where
  polls : r.polls = s.polls - polls
  rng : s.rng ≤ r.rng
  slot : r.slot = (s.slot + lanes * n) % 2^64

variable {s : S × WorkerState O}

theorem workBatch_ok (hs : InEpoch wk cfg a0 c s) (hpos : 0 < cfg.batch) :
    WOk (workBatch ops h cfg a0 draw s) fun r =>
      InEpoch wk cfg a0 (c + cfg.batch) r ∧ Progress lanes cfg.batch 0 s.2 r.2 := by
  rw [workBatch]
  refine (record_ok (e := .nextBatch) trivial).bind fun _ _ => ?_
  refine (wk.nextBatch hs.walk hpos cfg.batch_lt hs.settled.sized).lift.bind fun r ⟨hw, hr⟩ => ?_
  have hlen : ∀ l, (ops.lane r.2 l).length = cfg.batch := fun l => by rw [hr l, walkBytes_length]
  refine (Holds.forEach (fun rng => s.2.rng ≤ rng) le_rfl fun l _ rng hrng =>
    Holds.forUp (fun _ rng => s.2.rng ≤ rng) _ hrng fun k rng hk hrng => ?_).bind
      fun rng hrng => Holds.pure ⟨⟨hw, hlen, rfl, Nat.mod_lt _ (Nat.two_pow_pos 64)⟩, rfl, hrng, ?_⟩
  · have hget : Ok (vget (ops.lane r.2 l) k (Bytes.ofNat 32 0)) fun _ => True := by
      refine ⟨fun e he => ?_, trivial⟩
      rw [vget, if_pos (by rw [hlen l]; exact hk)] at he
      simp at he
    exact hget.lift.bind fun y _ => (tryPatterns_ok _ _ _ _ _ _ _ _).mono fun _ hr => hrng.trans hr
  · rw [hs.settled.slot]

theorem workBatch_hits (hs : InEpoch wk cfg a0 c s) (hpos : 0 < cfg.batch) :
    hits (workBatch ops h cfg a0 draw s) = batchHits h cfg.patterns a0 draw c cfg.batch := by
  obtain ⟨hw, hr⟩ := (wk.nextBatch hs.walk hpos cfg.batch_lt hs.settled.sized).2
  have hloop : ∀ rng, select EngineEvent.hit? (forEach (fun (l : Fin lanes) rng =>
      forUp (fun k rng => do
        let y ← lift .machine (vget (ops.lane (ops.nextBatch s.1 s.2.ybatch cfg.batch).val.2 l) k
          (Bytes.ofNat 32 0))
        tryPatterns h a0[l] (draw + l) ((ops.consumed s.1 + k) % 2^64) y cfg.patterns 0 rng)
        cfg.batch rng) (List.finRange lanes) rng) = batchHits h cfg.patterns a0 draw c cfg.batch := by
    refine fun rng => select_forEach fun l _ rng => select_forUp fun k rng hk => ?_
    rw [select_bind]
    refine (congrArg₂ _ (hits_lift _) (tryPatterns_hits _ _ _ _ _ _ _ _)).trans ?_
    have hy : (vget (ops.lane (ops.nextBatch s.1 s.2.ybatch cfg.batch).val.2 l) k
        (Bytes.ofNat 32 0)).val = canonBytes (walkPoint ((a0[l]).toNat % 2^255) (c + k)).y := by
      rw [vget, hr l, List.getD_eq_getElem?_getD, walkBytes_getElem? hk, Option.getD_some]
    rw [wk.consumed hs.walk, Nat.mod_add_mod, List.nil_append]
    exact congrArg _ hy
  rw [workBatch, hits, select_bind, select_bind, select_bind]
  refine (congrArg₂ _ rfl (congrArg₂ _ (hits_lift _) (congrArg₂ _ (hloop _) rfl))).trans ?_
  exact List.append_nil _

/-! ## the completed batches of an epoch -/

theorem Settled.polls {s : WorkerState O} (hs : Settled ops cfg s) (polls : Nat) :
    Settled ops cfg { s with polls := polls } := ⟨hs.sized, hs.slot, hs.lt⟩

theorem Settled.progress_zero {s : WorkerState O} (hs : Settled ops cfg s) :
    Progress lanes 0 0 s s := by
  refine ⟨rfl, le_rfl, ?_⟩
  rw [Nat.mul_zero, Nat.add_zero, hs.slot, Nat.mod_eq_of_lt hs.lt]

theorem Progress.trans {n m p q : Nat} {s r t : WorkerState O} (h : Progress lanes n p s r)
    (h' : Progress lanes m q r t) : Progress lanes (n + m) (p + q) s t := by
  refine ⟨by rw [h'.polls, h.polls, Nat.sub_sub], h.rng.trans h'.rng, ?_⟩
  rw [h'.slot, h.slot, Nat.mod_add_mod, Nat.mul_add, Nat.add_assoc]

theorem Settled.progress_poll {s : WorkerState O} (hs : Settled ops cfg s) {polls : Nat}
    (hp : s.polls = polls + 1) : Progress lanes 0 1 s { s with polls := polls } :=
  ⟨by rw [hp, Nat.add_sub_cancel], le_rfl, hs.progress_zero.slot⟩

theorem batchLoop_ok (left : Nat) (hs : InEpoch wk cfg a0 c s) (hpos : 0 < cfg.batch) :
    WOk (batchLoop ops h cfg a0 draw left s) fun r =>
      InEpoch wk cfg a0 (c + min left s.2.polls * cfg.batch) r ∧
      Progress lanes (min left s.2.polls * cfg.batch) (min left s.2.polls) s.2 r.2 := by
  induction left generalizing c s with
  | zero =>
    rw [Nat.zero_min, Nat.zero_mul]
    exact Holds.pure ⟨hs, hs.settled.progress_zero⟩
  | succ left ih =>
    rw [batchLoop]
    cases hp : s.2.polls with
    | zero =>
      rw [Nat.min_zero, Nat.zero_mul]
      exact Holds.pure ⟨hs, hs.settled.progress_zero⟩
    | succ polls =>
      have hs' : InEpoch wk cfg a0 c (s.1, { s.2 with polls := polls }) :=
        ⟨hs.walk, hs.settled.polls polls⟩
      refine (workBatch_ok wk hs' hpos).bind fun r ⟨hr, hpr⟩ => ?_
      have hpolls : r.2.polls = polls := hpr.polls
      refine (ih hr).mono fun r' ⟨hr', hpr'⟩ => ?_
      rw [hpolls] at hr' hpr'
      have hn : cfg.batch + min left polls * cfg.batch = min (left + 1) (polls + 1) * cfg.batch := by
        rw [Nat.add_min_add_right, Nat.add_mul, Nat.one_mul, Nat.add_comm]
      have hall := ((hs.settled.progress_poll hp).trans hpr).trans hpr'
      rw [Nat.zero_add, Nat.add_zero, hn, Nat.add_comm 1, ← Nat.add_min_add_right] at hall
      rw [Nat.add_assoc, hn] at hr'
      exact ⟨hr', hall⟩

theorem range_succ_flatMap {β : Type} (n : Nat) (g : Nat → List β) :
    (List.range (n + 1)).flatMap g = g 0 ++ (List.range n).flatMap fun b => g (b + 1) := by
  rw [List.range_succ_eq_map, List.flatMap_cons, List.flatMap_map]

theorem batchLoop_hits (left : Nat) (hs : InEpoch wk cfg a0 c s) (hpos : 0 < cfg.batch) :
    hits (batchLoop ops h cfg a0 draw left s) = (List.range (min left s.2.polls)).flatMap fun b =>
      batchHits h cfg.patterns a0 draw (c + b * cfg.batch) cfg.batch := by
  induction left generalizing c s with
  | zero =>
    rw [Nat.zero_min]
    rfl
  | succ left ih =>
    rw [batchLoop]
    cases hp : s.2.polls with
    | zero =>
      rw [Nat.min_zero]
      rfl
    | succ polls =>
      have hs' : InEpoch wk cfg a0 c (s.1, { s.2 with polls := polls }) :=
        ⟨hs.walk, hs.settled.polls polls⟩
      have hok : WOk (workBatch ops h cfg a0 draw (s.1, { s.2 with polls := polls })) _ :=
        workBatch_ok wk hs' hpos
      obtain ⟨hr, hpr⟩ := hok.2
      have hrest := ih hr
      rw [show _ = polls from hpr.polls] at hrest
      rw [Nat.add_min_add_right, range_succ_flatMap, hits, select_bind]
      refine congrArg₂ _ ?_ (hrest.trans ?_)
      · rw [Nat.zero_mul, Nat.add_zero]
        exact workBatch_hits wk hs' hpos
      · refine List.flatMap_congr fun b _ => ?_
        rw [Nat.add_mul, Nat.one_mul, Nat.add_assoc, Nat.add_comm cfg.batch]

/-! ## epochs -/

/-- the batches that an epoch completes when `polls` polls answer false -/
def EngineConfig.completed (cfg : EngineConfig) (polls : Nat) : Nat :=
  min (cfg.epochCandidates / cfg.batch) polls

/-- the hits of an epoch that starts at draw `rng` and completes `n` batches -/
def epochHits (h : Host) (cfg : EngineConfig) (lanes rng n : Nat) : List Hit :=
  (List.range n).flatMap fun b =>
    batchHits h cfg.patterns (baseScalars h lanes rng) rng (b * cfg.batch) cfg.batch

theorem new_inEpoch {s : WorkerState O} (hs : Settled ops cfg s) (rng : Nat) :
    InEpoch wk cfg (baseScalars h lanes rng) 0
      ((ops.new (baseScalars h lanes rng)).val, { s with rng := s.rng + lanes }) :=
  ⟨(wk.new _).2, hs.sized, hs.slot, hs.lt⟩

include wk in
theorem epoch_ok {s : WorkerState O} (hs : Settled ops cfg s) (hpos : 0 < cfg.batch) :
    WOk (epoch ops h cfg s) fun r => Settled ops cfg r ∧ s.rng + lanes ≤ r.rng ∧
      Progress lanes (cfg.completed s.polls * cfg.batch) (cfg.completed s.polls) s r := by
  rw [epoch]
  refine (record_ok (e := .epoch s.rng s.polls) trivial).bind fun _ _ => ?_
  refine (wk.new _).lift.bind fun st hst => ?_
  have hdiv : WOk (divide cfg.epochCandidates cfg.batch) fun n =>
      n = cfg.epochCandidates / cfg.batch := by
    refine ⟨fun e he => ?_, rfl⟩
    rw [divide, if_neg hpos.ne'] at he
    simp at he
  refine hdiv.bind fun n hn => ?_
  have hin : InEpoch wk cfg (baseScalars h lanes s.rng) 0 (st, { s with rng := s.rng + lanes }) :=
    ⟨hst, hs.sized, hs.slot, hs.lt⟩
  refine (batchLoop_ok wk n hin hpos).bind fun r ⟨hr, hpr⟩ => Holds.pure ⟨hr.settled, hpr.rng, ?_⟩
  rw [EngineConfig.completed, ← hn]
  exact ⟨hpr.polls, (Nat.le_add_right _ _).trans hpr.rng, hpr.slot⟩

theorem epoch_idle {s : WorkerState O} (h0 : cfg.batch = 0) :
    (epoch ops h cfg s).val = { s with rng := s.rng + lanes } ∧ hits (epoch ops h cfg s) = [] := by
  have hdiv : (divide cfg.epochCandidates cfg.batch).val = 0 := by
    rw [divide, h0, Nat.div_zero]
  have hlog : hits (divide cfg.epochCandidates cfg.batch) = [] := by
    rw [divide, if_pos h0]
    rfl
  constructor
  · rw [epoch]
    simp only [bind_val, pure_val, hdiv]
    rfl
  · rw [epoch, hits, select_bind, select_bind, select_bind, select_bind]
    rw [hits] at hlog
    rw [hlog, hdiv]
    exact congrArg₂ _ rfl (congrArg₂ _ (hits_lift _) rfl)

include wk in
theorem epoch_val {s : WorkerState O} (hs : Settled ops cfg s) :
    let r := (epoch ops h cfg s).val
    Settled ops cfg r ∧ s.rng + lanes ≤ r.rng ∧
      Progress lanes (cfg.completed s.polls * cfg.batch) (cfg.completed s.polls) s r := by
  rcases Nat.eq_zero_or_pos cfg.batch with h0 | hpos
  · rw [(epoch_idle h0).1]
    refine ⟨⟨hs.sized, hs.slot, hs.lt⟩, le_rfl, ?_⟩
    have hc : cfg.completed s.polls = 0 := by
      rw [EngineConfig.completed, h0, Nat.div_zero, Nat.zero_min]
    rw [hc, Nat.zero_mul]
    exact ⟨rfl, Nat.le_add_right _ _, hs.progress_zero.slot⟩
  · exact (epoch_ok wk hs hpos).2

include wk in
theorem epoch_hits {s : WorkerState O} (hs : Settled ops cfg s) :
    hits (epoch ops h cfg s) = epochHits h cfg lanes s.rng (cfg.completed s.polls) := by
  rcases Nat.eq_zero_or_pos cfg.batch with h0 | hpos
  · rw [(epoch_idle h0).2, EngineConfig.completed, h0, Nat.div_zero, Nat.zero_min]
    rfl
  · have hloop : hits (batchLoop ops h cfg (baseScalars h lanes s.rng) s.rng _ _) = _ :=
      batchLoop_hits wk (cfg.epochCandidates / cfg.batch) (new_inEpoch wk hs s.rng) hpos
    have hdiv : hits (divide cfg.epochCandidates cfg.batch) = [] := by
      rw [divide, if_neg hpos.ne']
      rfl
    rw [epoch, hits, select_bind, select_bind, select_bind, select_bind]
    rw [hits] at hdiv
    rw [hdiv]
    refine (congrArg₂ _ rfl (congrArg₂ _ (hits_lift _) (congrArg₂ _ rfl
      (congrArg₂ _ hloop rfl)))).trans ?_
    simp only [Nat.zero_add, List.nil_append]
    exact List.append_nil _

end

end Onion
