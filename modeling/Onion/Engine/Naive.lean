import Onion.Engine.Runs

/-!
# `naive_engine.cpp`: the reference worker

Every candidate has its own seed, and its secret key is the expanded seed.

* `NaiveCpuEngine.mem_worker_hits`, `NaiveCpuEngine.worker_hits_nodup`   what a run pushes: the
                     matches of every draw it takes, once.
-/

namespace Onion
open Logged

namespace NaiveCpuEngine

/-- candidates between two polls of the stop token -/
def kCheckInterval : Nat := 256

def tryPatterns (draw : Nat) (secret : ExpandedSecretKey) (pk : Bytes 32) :
    List CompiledPattern → Nat → Worker Unit
  | [], _ => return ()
  | pat :: pats, p =>
    if matchesPubkey pat pk then do
      record (.push ⟨draw, 0, ⟨secret, pk, p⟩⟩)
      tryPatterns draw secret pk pats (p + 1)
    else tryPatterns draw secret pk pats (p + 1)

variable (h : Host) (patterns : List CompiledPattern)

/-- the candidate of one draw; a degenerate scalar is skipped and not counted -/
def candidate (draw localTotal : Nat) : Worker Nat :=
  let secret := expandSeed h.sha512 (h.rand draw)
  match pubkeyFromScalar h.baseNoclamp secret.scalar with
  | none => return localTotal
  | some pk => do
    tryPatterns draw secret pk patterns 0
    return (localTotal + 1) % 2^64

/-- the variables of the worker, and its slot of the `StatsBoard` -/
structure State where
  rng : Nat
  localTotal : Nat
  slot : Nat

/-- `while (!stop)`: every round takes a poll -/
def loop : Nat → State → Worker State
  | 0, s => return s
  | polls+1, s => do
    let total ← forUp (fun i total => candidate h patterns (s.rng + i) total) kCheckInterval
      s.localTotal
    loop polls ⟨s.rng + kCheckInterval, total, total⟩

def worker (polls : Nat) : Worker State := loop h patterns polls ⟨0, 0, 0⟩

/-! ## what a run pushes -/

/-- the key of draw `draw` is `pk` and matches pattern `p` -/
def Matched (draw p : Nat) (pk : Bytes 32) : Prop :=
  ∃ pat, patterns[p]? = some pat ∧ matchesPubkey pat pk = true ∧
    h.baseNoclamp (expandSeed h.sha512 (h.rand draw)).scalar = some pk

def drawHits (draw : Nat) : List Hit :=
  match h.baseNoclamp (expandSeed h.sha512 (h.rand draw)).scalar with
  | none => []
  | some pk => hitsAt h patterns 0 (expandSeed h.sha512 (h.rand draw)).scalar draw 0 pk

end NaiveCpuEngine

theorem scalarAdd8i_zero (a0 : Bytes 32) : scalarAdd8i a0 0 = a0 := by
  refine Bytes.toNat_inj ?_
  rw [scalarAdd8i_toNat, Nat.zero_mul, Nat.zero_mod, Nat.add_zero]
  exact Nat.mod_eq_of_lt a0.toNat_lt

namespace NaiveCpuEngine
variable {h : Host} {patterns : List CompiledPattern}

theorem tryPatterns_hits {draw : Nat} {secret : ExpandedSecretKey} {pk : Bytes 32}
    (hk : h.baseNoclamp secret.scalar = some pk) (patterns : List CompiledPattern) (p : Nat) :
    hits (tryPatterns draw secret pk patterns p) =
      hitsAt h patterns p secret.scalar draw 0 pk := by
  induction patterns generalizing p with
  | nil => rfl
  | cons pat pats ih =>
    rw [tryPatterns, hitsAt_cons, scalarAdd8i_zero, hk]
    by_cases hm : matchesPubkey pat pk = true
    · rw [if_pos hm, if_pos hm, hits, select_bind]
      exact congrArg₂ _ rfl (ih _)
    · rw [if_neg hm, if_neg hm]
      exact ih _

theorem candidate_hits (draw total : Nat) :
    hits (candidate h patterns draw total) = drawHits h patterns draw := by
  simp only [candidate, drawHits, pubkeyFromScalar]
  cases hk : h.baseNoclamp (expandSeed h.sha512 (h.rand draw)).scalar with
  | none => rfl
  | some pk =>
    dsimp only
    rw [hits, select_bind]
    refine (congrArg₂ _ (tryPatterns_hits hk patterns 0) rfl).trans ?_
    exact List.append_nil _

def drawsHits (h : Host) (patterns : List CompiledPattern) (rng n : Nat) : List Hit :=
  (List.range n).flatMap fun i => drawHits h patterns (rng + i)

theorem drawsHits_add (rng m n : Nat) : drawsHits h patterns rng (m + n) =
    drawsHits h patterns rng m ++ drawsHits h patterns (rng + m) n := by
  rw [drawsHits, List.range_add, List.flatMap_append, List.flatMap_map]
  refine congrArg _ (List.flatMap_congr fun i _ => ?_)
  rw [Nat.add_assoc]

theorem round_hits (rng n total : Nat) :
    hits (forUp (fun i total => candidate h patterns (rng + i) total) n total) =
      drawsHits h patterns rng n :=
  select_forUp fun _ _ _ => candidate_hits _ _

theorem loop_hits (polls : Nat) (s : State) :
    hits (loop h patterns polls s) = drawsHits h patterns s.rng (kCheckInterval * polls) := by
  induction polls generalizing s with
  | zero => rfl
  | succ polls ih =>
    have hn : kCheckInterval * (polls + 1) = kCheckInterval + kCheckInterval * polls := by
      rw [Nat.mul_succ, Nat.add_comm]
    rw [loop, hits, select_bind, ← hits, round_hits, ← hits, ih, hn, drawsHits_add]

theorem mem_drawHits {draw : Nat} {x : Hit} : x ∈ drawHits h patterns draw ↔
    x.draw = draw ∧ x.index = 0 ∧ x.scalar = (expandSeed h.sha512 (h.rand draw)).scalar ∧
      Matched h patterns draw x.pattern x.pubkey := by
  rw [drawHits, Matched]
  cases hk : h.baseNoclamp (expandSeed h.sha512 (h.rand draw)).scalar with
  | none => exact ⟨nofun, fun ⟨_, _, _, _, _, _, hn⟩ => by cases hn⟩
  | some pk =>
    dsimp only
    rw [mem_hitsAt, scalarAdd8i_zero, hk]
    refine and_congr_right fun _ => and_congr_right fun _ => and_congr_right fun _ =>
      exists_congr fun pat => and_congr_right fun _ => ?_
    constructor
    · rintro ⟨hm, hpk⟩
      rw [← Option.some.inj hpk]
      exact ⟨hm, rfl⟩
    · rintro ⟨hm, hpk⟩
      rw [← Option.some.inj hpk] at hm
      exact ⟨hm, hpk⟩

/-- the hits of a run: the matches of its draws -/
theorem mem_worker_hits {polls : Nat} {x : Hit} : x ∈ hits (worker h patterns polls) ↔
    x.draw < kCheckInterval * polls ∧ x.index = 0 ∧
      x.scalar = (expandSeed h.sha512 (h.rand x.draw)).scalar ∧
      Matched h patterns x.draw x.pattern x.pubkey := by
  rw [worker, loop_hits, drawsHits, List.mem_flatMap]
  constructor
  · rintro ⟨i, hi, hx⟩
    rw [Nat.zero_add, mem_drawHits] at hx
    obtain ⟨rfl, hx⟩ := hx
    exact ⟨List.mem_range.mp hi, hx⟩
  · rintro ⟨hi, hx⟩
    refine ⟨x.draw, List.mem_range.mpr hi, ?_⟩
    rw [Nat.zero_add]
    exact mem_drawHits.mpr ⟨rfl, hx⟩

theorem worker_hits_nodup (h : Host) (patterns : List CompiledPattern) (polls : Nat) :
    (hits (worker h patterns polls)).Nodup := by
  rw [worker, loop_hits, drawsHits]
  refine List.nodup_flatMap.mpr ⟨fun i _ => ?_,
    List.Nodup.pairwise_of_forall_ne List.nodup_range fun i _ j _ hij => ?_⟩
  · rw [drawHits]
    split
    · exact List.nodup_nil
    · exact hitsAt_nodup ..
  · refine List.disjoint_left.mpr fun x hx hx' => hij ?_
    have h1 := (mem_drawHits.mp hx).1
    have h2 := (mem_drawHits.mp hx').1
    omega

end NaiveCpuEngine

end Onion
