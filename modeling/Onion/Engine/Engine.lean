import Onion.Core.Matcher
import Onion.Crypto.Keys
import Onion.Crypto.Incremental

/-!
# `engine.hpp`: what engines report, and the log of a worker

A worker runs until a poll of its stop token answers true; it is given the number `polls` of polls
that answer false before that.  Its log holds, beside what it pushes on the queue, the events of the
crypto code, the divisions by zero, the start of each epoch and each call of `next_batch`.
-/

namespace Onion
open Logged

structure MatchCandidate where
  secret : ExpandedSecretKey
  claimedPubkey : Bytes 32
  patternIndex : Nat
deriving DecidableEq

/-- `results_.push`, with the draw that the base scalar of the candidate came from and the index of
the candidate in that walk -/
structure Push where
  draw : Nat
  index : Nat
  cand : MatchCandidate
deriving DecidableEq

inductive EngineEvent where
  | machine (e : Event)
  | divZero
  /-- an epoch starts at draw `rng`, with `polls` polls to go -/
  | epoch (rng polls : Nat)
  | nextBatch
  /-- the hits of a GPU epoch are read back: the draw of its base scalar, and its launch -/
  | harvested (draw launch : Nat)
  | push (p : Push)

abbrev Worker := Logged EngineEvent

/-- one event, no result -/
def record (e : EngineEvent) : Worker Unit := ⟨(), [e]⟩

/-- `a / b` in a 64-bit register -/
def divide (a b : Nat) : Worker Nat := ⟨a / b, if b = 0 then [.divZero] else []⟩

def EngineEvent.push? : EngineEvent → Option Push
  | .push p => some p
  | _ => none

def pushes {α : Type} (x : Worker α) : List Push := select EngineEvent.push? x

/-- the code outside the repository, as one worker sees it: draw number `n` of 32 random bytes, and
the functions of libsodium -/
structure Host where
  rand : Nat → Bytes 32
  baseNoclamp : Bytes 32 → Option (Bytes 32)
  sha512 : Bytes 32 → Bytes 64

def threadPushes (n : Nat) (thread : Nat → List Push) : List (Nat × Push) :=
  (List.range n).flatMap fun t => (thread t).map fun p => (t, p)

/-- the queue receives them in any interleaving -/
def Interleaving (n : Nat) (thread : Nat → List Push) (q : List (Nat × Push)) : Prop :=
  q.Perm (threadPushes n thread)

theorem mem_threadPushes {n : Nat} {thread : Nat → List Push} {x : Nat × Push} :
    x ∈ threadPushes n thread ↔ x.1 < n ∧ x.2 ∈ thread x.1 := by
  rw [threadPushes, List.mem_flatMap]
  constructor
  · rintro ⟨t, ht, hx⟩
    obtain ⟨p, hp, rfl⟩ := List.mem_map.mp hx
    exact ⟨List.mem_range.mp ht, hp⟩
  · rintro ⟨ht, hp⟩
    exact ⟨x.1, List.mem_range.mpr ht, List.mem_map.mpr ⟨x.2, hp, rfl⟩⟩

theorem exists_threadPush {n t : Nat} {thread : Nat → List Push} (ht : t < n)
    (hp : ∃ p rest, thread t = p :: rest) : ∃ p, (t, p) ∈ threadPushes n thread := by
  obtain ⟨p, rest, hp⟩ := hp
  exact ⟨p, mem_threadPushes.mpr ⟨ht, hp ▸ List.mem_cons_self⟩⟩

theorem threadPushes_nodup {κ : Type} {n : Nat} {thread : Nat → List Push} (key : Push → κ)
    {q : List (Nat × Push)} (hq : Interleaving n thread q) :
    (q.map fun x => (x.1, key x.2)).Nodup ↔ ∀ t < n, ((thread t).map key).Nodup := by
  have hmap : ∀ t, ((thread t).map fun p => (t, p)).map (fun x => (x.1, key x.2)) =
      ((thread t).map key).map (t, ·) := fun t => by rw [List.map_map, List.map_map]; rfl
  rw [(hq.map _).nodup_iff, threadPushes, List.map_flatMap, List.nodup_flatMap]
  constructor
  · intro h t ht
    have hn := h.1 t (List.mem_range.mpr ht)
    rw [hmap] at hn
    exact hn.of_map
  · intro h
    constructor
    · intro t ht
      rw [hmap]
      exact (h t (List.mem_range.mp ht)).map fun a b e => (Prod.mk.inj e).2
    · refine List.Nodup.pairwise_of_forall_ne List.nodup_range fun s _ t _ hst => ?_
      rw [Function.onFun, List.disjoint_left, hmap, hmap]
      intro x hs ht
      obtain ⟨p, -, rfl⟩ := List.mem_map.mp hs
      obtain ⟨p', -, e⟩ := List.mem_map.mp ht
      exact hst (Prod.mk.inj e).1.symm

end Onion
