import Onion.Cli.Once
import Onion.Crypto.Order

/-!
# Which candidates share an address

An address is that of a public key, and the public keys are those of the scalars modulo the order
of the base point.

* `Received`            what the queue receives from an engine;
* `Push.walk_address`   on one walk, different candidates have different addresses;
* `addresses_iff`       when all candidates of the queue have.
-/

namespace Onion
open Logged

/-- the pushes of one engine, in some interleaving of its threads -/
inductive Received (n : Nat) (h : Nat → Host) (polls : Nat → Nat) (cfg : EngineConfig)
    (gpu : CudaConfig) (dev : Device gpu.threads gpu.kStepsPerThread)
    (s : CudaState kPipelineDepth) (q : List (Nat × Push)) : Prop where
  | incremental : Interleaving n
      (fun t => pushes (IncrementalCpuEngine.worker (h t) cfg (polls t))) q →
      Received n h polls cfg gpu dev s q
  | incrementalX4 : Interleaving n
      (fun t => pushes (IncrementalCpuEngineX4.worker (h t) cfg (polls t))) q →
      Received n h polls cfg gpu dev s q
  | naive : Interleaving n
      (fun t => pushes (NaiveCpuEngine.worker (h t) cfg.patterns (polls t))) q →
      Received n h polls cfg gpu dev s q
  | cuda : Interleaving 1 (fun t => pushes (CudaEngine.run (h t) gpu dev s)) q →
      Received n h polls cfg gpu dev s q

/-! ## keys and scalars of the pushes -/

/-- the claimed key is that of the scalar -/
def Push.Keyed (base : Bytes 32 → Option (Bytes 32)) (p : Push) : Prop :=
  base p.cand.secret.scalar = some p.cand.claimedPubkey

/-- the scalar is the one that the walk from the draw reaches -/
def Push.OnWalk (h : Host) (p : Push) : Prop :=
  p.cand.secret.scalar = scalarAdd8i (baseScalar h p.draw) p.index

/-- the walk has not carried -/
def Push.InRange (h : Host) (p : Push) : Prop :=
  p.index < 2^61 ∧ (baseScalar h p.draw).toNat + 8 * p.index < 2^255

theorem worker_push {lanes : Nat} {S O : Type} {ops : LaneOps lanes S O} (wk : Walks ops) {h : Host}
    {cfg : EngineConfig} {polls : Nat} {p : Push} (hp : p ∈ pushes (worker ops h cfg polls)) :
    p.Keyed h.baseNoclamp ∧ p.OnWalk h := by
  have hx : p.hit ∈ hits (worker ops h cfg polls) := by
    rw [← pushes_hit]
    exact List.mem_map_of_mem hp
  obtain ⟨e, -, -, -, hscalar, hm⟩ := (mem_worker_hits wk).mp hx
  have hscalar : p.cand.secret.scalar = _ := hscalar
  obtain ⟨-, -, -, hk⟩ := hm
  rw [← hscalar] at hk
  exact ⟨hk, hscalar⟩

theorem NaiveCpuEngine.worker_push {h : Host} {patterns : List CompiledPattern} {polls : Nat}
    {p : Push} (hp : p ∈ pushes (worker h patterns polls)) :
    p.Keyed h.baseNoclamp ∧ p.index = 0 := by
  have hx : p.hit ∈ hits (worker h patterns polls) := by
    rw [← pushes_hit]
    exact List.mem_map_of_mem hp
  obtain ⟨-, hi, hscalar, hm⟩ := mem_worker_hits.mp hx
  have hscalar : p.cand.secret.scalar = _ := hscalar
  obtain ⟨-, -, -, hk⟩ := hm
  rw [← hscalar] at hk
  exact ⟨hk, hi⟩

theorem CudaEngine.run_push {h : Host} {cfg : CudaConfig}
    {dev : Device cfg.threads cfg.kStepsPerThread} {depth : Nat} [NeZero depth]
    (hne : ∀ c : Fin depth, c ≠ c + 1) {s : CudaState depth} {p : Push}
    (hp : p ∈ pushes (run h cfg dev s)) : p.Keyed h.baseNoclamp ∧ p.OnWalk h := by
  have hx : p.hit ∈ hits (run h cfg dev s) := by
    rw [← pushes_hit]
    exact List.mem_map_of_mem hp
  obtain ⟨d, -, hx⟩ := (mem_run_hits hne).mp hx
  obtain ⟨hit, -, hs⟩ := mem_launchHits.mp hx
  obtain ⟨hdraw, -, hscalar, -, hk⟩ := slotHit_eq_some.mp hs
  rw [← hdraw] at hscalar
  exact ⟨hk, hscalar⟩

section
variable {n : Nat} {h : Nat → Host} {polls : Nat → Nat} {cfg : EngineConfig} {gpu : CudaConfig}
  {dev : Device gpu.threads gpu.kStepsPerThread} {s : CudaState kPipelineDepth}
  {q : List (Nat × Push)}

/-- what the engines push: keys of their scalars, and scalars of a walk or of a draw of its own -/
theorem Received.push (hq : Received n h polls cfg gpu dev s q) :
    (∀ x ∈ q, x.2.Keyed (h x.1).baseNoclamp) ∧
      ((∀ x ∈ q, x.2.OnWalk (h x.1)) ∨ ∀ x ∈ q, x.2.index = 0) := by
  cases hq with
  | incremental hq =>
    have hp : ∀ x ∈ q, _ := fun x hx =>
      worker_push laneWalks (mem_threadPushes.mp (hq.mem_iff.mp hx)).2
    exact ⟨fun x hx => (hp x hx).1, Or.inl fun x hx => (hp x hx).2⟩
  | incrementalX4 hq =>
    have hp : ∀ x ∈ q, _ := fun x hx =>
      worker_push laneWalksX4 (mem_threadPushes.mp (hq.mem_iff.mp hx)).2
    exact ⟨fun x hx => (hp x hx).1, Or.inl fun x hx => (hp x hx).2⟩
  | naive hq =>
    have hp : ∀ x ∈ q, _ := fun x hx =>
      NaiveCpuEngine.worker_push (mem_threadPushes.mp (hq.mem_iff.mp hx)).2
    exact ⟨fun x hx => (hp x hx).1, Or.inr fun x hx => (hp x hx).2⟩
  | cuda hq =>
    have hp : ∀ x ∈ q, _ := fun x hx =>
      CudaEngine.run_push kPipelineDepth_ne (mem_threadPushes.mp (hq.mem_iff.mp hx)).2
    exact ⟨fun x hx => (hp x hx).1, Or.inl fun x hx => (hp x hx).2⟩

end

/-! ## addresses -/

theorem Push.address_iff {base : Bytes 32 → Option (Bytes 32)} (hrfc : Rfc8032 base) {p p' : Push}
    (hp : p.Keyed base) (hp' : p'.Keyed base) : p.cand.address = p'.cand.address ↔
      p.cand.secret.scalar.toNat % 2^255 ≡ p'.cand.secret.scalar.toNat % 2^255 [MOD kOrder] := by
  rw [MatchCandidate.address, MatchCandidate.address, onionAddressFromPubkey_inj]
  exact key_eq_iff hrfc hp hp'

theorem Push.walk_address {h : Host} (hrfc : Rfc8032 h.baseNoclamp) {p p' : Push}
    (hp : p.Keyed h.baseNoclamp) (hp' : p'.Keyed h.baseNoclamp) (hw : p.OnWalk h)
    (hw' : p'.OnWalk h) (hd : p.draw = p'.draw) (hi : p.index < 2^61) (hi' : p'.index < 2^61)
    (ha : p.cand.address = p'.cand.address) : p.index = p'.index := by
  have hkey := onionAddressFromPubkey_inj.mp ha
  rw [Keyed, hkey, hw, hd] at hp
  rw [Keyed, hw'] at hp'
  exact walk_key_inj hrfc (clamp_toNat _).2.2 hi hi' hp hp'

/-- **Which candidates share an address.**  In every run of an engine, with any interleaving of its
threads: the candidates have distinct addresses exactly when no two of their scalars are congruent
modulo the order of the base point; and two candidates of one walk never are. -/
theorem addresses_iff (n : Nat) (h : Nat → Host) (polls : Nat → Nat) (cfg : EngineConfig)
    (gpu : CudaConfig) (dev : Device gpu.threads gpu.kStepsPerThread)
    (s : CudaState kPipelineDepth) (base : Bytes 32 → Option (Bytes 32)) (hrfc : Rfc8032 base)
    (hbase : ∀ t, (h t).baseNoclamp = base) (q : List (Nat × Push))
    (hq : Received n h polls cfg gpu dev s q) :
    (DistinctAddresses q ↔ ∀ x ∈ q, ∀ y ∈ q, candidateOf x ≠ candidateOf y →
      ¬ x.2.cand.secret.scalar.toNat % 2^255 ≡ y.2.cand.secret.scalar.toNat % 2^255
        [MOD kOrder]) ∧
    ∀ x ∈ q, ∀ y ∈ q, x.1 = y.1 → x.2.draw = y.2.draw → x.2.index < 2^61 → y.2.index < 2^61 →
      x.2.cand.address = y.2.cand.address → x.2.index = y.2.index := by
  obtain ⟨hkeyed, hwalk⟩ := hq.push
  have hkeyed : ∀ x ∈ q, x.2.Keyed base := fun x hx => hbase x.1 ▸ hkeyed x hx
  constructor
  · refine forall₂_congr fun x hx => forall₂_congr fun y hy => imp_congr_right fun _ => ?_
    exact not_congr (Push.address_iff hrfc (hkeyed x hx) (hkeyed y hy))
  · intro x hx y hy ht hd hix hiy ha
    rcases hwalk with hwalk | hzero
    · have hkx := hkeyed x hx
      have hky := hkeyed y hy
      have hwx := hwalk x hx
      rw [← hbase y.1] at hrfc hkx hky
      rw [ht] at hwx
      exact Push.walk_address hrfc hkx hky hwx (hwalk y hy) hd hix hiy ha
    · rw [hzero x hx, hzero y hy]

/-- epochs of four candidates against every letter: equal addresses in an epoch are one candidate -/
theorem addresses_iff_letters :
    let cfg : EngineConfig := ⟨letterPatterns, 4, 4, by decide, by decide⟩
    let q := threadPushes 1 fun _ => pushes (IncrementalCpuEngine.worker (constHost 0) cfg 5)
    ∀ x ∈ q, ∀ y ∈ q, x.2.draw = y.2.draw → x.2.cand.address = y.2.cand.address →
      x.2.index = y.2.index := by
  intro cfg q
  have hq : Received 1 (fun _ => constHost 0) (fun _ => 5) cfg
      ⟨letterPatterns, 8, 4, 16, by decide, by decide⟩ (zeroDevice 8 16) (startCuda 9) q :=
    .incremental (List.Perm.refl _)
  have hrange : ∀ x ∈ q, x.1 = 0 ∧ x.2.index < 2^61 := by
    intro x hx
    obtain ⟨ht, hp⟩ := mem_threadPushes.mp hx
    have hx' : x.2.hit ∈ hits (IncrementalCpuEngine.worker (constHost 0) cfg 5) := by
      rw [← pushes_hit]
      exact List.mem_map_of_mem hp
    obtain ⟨e, -, -, hi, -⟩ := (mem_worker_hits laneWalks).mp hx'
    have hle : cfg.completed e.2 * cfg.batch ≤ 4 := cfg.completed_le e.2
    have hi : x.2.index < 4 := hi.trans_le hle
    exact ⟨Nat.lt_one_iff.mp ht, hi.trans (by norm_num)⟩
  intro x hx y hy hd ha
  exact (addresses_iff 1 _ _ cfg _ _ _ rfcBase rfcBase_rfc8032 (fun _ => rfl) q hq).2 x hx y hy
    ((hrange x hx).1.trans (hrange y hy).1.symm) hd (hrange x hx).2 (hrange y hy).2 ha

end Onion
