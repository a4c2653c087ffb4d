import Onion.Crypto.Order
import Onion.Engine.CudaRuns
import Onion.Io.Verifier

/-!
# What an epoch finds

The stepper returns a `y`, the matcher compares bits, the scalar is built from the index, and
libsodium derives the key: for every candidate the four agree.

* `matchesPubkey_encode`   the sign of `x` does not matter to a pattern;
* `found`                  what the epoch should push for a candidate and the prefixes;
* `epoch_pushes`           an epoch of the scalar engine pushes that, and verification accepts it;
* `matchesPubkey_letter`   a prefix of one letter compares the top of the first byte;
* `spacedHost_matched`     a search whose matches are known.
-/

namespace Onion
open Logged

/-- adding a multiple of `256^(i+1)` leaves byte `i` alone -/
theorem byte_add_high (y m i : Nat) : (y + 256^i * (256 * m)) / 256^i % 256 = y / 256^i % 256 := by
  rw [Nat.add_mul_div_left _ _ (pow_pos (by decide) i), Nat.add_mul_mod_self_left]

theorem matchesPubkey_encode {p : CompiledPattern} (hn : p.nbytes ≤ 31) (P : EdPoint) :
    matchesPubkey p (encodePoint P) = matchesPubkey p (canonBytes P.y) := by
  refine matchesPubkey_congr hn fun i hi => UInt8.toNat_inj.mp ?_
  rw [Bytes.get_toNat, Bytes.get_toNat, encodePoint_toNat, canonBytes_toNat]
  have hpow : 2^255 = 256^i * (256 * 2^(247 - 8 * i)) := by
    rw [show (256 : Nat) = 2^8 from rfl, ← pow_mul, ← pow_add, ← pow_add]
    congr 1
    omega
  rw [hpow, Nat.mul_assoc, Nat.mul_assoc, byte_add_high]

/-- the patterns are the compiled prefixes -/
def Compiled (prefixes : List (List Char)) (patterns : List CompiledPattern) : Prop :=
  List.Forall₂ (fun pre pat => compilePrefix pre = .ok pat) prefixes patterns

theorem Compiled.getElem? {prefixes : List (List Char)} {patterns : List CompiledPattern}
    (h : Compiled prefixes patterns) {p : Nat} {pat : CompiledPattern}
    (hp : patterns[p]? = some pat) : ∃ pre, prefixes[p]? = some pre ∧ compilePrefix pre = .ok pat := by
  induction h generalizing p with
  | nil => simp at hp
  | cons hc _ ih =>
    cases p with
    | zero => exact ⟨_, rfl, by rw [← Option.some.inj hp]; exact hc⟩
    | succ p => exact ih hp

theorem Compiled.pattern {prefixes : List (List Char)} {patterns : List CompiledPattern}
    (h : Compiled prefixes patterns) {p : Nat} {pre : List Char} (hp : prefixes[p]? = some pre) :
    ∃ pat, patterns[p]? = some pat ∧ compilePrefix pre = .ok pat := by
  induction h generalizing p with
  | nil => simp at hp
  | cons hc _ ih =>
    cases p with
    | zero => exact ⟨_, rfl, by rw [← Option.some.inj hp]; exact hc⟩
    | succ p => exact ih hp

/-- no prefix of the list is a prefix of another -/
def PrefixFree (prefixes : List (List Char)) : Prop :=
  prefixes.Pairwise fun a b => ¬ a <+: b ∧ ¬ b <+: a

theorem Compiled.unique {prefixes : List (List Char)} {patterns : List CompiledPattern}
    (h : Compiled prefixes patterns) (hfree : PrefixFree prefixes) {p p' : Nat}
    {pat pat' : CompiledPattern} (hp : patterns[p]? = some pat) (hp' : patterns[p']? = some pat')
    {y : Bytes 32} (hm : matchesPubkey pat y = true) (hm' : matchesPubkey pat' y = true) :
    p = p' := by
  obtain ⟨pre, hpre, hc⟩ := h.getElem? hp
  obtain ⟨pre', hpre', hc'⟩ := h.getElem? hp'
  rw [compilePrefix_matches hc] at hm
  rw [compilePrefix_matches hc'] at hm'
  obtain ⟨hi, rfl⟩ := List.getElem?_eq_some_iff.mp hpre
  obtain ⟨hi', rfl⟩ := List.getElem?_eq_some_iff.mp hpre'
  have hdiff := List.pairwise_iff_getElem.mp hfree
  rcases Nat.lt_trichotomy p p' with hlt | rfl | hlt
  · have hno := hdiff p p' hi hi' hlt
    rcases List.prefix_or_prefix_of_prefix hm hm' with hpp | hpp
    · exact absurd hpp hno.1
    · exact absurd hpp hno.2
  · rfl
  · have hno := hdiff p' p hi' hi hlt
    rcases List.prefix_or_prefix_of_prefix hm hm' with hpp | hpp
    · exact absurd hpp hno.2
    · exact absurd hpp hno.1

def Wanted (base : Bytes 32 → Option (Bytes 32)) (n : Nat) (pre : List Char) : Prop :=
  (base (Bytes.ofNat 32 n)).isSome ∧
    pre <+: (onionAddressFromPubkey (encodePoint (n • basePoint))).view

instance (base : Bytes 32 → Option (Bytes 32)) (n : Nat) (pre : List Char) :
    Decidable (Wanted base n pre) := inferInstanceAs (Decidable (_ ∧ _))

/-- scalar, key and pattern index for every prefix that the address of the scalar `n` starts with -/
def found (base : Bytes 32 → Option (Bytes 32)) (prefixes : List (List Char)) (p n : Nat) :
    List (Nat × Bytes 32 × Nat) :=
  (prefixes.zipIdx p).filterMap fun pre =>
    if Wanted base n pre.1 then some (n, encodePoint (n • basePoint), pre.2) else none

theorem found_cons (base : Bytes 32 → Option (Bytes 32)) (pre : List Char)
    (prefixes : List (List Char)) (p n : Nat) : found base (pre :: prefixes) p n =
      (if Wanted base n pre then [(n, encodePoint (n • basePoint), p)] else []) ++
        found base prefixes (p + 1) n := by
  rw [found, List.zipIdx_cons, List.filterMap_cons]
  dsimp only
  by_cases hw : Wanted base n pre
  · rw [if_pos hw, if_pos hw]
    rfl
  · rw [if_neg hw, if_neg hw]
    rfl

/-- what a hit reports -/
def Hit.report (x : Hit) : Nat × Bytes 32 × Nat := (x.scalar.toNat, x.pubkey, x.pattern)

section
variable {h : Host} (hbase : Rfc8032 h.baseNoclamp)

include hbase in
theorem baseNoclamp_ofNat {n : Nat} (hn : n < 2^255) : h.baseNoclamp (Bytes.ofNat 32 n) =
    if n • basePoint = 0 then none else some (encodePoint (n • basePoint)) := by
  rw [hbase, Bytes.toNat_ofNat, Nat.mod_eq_of_lt (show n < 256^32 by omega), Nat.mod_eq_of_lt hn]

include hbase in
theorem hitsAt_found {prefixes : List (List Char)} {patterns : List CompiledPattern}
    (hc : Compiled prefixes patterns) {draw i : Nat}
    (hlt : (baseScalar h draw).toNat + 8 * i < 2^255) (hi : i < 2^61) (p : Nat) :
    (hitsAt h patterns p (baseScalar h draw) draw i (walkY h draw i)).map Hit.report =
      found h.baseNoclamp prefixes p ((baseScalar h draw).toNat + 8 * i) := by
  have hscalar := scalarAdd8i_exact (baseScalar h draw) hi
  have hkey := baseNoclamp_ofNat hbase hlt
  have hn : (Bytes.ofNat 32 ((baseScalar h draw).toNat + 8 * i)).toNat =
      (baseScalar h draw).toNat + 8 * i := by
    rw [Bytes.toNat_ofNat, Nat.mod_eq_of_lt (show _ < 256^32 by omega)]
  induction hc generalizing p with
  | nil => rfl
  | cons hpre _ ih =>
    rename_i pre pat prefixes patterns _
    have hm : matchesPubkey pat (walkY h draw i) = true ↔ pre <+: (onionAddressFromPubkey
        (encodePoint (((baseScalar h draw).toNat + 8 * i) • basePoint))).view := by
      rw [← compilePrefix_matches hpre, matchesPubkey_encode (compilePrefix_nbytes hpre)]
      rfl
    rw [hitsAt_cons, List.map_append, found_cons, ih (p + 1), hscalar, hkey]
    refine congrArg (· ++ _) ?_
    by_cases h0 : ((baseScalar h draw).toNat + 8 * i) • basePoint = 0
    · rw [if_pos h0] at hkey ⊢
      have hw : ¬ Wanted h.baseNoclamp ((baseScalar h draw).toNat + 8 * i) pre := fun hw => by
        have hs := hw.1
        rw [hkey] at hs
        cases hs
      rw [if_neg hw, Option.map_none, Option.toList_none, ite_self]
      rfl
    · rw [if_neg h0] at hkey ⊢
      have hw : Wanted h.baseNoclamp ((baseScalar h draw).toNat + 8 * i) pre ↔
          matchesPubkey pat (walkY h draw i) = true := by
        rw [Wanted, hkey, hm]
        exact and_iff_right rfl
      by_cases hp : matchesPubkey pat (walkY h draw i) = true
      · rw [if_pos hp, if_pos (hw.mpr hp), Option.map_some, Option.toList_some, List.map_singleton,
          Hit.report, hn]
      · rw [if_neg hp, if_neg (hw.not.mpr hp)]
        rfl

end

/-! ## an epoch of the scalar engine -/

theorem range_mul_flatMap {β : Type} (d n : Nat) (g : Nat → List β) :
    ((List.range d).flatMap fun b => (List.range n).flatMap fun k => g (b * n + k)) =
      (List.range (d * n)).flatMap g := by
  induction d with
  | zero => rw [Nat.zero_mul]; rfl
  | succ d ih =>
    rw [List.range_succ, List.flatMap_append, List.flatMap_singleton, ih, Nat.succ_mul,
      List.range_add, List.flatMap_append, List.flatMap_map]

/-- with one lane, the hits come in the order of the candidates -/
theorem epochHits_one (h : Host) (cfg : EngineConfig) (rng n : Nat) (hn : n * cfg.batch ≤ 2^64) :
    epochHits h cfg 1 rng n = (List.range (n * cfg.batch)).flatMap fun i =>
      hitsAt h cfg.patterns 0 (baseScalar h rng) rng i (walkY h rng i) := by
  have hone : ∀ c, batchHits h cfg.patterns (baseScalars h 1 rng) rng c cfg.batch =
      (List.range cfg.batch).flatMap fun k => hitsAt h cfg.patterns 0 (baseScalar h rng) rng
        ((c + k) % 2^64) (walkY h rng (c + k)) := fun c => by
    have hl : List.finRange 1 = [0] := rfl
    rw [batchHits, hl, List.flatMap_singleton, baseScalars_get, baseScalar_mod]
    rfl
  have hmul : epochHits h cfg 1 rng n = (List.range (n * cfg.batch)).flatMap fun i =>
      hitsAt h cfg.patterns 0 (baseScalar h rng) rng (i % 2^64) (walkY h rng i) := by
    rw [epochHits, ← range_mul_flatMap]
    exact List.flatMap_congr fun b _ => hone _
  rw [hmul]
  refine List.flatMap_congr fun i hi => ?_
  have hi := List.mem_range.mp hi
  rw [Nat.mod_eq_of_lt (hi.trans_le hn)]

/-- a match of an exact scalar passes verification -/
theorem verify_matched {h : Host} (hbase : Rfc8032 h.baseNoclamp) {prefixes : List (List Char)}
    {patterns : List CompiledPattern} (hc : Compiled prefixes patterns) {q : Push}
    (hq : Matched h patterns q.draw q.index q.cand.patternIndex q.cand.claimedPubkey)
    (hs : q.cand.secret.scalar = scalarAdd8i (baseScalar h q.draw) q.index)
    (hlt : (baseScalar h q.draw).toNat + 8 * q.index < 2^255) (hi : q.index < 2^61) :
    ∃ r, verify h.baseNoclamp q.cand patterns = .ok r := by
  obtain ⟨pat, hp, hm, hk⟩ := hq
  obtain ⟨pre, -, hpre⟩ := hc.getElem? hp
  have hkey : q.cand.claimedPubkey =
      encodePoint (((baseScalar h q.draw).toNat + 8 * q.index) • basePoint) := by
    rw [scalarAdd8i_exact _ hi, baseNoclamp_ofNat hbase hlt] at hk
    split at hk
    · cases hk
    · exact (Option.some.inj hk).symm
  have hfull : matchesPubkey pat q.cand.claimedPubkey = true := by
    rw [hkey, matchesPubkey_encode (compilePrefix_nbytes hpre)]
    exact hm
  have haddr := (compilePrefix_matches hpre _).mp hfull
  obtain ⟨-, -, -, -, hpp, -⟩ := compilePrefix_eq_ok hpre
  rw [← hpp] at haddr
  exact ⟨_, verify_eq_ok.mpr ⟨hs ▸ hk, ⟨pat, hp, hfull, haddr⟩, rfl⟩⟩

/-- **An epoch finds exactly the wanted candidates.**  For every completed candidate, in order, and
every prefix that its address starts with, one push of the scalar, its key and the index of the
prefix; and verification accepts every push. -/
theorem epoch_pushes (h : Host) (hbase : Rfc8032 h.baseNoclamp) (cfg : EngineConfig)
    (prefixes : List (List Char)) (hc : Compiled prefixes cfg.patterns)
    (s : WorkerState (List (Bytes 32))) (hs : Settled laneOps cfg s)
    (hlt : ∀ i < cfg.epochCandidates / cfg.batch * cfg.batch,
      i < 2^61 ∧ (baseScalar h s.rng).toNat + 8 * i < 2^255) :
    (pushes (IncrementalCpuEngine.epoch h cfg s)).map (fun q =>
        (q.cand.secret.scalar.toNat, q.cand.claimedPubkey, q.cand.patternIndex)) =
      ((List.range (min (cfg.epochCandidates / cfg.batch) s.polls * cfg.batch)).flatMap fun i =>
        found h.baseNoclamp prefixes 0 ((baseScalar h s.rng).toNat + 8 * i)) ∧
    ∀ q ∈ pushes (IncrementalCpuEngine.epoch h cfg s),
      ∃ r, verify h.baseNoclamp q.cand cfg.patterns = .ok r := by
  have hn : cfg.completed s.polls * cfg.batch ≤ cfg.epochCandidates / cfg.batch * cfg.batch :=
    Nat.mul_le_mul_right _ (min_le_left _ _)
  have hn64 : cfg.completed s.polls * cfg.batch ≤ 2^64 :=
    (cfg.completed_le s.polls).trans cfg.epoch_lt.le
  have hhits := epoch_hits (h := h) laneWalks hs
  constructor
  · have hmap : (pushes (IncrementalCpuEngine.epoch h cfg s)).map (fun q =>
        (q.cand.secret.scalar.toNat, q.cand.claimedPubkey, q.cand.patternIndex)) =
        (hits (IncrementalCpuEngine.epoch h cfg s)).map Hit.report := by
      rw [← pushes_hit, List.map_map]
      rfl
    rw [hmap, IncrementalCpuEngine.epoch, hhits, epochHits_one h cfg _ _ hn64, List.map_flatMap]
    refine List.flatMap_congr fun i hi => ?_
    obtain ⟨hi61, hi255⟩ := hlt i ((List.mem_range.mp hi).trans_le hn)
    exact hitsAt_found hbase hc hi255 hi61 0
  · intro q hq
    have hx : q.hit ∈ hits (IncrementalCpuEngine.epoch h cfg s) := by
      rw [← pushes_hit]
      exact List.mem_map_of_mem hq
    rw [IncrementalCpuEngine.epoch, hhits, mem_epochHits hn64] at hx
    obtain ⟨hd, hi, hscalar, hm⟩ := hx
    have hdraw : q.draw = s.rng := Nat.le_antisymm (Nat.lt_succ_iff.mp hd.2) hd.1
    obtain ⟨hi61, hi255⟩ := hlt q.index (hi.trans_le hn)
    rw [← hdraw] at hi255
    exact verify_matched hbase hc hm hscalar hi255 hi61

/-! ## a host and a search -/

/-- `base_noclamp` as documented -/
def rfcBase (s : Bytes 32) : Option (Bytes 32) :=
  if (s.toNat % 2^255) • basePoint = 0 then none
  else some (encodePoint ((s.toNat % 2^255) • basePoint))

theorem rfcBase_rfc8032 : Rfc8032 rfcBase := fun _ => rfl

def constHost (b : UInt8) : Host where
  rand _ := Bytes.ofList (List.replicate 32 b) List.length_replicate
  baseNoclamp := rfcBase
  sha512 _ := Bytes.ofNat 64 0

def letters : List (List Char) := kBase32Alphabet.map fun c => [c]

def letterPatterns : List CompiledPattern := letters.filterMap fun pre => (compilePrefix pre).toOption

theorem compiled_filterMap {l : List (List Char)} (hl : ∀ pre ∈ l, ∃ p, compilePrefix pre = .ok p) :
    Compiled l (l.filterMap fun pre => (compilePrefix pre).toOption) := by
  induction l with
  | nil => exact List.Forall₂.nil
  | cons pre l ih =>
    obtain ⟨p, hp⟩ := hl pre (by simp)
    have e : (compilePrefix pre).toOption = some p := by rw [hp]; rfl
    rw [List.filterMap_cons, e]
    exact List.Forall₂.cons hp (ih fun q hq => hl q (List.mem_cons_of_mem _ hq))

theorem letter_compiles {c : Char} (hc : c ∈ kBase32Alphabet) : ∃ p, compilePrefix [c] = .ok p := by
  refine compilePrefix_isOk.mpr ⟨le_rfl, (by decide : 1 ≤ 49), fun x hx => ?_⟩
  rwa [List.mem_singleton.mp hx]

theorem letters_compiled : Compiled letters letterPatterns := by
  refine compiled_filterMap fun pre hpre => ?_
  obtain ⟨c, hc, rfl⟩ := List.mem_map.mp hpre
  exact letter_compiles hc

/-- a prefix of one letter compares the top of the first byte -/
theorem matchesPubkey_letter {c : Char} {pat : CompiledPattern} (hc : compilePrefix [c] = .ok pat)
    (y : Bytes 32) :
    matchesPubkey pat y = true ↔ kBase32Alphabet[(y.get 0).toNat / 8]? = some c := by
  have hletter : c ∈ kBase32Alphabet := (compilePrefix_isOk.mp ⟨pat, hc⟩).2.2 c (by simp)
  obtain ⟨i, hi⟩ := List.mem_iff_getElem?.mp hletter
  have hlt : i < 32 := (List.getElem?_eq_some_iff.mp hi).1
  have hdigit : digit i = c := by
    rw [digit, List.getD_eq_getElem?_getD, hi]
    rfl
  have hpat : ∀ i < 32, ∀ pat ∈ (compilePrefix [digit i]).toOption,
      pat.nbytes = 1 ∧ pat.mask.get 0 = 0xf8 ∧ (pat.bytes.get 0).toNat = 8 * i := by decide
  obtain ⟨hn, hmask, hbytes⟩ := hpat i hlt pat (by rw [hdigit, hc]; rfl)
  have hand : ∀ b < 256, b &&& 0xf8 = 8 * (b / 8) := by decide +kernel
  have htop : (y.get 0 &&& 0xf8).toNat = 8 * ((y.get 0).toNat / 8) := by
    rw [UInt8.toNat_and]
    exact hand _ (y.get 0).toNat_lt
  have hall : matchesPubkey pat y = true ↔ y.get 0 &&& 0xf8 = pat.bytes.get 0 := by
    rw [matchesPubkey, hn, List.all_eq_true]
    simp [hmask]
  have hnodup : kBase32Alphabet.Nodup := by decide
  have hb : (y.get 0).toNat / 8 < kBase32Alphabet.length := by
    have h := (y.get 0).toNat_lt
    show _ < 32
    omega
  rw [hall, ← UInt8.toNat_inj, htop, hbytes, ← hi, List.getElem?_inj hb hnodup]
  omega

/-- every address starts with a letter -/
theorem letter_starts (pk : Bytes 32) : ∃ pre ∈ letters, pre <+: (onionAddressFromPubkey pk).view := by
  have ha := (onionAddressFromPubkey_spells pk).alphabet
  have hl := (onionAddressFromPubkey pk).length_eq
  rw [show (onionAddressFromPubkey pk).chars = (onionAddressFromPubkey pk).view from rfl] at hl
  generalize (onionAddressFromPubkey pk).view = v at ha hl
  cases v with
  | nil => cases hl
  | cons c v =>
    exact ⟨[c], List.mem_map_of_mem (ha c (by simp)), v, rfl⟩

/-- every key matches a letter -/
theorem letter_matched {h : Host} {draw i : Nat} {pk : Bytes 32}
    (hk : h.baseNoclamp (scalarAdd8i (baseScalar h draw) i) = some pk) :
    ∃ p, Matched h letterPatterns draw i p pk := by
  obtain ⟨pre, hpre, haddr⟩ := letter_starts (encodePoint (walkPoint (baseScalar h draw).toNat i))
  obtain ⟨p, hp⟩ := List.mem_iff_getElem?.mp hpre
  obtain ⟨pat, hpat, hc⟩ := letters_compiled.pattern hp
  refine ⟨p, pat, hpat, ?_, hk⟩
  rw [← compilePrefix_matches hc, matchesPubkey_encode (compilePrefix_nbytes hc)] at haddr
  exact haddr

/-- of two neighbours in a walk, one has a public key -/
theorem neighbour_ne_zero (n : Nat) : n • basePoint ≠ 0 ∨ (n + 8) • basePoint ≠ 0 := by
  by_contra hc
  push Not at hc
  obtain ⟨h0, h1⟩ := hc
  rw [add_smul, h0, zero_add] at h1
  exact eight_smul_basePoint h1

theorem baseScalar_zero (draw : Nat) : (baseScalar (constHost 0) draw).toNat = 2^254 :=
  (by decide : (clamp (Bytes.ofList (n := 32) (List.replicate 32 0) List.length_replicate)).toNat =
    2^254)

theorem key_of_zero {draw i : Nat} (hi : i < 2^61) (hne : (2^254 + 8 * i) • basePoint ≠ 0) :
    (constHost 0).baseNoclamp (scalarAdd8i (baseScalar (constHost 0) draw) i) =
      some (encodePoint ((2^254 + 8 * i) • basePoint)) := by
  rw [scalarAdd8i_exact _ hi, baseScalar_zero,
    baseNoclamp_ofNat rfcBase_rfc8032 (show 2^254 + 8 * i < 2^255 by omega), if_neg hne]

def startState (n polls : Nat) : WorkerState (List (Bytes 32)) :=
  ⟨List.replicate n (Bytes.ofNat 32 0), 0, polls, 0, 0⟩

/-- an epoch of four candidates in two batches, against every letter -/
theorem epoch_pushes_letters :
    let cfg : EngineConfig := ⟨letterPatterns, 2, 4, by decide, by decide⟩
    let s := startState 2 5
    let h := constHost 0
    (pushes (IncrementalCpuEngine.epoch h cfg s)).map (fun q =>
        (q.cand.secret.scalar.toNat, q.cand.claimedPubkey, q.cand.patternIndex)) =
      ((List.range (min (cfg.epochCandidates / cfg.batch) s.polls * cfg.batch)).flatMap fun i =>
        found h.baseNoclamp letters 0 ((baseScalar h s.rng).toNat + 8 * i)) ∧
    ∀ q ∈ pushes (IncrementalCpuEngine.epoch h cfg s),
      ∃ r, verify h.baseNoclamp q.cand cfg.patterns = .ok r := by
  intro cfg s h
  refine epoch_pushes h rfcBase_rfc8032 cfg letters letters_compiled s
    (initial_settled laneWalks cfg 5) fun i hi => ?_
  have hn : cfg.epochCandidates / cfg.batch * cfg.batch = 4 := by decide
  rw [hn] at hi
  rw [baseScalar_zero]
  omega

/-- the index is multiplied by 8 in 64 bits: an epoch longer than `2^61` starts over -/
theorem epoch_index_wraps :
    let cfg : EngineConfig := ⟨letterPatterns, 2^20, 2^62, by decide, by decide⟩
    let s := startState (2^20) (2^62)
    let h := constHost 0
    Rfc8032 h.baseNoclamp ∧ Compiled letters cfg.patterns ∧ Settled laneOps cfg s ∧
    (1 ≤ cfg.batch ∧ cfg.batch ≤ cfg.epochCandidates) ∧
    (∀ i < cfg.epochCandidates / cfg.batch * cfg.batch,
      (baseScalar h s.rng).toNat + 8 * i < 2^255) ∧
    (pushes (IncrementalCpuEngine.epoch h cfg s)).map (fun q =>
        (q.cand.secret.scalar.toNat, q.cand.claimedPubkey, q.cand.patternIndex)) ≠
      ((List.range (min (cfg.epochCandidates / cfg.batch) s.polls * cfg.batch)).flatMap fun i =>
        found h.baseNoclamp letters 0 ((baseScalar h s.rng).toNat + 8 * i)) := by
  intro cfg s h
  have hs : Settled laneOps cfg s := initial_settled laneWalks cfg (2^62)
  have hn : cfg.epochCandidates / cfg.batch * cfg.batch = 2^62 := by decide
  refine ⟨rfcBase_rfc8032, letters_compiled, hs, by decide, fun i hi => ?_, fun heq => ?_⟩
  · rw [hn] at hi
    rw [baseScalar_zero]
    omega
  -- two neighbours past `2^61`: not both multiples of the base point vanish
  have hsome : ∃ i < 2^62, 2^61 ≤ i ∧ (2^254 + 8 * i) • basePoint ≠ 0 := by
    rcases neighbour_ne_zero (2^254 + 8 * 2^61) with hne | hne
    · exact ⟨2^61, by norm_num, le_rfl, hne⟩
    · rw [show 2^254 + 8 * 2^61 + 8 = 2^254 + 8 * (2^61 + 1) by norm_num] at hne
      exact ⟨2^61 + 1, by norm_num, by norm_num, hne⟩
  obtain ⟨i, hi, hi61, hne⟩ := hsome
  have hkey := baseNoclamp_ofNat (h := h) rfcBase_rfc8032 (n := 2^254 + 8 * i) (by omega)
  rw [if_neg hne] at hkey
  obtain ⟨pre, hpre, haddr⟩ := letter_starts (encodePoint ((2^254 + 8 * i) • basePoint))
  obtain ⟨p, hp⟩ := List.mem_iff_getElem?.mp hpre
  have hfound : (2^254 + 8 * i, encodePoint ((2^254 + 8 * i) • basePoint), p) ∈
      found h.baseNoclamp letters 0 (2^254 + 8 * i) := by
    refine List.mem_filterMap.mpr ⟨(pre, p), List.mem_zipIdx_iff_getElem?.mpr hp, ?_⟩
    exact if_pos ⟨by rw [hkey]; rfl, haddr⟩
  have hmem : (2^254 + 8 * i, encodePoint ((2^254 + 8 * i) • basePoint), p) ∈
      (pushes (IncrementalCpuEngine.epoch h cfg s)).map (fun q =>
        (q.cand.secret.scalar.toNat, q.cand.claimedPubkey, q.cand.patternIndex)) := by
    have hpolls : min (cfg.epochCandidates / cfg.batch) s.polls * cfg.batch = 2^62 := by decide
    rw [heq, hpolls]
    refine List.mem_flatMap.mpr ⟨i, List.mem_range.mpr hi, ?_⟩
    rw [baseScalar_zero]
    exact hfound
  obtain ⟨q, hq, hscalar⟩ := List.mem_map.mp hmem
  have hx : q.hit ∈ hits (IncrementalCpuEngine.epoch h cfg s) := by
    rw [← pushes_hit]
    exact List.mem_map_of_mem hq
  have hn64 : cfg.completed s.polls * cfg.batch ≤ 2^64 :=
    (cfg.completed_le s.polls).trans cfg.epoch_lt.le
  rw [IncrementalCpuEngine.epoch, epoch_hits laneWalks hs, mem_epochHits hn64] at hx
  have hs8 : q.cand.secret.scalar = scalarAdd8i (baseScalar h q.draw) q.index := hx.2.2.1
  have hval := congrArg Bytes.toNat hs8
  rw [scalarAdd8i_toNat, baseScalar_zero, (Prod.mk.inj hscalar).1] at hval
  omega

/-! ## a search whose matches are known -/

/-- the first letter of the address of a multiple of the base point -/
def letterOf (n : Nat) : Option Char := kBase32Alphabet[multipleY n % 256 / 8]?

/-- the letters of the candidates of sixteen walks, four each -/
def spacedLetters : List Char :=
  "f7hxcbwsokecpzbllpn7ac5lxaczsqtkmjopue5l6tuckvpyqcrakmjrfv736meu".toList

theorem letterOf_spaced : ∀ m < 16, ∀ i < 4,
    letterOf (4 + 64 * m + 8 * i) = spacedLetters[4 * m + i]? := by
  decide +kernel

/-- the prefixes of a search -/
def searchLetters : List (List Char) := "fwozn5yr".toList.map fun c => [c]

def searchPatterns : List CompiledPattern :=
  searchLetters.filterMap fun pre => (compilePrefix pre).toOption

theorem search_compiled : Compiled searchLetters searchPatterns := by
  refine compiled_filterMap fun pre hpre => ?_
  obtain ⟨c, hc, rfl⟩ := List.mem_map.mp hpre
  have hsub : "fwozn5yr".toList ⊆ kBase32Alphabet := by decide
  exact letter_compiles (hsub hc)

theorem search_free : PrefixFree searchLetters := by
  rw [PrefixFree]
  decide

/-- epochs of four candidates in two batches -/
def searchConfig : EngineConfig := ⟨searchPatterns, 2, 4, by decide, by decide⟩

/-- candidate `i` of draw `n` of thread `t` has the key of `4 + 64*(8*t + min n 7) + 8*i`, for the
first two threads; an expanded seed is the seed -/
def spacedHost (t : Nat) : Host where
  rand n := Bytes.ofNat 32 (4 * kOrder + (4 + 64 * (8 * t + min n 7)))
  baseNoclamp := rfcBase
  sha512 b := Bytes.ofList (b.1 ++ List.replicate 32 0) (by simp [b.2])

theorem baseScalar_spaced {t : Nat} (ht : t < 2) (draw : Nat) :
    (baseScalar (spacedHost t) draw).toNat = 4 * kOrder + (4 + 64 * (8 * t + min draw 7)) := by
  have h : ∀ m < 16, (clamp (Bytes.ofNat 32 (4 * kOrder + (4 + 64 * m)))).toNat =
      4 * kOrder + (4 + 64 * m) := by decide +kernel
  exact h _ (by omega)

theorem spaced_range {t draw i : Nat} (ht : t < 2) (hi : i < 2^61) :
    (baseScalar (spacedHost t) draw).toNat + 8 * i < 2^255 := by
  rw [baseScalar_spaced ht, kOrder]
  omega

/-- the match of each walk: the candidate, and the pattern -/
def spacedMatches : List (Option (Nat × Nat)) :=
  [(0, 0), (2, 1), (0, 2), (1, 3), (2, 4), (2, 5), (3, 3)].map some ++ [none] ++
    [(2, 2), (2, 5)].map some ++ [none] ++ [(3, 6), (2, 7), (3, 7), (0, 0)].map some ++ [none]

theorem spacedMatches_eq : ∀ k < 64, ∀ p < 8,
    spacedLetters[k]?.map (fun c => [c]) = searchLetters[p]? ↔
      spacedMatches[k / 4]? = some (some (k % 4, p)) := by
  decide +kernel

/-- the candidates of a spaced walk are small multiples of the base point -/
theorem spaced_point {t : Nat} (ht : t < 2) (draw i : Nat) :
    ((baseScalar (spacedHost t) draw).toNat + 8 * i) • basePoint =
      (4 + 64 * (8 * t + min draw 7) + 8 * i) • basePoint := by
  rw [baseScalar_spaced ht, Nat.add_assoc, add_smul, mul_smul, order_smul, smul_zero, zero_add]

theorem spaced_letter {t : Nat} (ht : t < 2) (draw i : Nat) :
    kBase32Alphabet[((walkY (spacedHost t) draw i).get 0).toNat / 8]? =
      letterOf (4 + 64 * (8 * t + min draw 7) + 8 * i) := by
  have hbyte : ((walkY (spacedHost t) draw i).get 0).toNat =
      multipleY (4 + 64 * (8 * t + min draw 7) + 8 * i) % 256 := by
    rw [walkY, walkPoint, spaced_point ht, Bytes.get_toNat, canonBytes_toNat, pow_zero, Nat.div_one,
      smul_basePoint_y]
  rw [hbyte, letterOf]

theorem spaced_key {t draw i : Nat} (ht : t < 2) (hi : i < 4) :
    (spacedHost t).baseNoclamp (scalarAdd8i (baseScalar (spacedHost t) draw) i) =
      some (encodePoint ((4 + 64 * (8 * t + min draw 7) + 8 * i) • basePoint)) := by
  have hne : (4 + 64 * (8 * t + min draw 7) + 8 * i) • basePoint ≠ 0 := fun h => by
    have hdvd := Nat.le_of_dvd (by omega) (smul_basePoint_eq_zero_iff.mp h)
    rw [kOrder] at hdvd
    omega
  rw [scalarAdd8i_exact _ (hi.trans (by norm_num)), baseNoclamp_ofNat rfcBase_rfc8032
    (spaced_range ht (hi.trans (by norm_num))), spaced_point ht, if_neg hne]

/-- **What the search matches**: the known match of each walk -/
theorem spacedHost_matched {t draw i p : Nat} (ht : t < 2) (hi : i < 4) :
    (∃ pk, Matched (spacedHost t) searchPatterns draw i p pk) ↔
      spacedMatches[8 * t + min draw 7]? = some (some (i, p)) := by
  have hm : 8 * t + min draw 7 < 16 := by omega
  have hletter := letterOf_spaced _ hm i hi
  rw [← spaced_letter ht] at hletter
  have hmatch := spacedMatches_eq (4 * (8 * t + min draw 7) + i) (by omega)
  rw [show (4 * (8 * t + min draw 7) + i) / 4 = 8 * t + min draw 7 by omega,
    show (4 * (8 * t + min draw 7) + i) % 4 = i by omega, ← hletter] at hmatch
  constructor
  · rintro ⟨pk, pat, hp, hy, -⟩
    obtain ⟨pre, hpre, hc⟩ := search_compiled.getElem? hp
    have hp8 : p < 8 := (List.getElem?_eq_some_iff.mp hpre).1
    obtain ⟨c, -, rfl⟩ := List.mem_map.mp (List.mem_of_getElem? hpre)
    rw [matchesPubkey_letter hc] at hy
    refine (hmatch p hp8).mp ?_
    rw [hy, hpre]
    rfl
  · intro h
    have hp8 : p < 8 := by
      have hall : ∀ x ∈ spacedMatches, ∀ y ∈ x, y.2 < 8 := by decide
      exact hall _ (List.mem_of_getElem? h) _ rfl
    have hpre := (hmatch p hp8).mpr h
    have hlt : p < searchLetters.length := hp8
    rw [List.getElem?_eq_getElem hlt, Option.map_eq_some_iff] at hpre
    obtain ⟨c, hc, hpre⟩ := hpre
    obtain ⟨pat, hp, hpat⟩ := search_compiled.pattern (List.getElem?_eq_getElem hlt)
    rw [← hpre] at hpat
    exact ⟨_, pat, hp, (matchesPubkey_letter hpat _).mpr hc, spaced_key ht hi⟩

theorem spaced_first : ∃ pk, Matched (spacedHost 0) searchPatterns 0 0 0 pk :=
  (spacedHost_matched Nat.two_pos (by decide)).mpr rfl

theorem pushes_of_mem {α : Type} {r : Worker α} {x : Hit} (hx : x ∈ hits r) :
    ∃ p rest, pushes r = p :: rest := by
  refine List.exists_cons_of_ne_nil fun hnil => ?_
  rw [← pushes_hit, hnil] at hx
  cases hx

theorem spaced_walk {t : Nat} (ht : t < 2) :
    ∃ i < 4, ∃ p pk, Matched (spacedHost t) searchPatterns 0 i p pk := by
  have hfirst : ∀ t < 2, ∃ i < 4, ∃ p < 8, spacedMatches[8 * t + min 0 7]? = some (some (i, p)) := by
    decide
  obtain ⟨i, hi, p, -, h⟩ := hfirst t ht
  obtain ⟨pk, hm⟩ := (spacedHost_matched ht hi).mpr h
  exact ⟨i, hi, p, pk, hm⟩

theorem spaced_worker_pushes {lanes : Nat} {S O : Type} {ops : LaneOps lanes S O} (wk : Walks ops)
    (hlanes : 0 < lanes) {cfg : EngineConfig} (hp : cfg.patterns = searchPatterns) {t polls : Nat}
    (ht : t < 2) (hpos : 4 ≤ cfg.completed polls * cfg.batch) :
    ∃ p rest, pushes (worker ops (spacedHost t) cfg (polls + 1)) = p :: rest := by
  obtain ⟨i, hi, p, pk, hm⟩ := spaced_walk ht
  rw [← hp] at hm
  exact pushes_of_mem ((mem_worker_hits wk
    (x := ⟨0, i, scalarAdd8i (baseScalar (spacedHost t) 0) i, pk, p⟩)).mpr
      ⟨_, first_epoch polls, ⟨le_rfl, (Nat.zero_add lanes).symm ▸ hlanes⟩, hi.trans_le hpos, rfl, hm⟩)

/-- a device whose calls succeed, and whose every candidate has the `y` zero -/
def zeroDevice (T M : Nat) : Device T M where
  ok _ := true
  y _ _ _ _ := Bytes.ofNat 32 0
  order _ := candidates T M
  order_perm _ := List.Perm.refl _

def startCuda (polls : Nat) : CudaState kPipelineDepth :=
  let zero : Fe := ⟨0, 0, 0, 0, 0⟩
  let slot : PipelineSlot := ⟨0, 0, Bytes.ofNat 32 0, 0, [], ⟨zero, zero, zero⟩,
    ⟨0, Vector.replicate _ ⟨0, 0, 0⟩⟩⟩
  ⟨0, polls, 0, Vector.replicate _ slot, 0, 0, 0, 0, 0⟩

/-- launches of four candidates on two threads -/
def searchGpu : CudaConfig := ⟨searchPatterns, 2, 2, 2, by decide, by decide⟩

end Onion
