import Onion.Cli.Main
import Onion.Lib.BitCount
import Onion.Lib.Rfc4648

/-!
# `main.cpp`: the tries per match it announces

Before a search `main` prints `32^shortest`, from the length of the shortest prefix.  Here the
byte strings that match are counted.

* `byteBits_bijOn`        a string of 32 bytes is a string of 256 bits;
* `ncard_matches`         one prefix of `n` characters is matched by one string in `32^n`;
* `ncard_matching_free`   the counts of prefixes that do not extend each other add up;
* `announced_tries`       the number announced is right for one prefix, and at most as many times
                          too large as there are prefixes.
-/

namespace Onion

/-- the length of the shortest prefix, `SIZE_MAX` before the first -/
def shortest (prefixes : List (List Char)) : Nat :=
  prefixes.foldl (fun shortest p => min shortest p.length) (2^64 - 1)

/-- `pow(32.0, shortest)`: a power of two below `2^1024`, so the `double` is exact -/
def expectedTries (prefixes : List (List Char)) : Nat := 32^shortest prefixes

/-- the strings of 32 bytes that a search for the patterns accepts -/
def matching (patterns : List CompiledPattern) : Set (Bytes 32) :=
  { a | ∃ p ∈ patterns, matchesPubkey p a = true }

/-! ## the shortest prefix -/

theorem foldl_min_le (prefixes : List (List Char)) (s : Nat) :
    prefixes.foldl (fun s p => min s p.length) s ≤ s ∧
      ∀ p ∈ prefixes, prefixes.foldl (fun s p => min s p.length) s ≤ p.length := by
  induction prefixes generalizing s with
  | nil => exact ⟨le_rfl, by simp⟩
  | cons p prefixes ih =>
    obtain ⟨hs, hp⟩ := ih (min s p.length)
    rw [List.foldl_cons]
    refine ⟨hs.trans (min_le_left _ _), fun q hq => ?_⟩
    rcases List.mem_cons.mp hq with rfl | hq
    · exact hs.trans (min_le_right _ _)
    · exact hp q hq

theorem foldl_min_mem (prefixes : List (List Char)) (s : Nat) :
    prefixes.foldl (fun s p => min s p.length) s = s ∨
      ∃ p ∈ prefixes, prefixes.foldl (fun s p => min s p.length) s = p.length := by
  induction prefixes generalizing s with
  | nil => exact Or.inl rfl
  | cons p prefixes ih =>
    rw [List.foldl_cons]
    rcases ih (min s p.length) with h | ⟨q, hq, h⟩
    · rcases min_choice s p.length with e | e
      · exact Or.inl (h.trans e)
      · exact Or.inr ⟨p, by simp, h.trans e⟩
    · exact Or.inr ⟨q, by simp [hq], h⟩

theorem shortest_spec {prefixes : List (List Char)} (hne : prefixes ≠ [])
    (h64 : ∀ p ∈ prefixes, p.length < 2^64 - 1) :
    (∃ p ∈ prefixes, shortest prefixes = p.length) ∧ ∀ p ∈ prefixes, shortest prefixes ≤ p.length := by
  have hle := (foldl_min_le prefixes (2^64 - 1)).2
  refine ⟨?_, hle⟩
  rcases foldl_min_mem prefixes (2^64 - 1) with h | h
  · obtain ⟨p, hp⟩ := List.exists_mem_of_ne_nil _ hne
    have hlt := h64 p hp
    have := hle p hp
    omega
  · exact h

example : expectedTries ["abc".toList, "q7".toList] = 1024 := by decide

/-! ## one prefix -/

theorem byteBits_injective : Function.Injective fun a : Bytes 32 => byteBits a.1 := by
  intro a b h
  have hlt : ∀ c : Bytes 32, ∀ x ∈ c.1.map UInt8.toNat, x < 2^8 := by
    intro c x hx
    obtain ⟨d, -, rfl⟩ := List.mem_map.mp hx
    exact d.toNat_lt
  have hbits : byteBits a.1 <+: byteBits b.1 := by rw [show byteBits a.1 = byteBits b.1 from h]
  have hp := (stream_prefix_iff (by decide) (hlt a) (hlt b)).mp hbits
  have he := hp.eq_of_length (by rw [List.length_map, List.length_map, a.2, b.2])
  exact Subtype.ext (List.map_injective_iff.mpr (fun _ _ => UInt8.toNat_inj.mp) he)

/-- every string of 256 bits is the bits of 32 bytes -/
theorem exists_byteBits {m : List Bool} (hm : m.length = 256) : ∃ a : Bytes 32, byteBits a.1 = m := by
  obtain ⟨k, hk, hs⟩ := Rfc4648.symbols_stream (w := 8) (by decide) m
  have hlen := congrArg List.length hs
  rw [stream_length, List.length_append, List.length_replicate, hm] at hlen
  obtain rfl : k = 0 := by omega
  have hmap : ((Rfc4648.symbols 8 m).map UInt8.ofNat).map UInt8.toNat = Rfc4648.symbols 8 m := by
    rw [List.map_map]
    refine (List.map_congr_left fun d hd => ?_).trans (List.map_id _)
    exact UInt8.toNat_ofNat_of_lt' (Rfc4648.symbols_lt hd)
  refine ⟨⟨(Rfc4648.symbols 8 m).map UInt8.ofNat, by rw [List.length_map]; omega⟩, ?_⟩
  rw [byteBits, hmap, hs, List.replicate_zero, List.append_nil]

theorem byteBits_bijOn (l : List Bool) :
    Set.BijOn (fun a : Bytes 32 => byteBits a.1) { a | l <+: byteBits a.1 }
      { m | m.length = 256 ∧ l <+: m } := by
  refine ⟨fun a ha => ⟨by rw [byteBits_length, a.2], ha⟩, byteBits_injective.injOn, ?_⟩
  rintro m ⟨hm, hl⟩
  obtain ⟨a, rfl⟩ := exists_byteBits hm
  exact ⟨a, hl, rfl⟩

theorem card_bytes : Nat.card (Bytes 32) = 2^256 := by
  have h := (byteBits_bijOn []).ncard_eq
  rw [ncard_extensions (Nat.zero_le 256)] at h
  simpa using h

instance : Finite (Bytes 32) := Nat.finite_of_card_ne_zero <| by
  rw [card_bytes]
  exact (Nat.two_pow_pos 256).ne'

/-- a prefix of `n` characters fixes `5*n` of the 256 bits -/
theorem ncard_matches {pre : List Char} {p : CompiledPattern} (h : compilePrefix pre = .ok p) :
    { a : Bytes 32 | matchesPubkey p a = true }.ncard = 2^(256 - 5 * pre.length) := by
  obtain ⟨l, hl, hm, hn, -, -, h49⟩ := compilePrefix_eq_ok h
  have hll := hl.length_eq
  have hset : { a : Bytes 32 | matchesPubkey p a = true } = { a | l <+: byteBits a.1 } :=
    Set.ext fun _ => matchesPubkey_iff hm (by omega) (by omega)
  rw [hset, (byteBits_bijOn l).ncard_eq, ncard_extensions (by omega), hll]

theorem pow_mul_ncard_matches {pre : List Char} {p : CompiledPattern}
    (h : compilePrefix pre = .ok p) :
    32^pre.length * { a : Bytes 32 | matchesPubkey p a = true }.ncard = 2^256 := by
  obtain ⟨-, -, -, -, -, -, h49⟩ := compilePrefix_eq_ok h
  rw [ncard_matches h, show (32 : Nat) = 2^5 from rfl, ← pow_mul, ← pow_add]
  congr 1
  omega

/-! ## a list of prefixes -/

section
variable {prefixes : List (List Char)} {patterns : List CompiledPattern}

theorem matching_nil : matching [] = ∅ := by
  ext a
  simp [matching]

theorem matching_cons (p : CompiledPattern) :
    matching (p :: patterns) = { a | matchesPubkey p a = true } ∪ matching patterns := by
  ext a
  simp [matching]

theorem ncard_matching_le (h : Compiled prefixes patterns) (n : Nat)
    (hn : ∀ p ∈ prefixes, n ≤ p.length) :
    32^n * (matching patterns).ncard ≤ prefixes.length * 2^256 := by
  induction h with
  | nil =>
    rw [matching_nil, Set.ncard_empty, Nat.mul_zero]
    exact Nat.zero_le _
  | @cons pre pat prefixes patterns hc _ ih =>
    have hle := Nat.pow_le_pow_right (show 0 < 32 by decide) (hn _ List.mem_cons_self)
    have hone := (Nat.mul_le_mul_right _ hle).trans_eq (pow_mul_ncard_matches hc)
    have hrest := ih fun p hp => hn p (by simp [hp])
    rw [matching_cons, List.length_cons]
    calc 32^n * ({ a | matchesPubkey pat a = true } ∪ matching patterns).ncard
        ≤ 32^n * ({ a | matchesPubkey pat a = true }.ncard + (matching patterns).ncard) :=
          Nat.mul_le_mul_left _ (Set.ncard_union_le _ _)
      _ = 32^n * { a | matchesPubkey pat a = true }.ncard + 32^n * (matching patterns).ncard :=
          Nat.mul_add _ _ _
      _ ≤ 2^256 + prefixes.length * 2^256 := Nat.add_le_add hone hrest
      _ = (prefixes.length + 1) * 2^256 := by rw [Nat.succ_mul, Nat.add_comm]

theorem le_ncard_matching (h : Compiled prefixes patterns) {pre : List Char} (hp : pre ∈ prefixes) :
    2^256 ≤ 32^pre.length * (matching patterns).ncard := by
  obtain ⟨i, hi, rfl⟩ := List.mem_iff_getElem.mp hp
  obtain ⟨pat, hpat, hc⟩ := h.pattern (List.getElem?_eq_getElem hi)
  rw [← pow_mul_ncard_matches hc]
  refine Nat.mul_le_mul_left _ (Set.ncard_le_ncard fun a ha => ?_)
  exact ⟨pat, List.mem_of_getElem? hpat, ha⟩

/-- prefixes that do not extend each other have no string in common -/
theorem ncard_matching_free (h : Compiled prefixes patterns) (hfree : PrefixFree prefixes) :
    (matching patterns).ncard = (prefixes.map fun p => 2^(256 - 5 * p.length)).sum := by
  induction h with
  | nil =>
    rw [matching_nil, Set.ncard_empty]
    rfl
  | @cons pre pat prefixes patterns hc hrest ih =>
    have hdisj : Disjoint { a | matchesPubkey pat a = true } (matching patterns) := by
      rw [Set.disjoint_left]
      rintro a ha ⟨q, hq, hqa⟩
      obtain ⟨i, hi, rfl⟩ := List.mem_iff_getElem.mp hq
      have hcomp : Compiled (pre :: prefixes) (pat :: patterns) := List.Forall₂.cons hc hrest
      have hnext : (pat :: patterns)[i + 1]? = some patterns[i] := by
        rw [List.getElem?_cons_succ, List.getElem?_eq_getElem hi]
      have hidx : 0 = i + 1 := hcomp.unique hfree rfl hnext ha hqa
      omega
    rw [matching_cons, Set.ncard_union_eq hdisj, ncard_matches hc,
      ih (List.pairwise_cons.mp hfree).2, List.map_cons, List.sum_cons]

end

theorem Compiled.length_le {prefixes : List (List Char)} {patterns : List CompiledPattern}
    (h : Compiled prefixes patterns) {pre : List Char} (hp : pre ∈ prefixes) : pre.length ≤ 49 := by
  obtain ⟨i, hi, rfl⟩ := List.mem_iff_getElem.mp hp
  obtain ⟨_, -, hc⟩ := h.pattern (List.getElem?_eq_getElem hi)
  obtain ⟨-, -, -, -, -, -, h49⟩ := compilePrefix_eq_ok hc
  exact h49

/-- **Tries per match.**  At least one string of 32 bytes in `expectedTries` is accepted, and at most
as many as there are prefixes: with one prefix the number announced is exact.  Prefixes that do not
extend each other are counted one by one. -/
theorem announced_tries (prefixes : List (List Char)) (patterns : List CompiledPattern)
    (hp : compilePrefixes prefixes = some patterns) (hne : prefixes ≠ []) :
    Nat.card (Bytes 32) = 2^256 ∧
    2^256 ≤ expectedTries prefixes * (matching patterns).ncard ∧
    expectedTries prefixes * (matching patterns).ncard ≤ prefixes.length * 2^256 ∧
    (PrefixFree prefixes →
      (matching patterns).ncard = (prefixes.map fun p => 2^(256 - 5 * p.length)).sum) := by
  have hc := compilePrefixes_eq_some.mp hp
  obtain ⟨⟨pre, hpre, hs⟩, hle⟩ := shortest_spec hne fun p hp => by
    have := hc.length_le hp
    omega
  refine ⟨card_bytes, ?_, ncard_matching_le hc _ hle, ncard_matching_free hc⟩
  rw [expectedTries, hs]
  exact le_ncard_matching hc hpre

theorem announced_tries_letters :
    Nat.card (Bytes 32) = 2^256 ∧
    2^256 ≤ expectedTries letters * (matching letterPatterns).ncard ∧
    expectedTries letters * (matching letterPatterns).ncard ≤ letters.length * 2^256 ∧
    (PrefixFree letters →
      (matching letterPatterns).ncard = (letters.map fun p => 2^(256 - 5 * p.length)).sum) :=
  announced_tries letters letterPatterns (compilePrefixes_eq_some.mpr letters_compiled) (by decide)

end Onion
