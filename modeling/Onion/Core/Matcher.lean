import Onion.Core.OnionAddress

/-!
# `matcher.cpp`: prefixes compiled to bytes and masks

The bits of a pattern are numbered as in the address, from the top of byte 0.

* `compileLoop_ok`, `compileLoop_error`   the loop marks the bits of its digits;
* `matchesPubkey_iff`     the masked comparison is a comparison of bit prefixes;
* `compiled_pattern`      a compiled prefix matches the keys whose address starts with it.
-/

namespace Onion

inductive MatcherError where
  | empty
  | invalidChar
  | tooLong
deriving DecidableEq

structure CompiledPattern where
  bytes : Bytes 32
  mask : Bytes 32
  nbytes : Nat
  prefix_ : List Char
deriving DecidableEq

def kMaxPrefixLen : Nat := 49

/-- bit number `bit` set, where `0x80 >> (bit % 8)` is the top bit of its byte -/
def setBit (a : Bytes 32) (bit : Nat) : Bytes 32 :=
  a.set (bit / 8) (a.get (bit / 8) ||| UInt8.ofNat (0x80 >>> (bit % 8)))

/-- one bit of a character: bit `k` of its position in the alphabet -/
def compileBit (pos : Nat) (s : CompiledPattern × Nat) (k : Nat) : CompiledPattern × Nat :=
  ({ s.1 with
      bytes := if pos >>> k &&& 1 ≠ 0 then setBit s.1.bytes s.2 else s.1.bytes
      mask := setBit s.1.mask s.2 }, s.2 + 1)

def compileLoop : List Char → CompiledPattern × Nat → Except MatcherError (CompiledPattern × Nat)
  | [], s => .ok s
  | c :: cs, s =>
    match kBase32Alphabet.idxOf? c with
    | none => .error .invalidChar
    | some pos => compileLoop cs ([4, 3, 2, 1, 0].foldl (compileBit pos) s)

def compilePrefix (pre : List Char) : Except MatcherError CompiledPattern :=
  if pre.isEmpty then .error .empty
  else if kMaxPrefixLen < pre.length then .error .tooLong
  else do
    let s ← compileLoop pre (⟨Bytes.ofNat 32 0, Bytes.ofNat 32 0, 0, pre⟩, 0)
    return { s.1 with nbytes := (s.2 + 7) / 8 }

def matchesPubkey (p : CompiledPattern) (pubkey : Bytes 32) : Bool :=
  (List.range p.nbytes).all fun i => pubkey.get i &&& p.mask.get i == p.bytes.get i

/-! ## bits of a key -/

/-- bit `k` of a byte string, counted from the top of byte 0 -/
def keyBit (a : Bytes 32) (k : Nat) : Bool := (byteBits a.1).getD k false

theorem keyBit_eq (a : Bytes 32) (i : Nat) {j : Nat} (hj : j < 8) :
    keyBit a (8 * i + j) = (a.get i).toNat.testBit (7 - j) := by
  rw [keyBit, byteBits, stream_getD _ _ hj, Bytes.get]
  congr 1
  exact List.getD_map _ 0 UInt8.toNat

theorem byte_ext {a b : UInt8} (h : ∀ j < 8, a.toNat.testBit (7 - j) = b.toNat.testBit (7 - j)) :
    a = b := by
  refine UInt8.toNat_inj.mp (Nat.eq_of_testBit_eq fun i => ?_)
  by_cases hi : i < 8
  · have e := h (7 - i) (by omega)
    rwa [show 7 - (7 - i) = i by omega] at e
  · have hp : 2^8 ≤ 2^i := Nat.pow_le_pow_right (by decide) (by omega)
    rw [Nat.testBit_lt_two_pow (a.toNat_lt.trans_le hp),
      Nat.testBit_lt_two_pow (b.toNat_lt.trans_le hp)]

theorem keyBit_zero (k : Nat) : keyBit (Bytes.ofNat 32 0) k = false := by
  have e : (Bytes.ofNat 32 0).get (k / 8) = 0 := by
    refine UInt8.toNat_inj.mp ?_
    rw [Bytes.get_toNat, Bytes.toNat_ofNat, Nat.zero_mod, Nat.zero_div]
    rfl
  rw [← Nat.div_add_mod k 8, keyBit_eq _ _ (Nat.mod_lt k (by decide)), e]
  exact Nat.zero_testBit _

/-- `0x80 >> r` is the bit `7 - r` -/
theorem shr_0x80 : ∀ r < 8, (UInt8.ofNat (0x80 >>> r)).toNat = 2^(7 - r) := by decide

theorem setBit_get (a : Bytes 32) {bit : Nat} (hb : bit < 256) (i : Nat) :
    ((setBit a bit).get i).toNat =
      if bit / 8 = i then (a.get i).toNat ||| 2^(7 - bit % 8) else (a.get i).toNat := by
  rw [setBit, Bytes.get, Bytes.set, List.getD_eq_getElem?_getD, List.getElem?_set]
  by_cases h : bit / 8 = i
  · rw [if_pos h, if_pos (by rw [a.2]; omega), if_pos h, Option.getD_some, UInt8.toNat_or,
      shr_0x80 _ (Nat.mod_lt bit (by decide)), h]
  · rw [if_neg h, if_neg h, ← List.getD_eq_getElem?_getD]
    rfl

theorem setBit_keyBit (a : Bytes 32) {bit : Nat} (hb : bit < 256) (k : Nat) :
    keyBit (setBit a bit) k = (keyBit a k || decide (k = bit)) := by
  have hj := Nat.mod_lt k (show 8 > 0 by decide)
  have hk := Nat.div_add_mod k 8
  rw [← hk, keyBit_eq _ _ hj, keyBit_eq _ _ hj, hk, setBit_get a hb]
  by_cases h : bit / 8 = k / 8
  · rw [if_pos h, Nat.testBit_or, Nat.testBit_two_pow]
    congr 1
    exact decide_eq_decide.mpr (by omega)
  · rw [if_neg h, decide_eq_false (by omega), Bool.or_false]

/-! ## compiling -/

/-- the pattern compares the first bits of a key with `l` -/
structure Marks (p : CompiledPattern) (l : List Bool) : Prop where
  bytes : ∀ k, keyBit p.bytes k = l.getD k false
  mask : ∀ k, keyBit p.mask k = decide (k < l.length)

theorem compileBit_ok {s : CompiledPattern × Nat} {l : List Bool} (h : Marks s.1 l)
    (hn : s.2 = l.length) (hl : l.length < 256) (pos k : Nat) :
    Marks (compileBit pos s k).1 (l ++ [pos.testBit k]) ∧
      (compileBit pos s k).2 = (l ++ [pos.testBit k]).length := by
  have hbit : (pos >>> k &&& 1 ≠ 0) ↔ pos.testBit k = true := by
    rw [Nat.testBit, Nat.and_comm, bne_iff_ne]
  refine ⟨⟨fun j => ?_, fun j => ?_⟩, by rw [List.length_append, compileBit, hn]; rfl⟩
  · show keyBit (if pos >>> k &&& 1 ≠ 0 then setBit s.1.bytes s.2 else s.1.bytes) j = _
    have happ : (l ++ [pos.testBit k]).getD j false =
        (l.getD j false || (decide (j = l.length) && pos.testBit k)) := by
      rcases Nat.lt_trichotomy j l.length with hj | hj | hj
      · rw [List.getD_append _ _ _ _ hj, decide_eq_false (by omega), Bool.false_and, Bool.or_false]
      · rw [List.getD_append_right _ _ _ _ hj.ge, hj, Nat.sub_self, List.getD_cons_zero,
          List.getD_eq_default _ _ le_rfl, decide_eq_true rfl, Bool.true_and, Bool.false_or]
      · rw [List.getD_eq_default _ _ (by rw [List.length_append]; exact hj),
          List.getD_eq_default _ _ hj.le, decide_eq_false (by omega)]
        rfl
    rw [happ]
    by_cases hp : pos.testBit k = true
    · rw [if_pos (hbit.mpr hp), setBit_keyBit _ (hn ▸ hl), h.bytes, hn, hp, Bool.and_true]
    · rw [if_neg (hbit.not.mpr hp), h.bytes, Bool.not_eq_true _ |>.mp hp, Bool.and_false,
        Bool.or_false]
  · show keyBit (setBit s.1.mask s.2) j = _
    rw [setBit_keyBit _ (hn ▸ hl), h.mask, hn, List.length_append, List.length_singleton,
      ← Bool.decide_or]
    exact decide_eq_decide.mpr (by omega)

theorem compileChar_ok {s : CompiledPattern × Nat} {l : List Bool} (h : Marks s.1 l)
    (hn : s.2 = l.length) (hl : l.length + 5 ≤ 256) (pos : Nat) :
    let r := [4, 3, 2, 1, 0].foldl (compileBit pos) s
    Marks r.1 (l ++ bits 5 pos) ∧ r.2 = (l ++ bits 5 pos).length := by
  have key : ∀ ks : List Nat, ∀ s : CompiledPattern × Nat, ∀ l : List Bool, Marks s.1 l →
      s.2 = l.length → l.length + ks.length ≤ 256 →
      Marks (ks.foldl (compileBit pos) s).1 (l ++ ks.map pos.testBit) ∧
        (ks.foldl (compileBit pos) s).2 = (l ++ ks.map pos.testBit).length := by
    intro ks
    induction ks with
    | nil =>
      intro s l h hn _
      rw [List.map_nil, List.append_nil]
      exact ⟨h, hn⟩
    | cons k ks ih =>
      intro s l h hn hl
      rw [List.length_cons] at hl
      obtain ⟨h', hn'⟩ := compileBit_ok h hn (by omega) pos k
      have hr := ih _ _ h' hn' (by rw [List.length_append, List.length_singleton]; omega)
      rw [List.append_assoc] at hr
      exact hr
  exact key [4, 3, 2, 1, 0] s l h hn hl

theorem compileLoop_ok {pre : List Char} {m : List Bool} (hs : Spells pre m)
    {s : CompiledPattern × Nat} {l : List Bool} (h : Marks s.1 l) (hn : s.2 = l.length)
    (hl : l.length + m.length ≤ 256) :
    ∃ r, compileLoop pre s = .ok r ∧ Marks r.1 (l ++ m) ∧ r.2 = (l ++ m).length ∧
      r.1.prefix_ = s.1.prefix_ := by
  induction pre generalizing s l m with
  | nil =>
    rw [spells_nil.mp hs, List.append_nil]
    exact ⟨s, rfl, h, hn, rfl⟩
  | cons c pre ih =>
    obtain ⟨i, m, hi, hm, rfl⟩ := spells_cons.mp hs
    rw [List.length_append, bits_length] at hl
    obtain ⟨h', hn'⟩ := compileChar_ok h hn (by omega) i
    obtain ⟨r, hr, hmarks, hlen, hpre⟩ := ih hm h' hn'
      (by rw [List.length_append, bits_length]; omega)
    rw [List.append_assoc] at hmarks hlen
    refine ⟨r, ?_, hmarks, hlen, hpre⟩
    rw [compileLoop, hi]
    exact hr

theorem compileLoop_error {pre : List Char} (hs : ¬ ∀ c ∈ pre, c ∈ kBase32Alphabet)
    (s : CompiledPattern × Nat) : compileLoop pre s = .error .invalidChar := by
  induction pre generalizing s with
  | nil => simp at hs
  | cons c pre ih =>
    rw [compileLoop]
    cases hc : kBase32Alphabet.idxOf? c with
    | none => rfl
    | some i =>
      refine ih (fun h => hs fun x hx => ?_) _
      rcases List.mem_cons.mp hx with rfl | hx
      · exact List.isSome_idxOf?.mp (by rw [hc]; rfl)
      · exact h x hx

/-! ## matching -/

theorem matchesPubkey_bits {p : CompiledPattern} {pubkey : Bytes 32} :
    matchesPubkey p pubkey = true ↔
      ∀ k < 8 * p.nbytes, (keyBit pubkey k && keyBit p.mask k) = keyBit p.bytes k := by
  rw [matchesPubkey, List.all_eq_true]
  constructor
  · intro h k hk
    have hj := Nat.mod_lt k (show 8 > 0 by decide)
    have e := eq_of_beq (h (k / 8) (List.mem_range.mpr (by omega)))
    rw [← Nat.div_add_mod k 8, keyBit_eq _ _ hj, keyBit_eq _ _ hj, keyBit_eq _ _ hj, ← e,
      UInt8.toNat_and, Nat.testBit_and]
  · intro h i hi
    have hi := List.mem_range.mp hi
    refine beq_iff_eq.mpr (byte_ext fun j hj => ?_)
    have e := h (8 * i + j) (by omega)
    rw [keyBit_eq _ _ hj, keyBit_eq _ _ hj, keyBit_eq _ _ hj] at e
    rw [UInt8.toNat_and, Nat.testBit_and, e]

theorem prefix_iff_getD {l m : List Bool} (h : l.length ≤ m.length) :
    l <+: m ↔ ∀ k < l.length, m.getD k false = l.getD k false := by
  rw [List.prefix_iff_getElem]
  constructor
  · rintro ⟨_, hp⟩ k hk
    rw [List.getD_eq_getElem _ _ hk, List.getD_eq_getElem _ _ (hk.trans_le h)]
    exact (hp k hk).symm
  · intro hp
    refine ⟨h, fun k hk => ?_⟩
    have e := hp k hk
    rw [List.getD_eq_getElem _ _ hk, List.getD_eq_getElem _ _ (hk.trans_le h)] at e
    exact e.symm

/-- the masked comparison of whole bytes compares the marked bits -/
theorem matchesPubkey_iff {p : CompiledPattern} {l : List Bool} (h : Marks p l)
    (hn : l.length ≤ 8 * p.nbytes) (hl : l.length ≤ 256) {pubkey : Bytes 32} :
    matchesPubkey p pubkey = true ↔ l <+: byteBits pubkey.1 := by
  have hlen : (byteBits pubkey.1).length = 256 := by rw [byteBits_length, pubkey.2]
  rw [matchesPubkey_bits, prefix_iff_getD (hlen ▸ hl)]
  constructor
  · intro hk k hkl
    have e := hk k (by omega)
    rw [h.mask, decide_eq_true hkl, Bool.and_true, h.bytes] at e
    exact e
  · intro hk k _
    rw [h.mask, h.bytes]
    by_cases hkl : k < l.length
    · rw [decide_eq_true hkl, Bool.and_true]
      exact hk k hkl
    · rw [decide_eq_false hkl, Bool.and_false, List.getD_eq_default _ _ (by omega)]

/-- what a successful compilation returns -/
theorem compilePrefix_eq_ok {pre : List Char} {p : CompiledPattern}
    (h : compilePrefix pre = .ok p) : ∃ l, Spells pre l ∧ Marks p l ∧
      p.nbytes = (l.length + 7) / 8 ∧ p.prefix_ = pre ∧ 0 < pre.length ∧ pre.length ≤ 49 := by
  rw [compilePrefix] at h
  split at h
  · cases h
  rename_i hne
  split at h
  · cases h
  rename_i hlen
  have hpos : 0 < pre.length := List.length_pos_iff.mpr (by simpa using hne)
  have h49 : pre.length ≤ 49 := Nat.le_of_not_lt hlen
  by_cases ha : ∀ c ∈ pre, c ∈ kBase32Alphabet
  · obtain ⟨l, hl⟩ := Spells.of_alphabet ha
    have hmarks : Marks ⟨Bytes.ofNat 32 0, Bytes.ofNat 32 0, 0, pre⟩ [] :=
      ⟨keyBit_zero, keyBit_zero⟩
    have hll := hl.length_eq
    obtain ⟨r, hr, hm, hn, hp⟩ := compileLoop_ok hl hmarks (s := (_, 0)) rfl
      (by rw [List.length_nil]; omega)
    rw [hr] at h
    obtain rfl := Except.ok.inj h
    rw [List.nil_append] at hm hn
    exact ⟨l, hl, ⟨hm.bytes, hm.mask⟩, by rw [← hn], hp, hpos, h49⟩
  · rw [compileLoop_error ha] at h
    cases h

theorem compilePrefix_isOk {pre : List Char} : (∃ p, compilePrefix pre = .ok p) ↔
    1 ≤ pre.length ∧ pre.length ≤ 49 ∧ ∀ c ∈ pre, c ∈ kBase32Alphabet := by
  constructor
  · rintro ⟨p, hp⟩
    obtain ⟨l, hl, -, -, -, h1, h49⟩ := compilePrefix_eq_ok hp
    exact ⟨h1, h49, hl.alphabet⟩
  · rintro ⟨h1, h49, ha⟩
    obtain ⟨l, hl⟩ := Spells.of_alphabet ha
    have hll := hl.length_eq
    obtain ⟨r, hr, -⟩ := compileLoop_ok hl (l := [])
      (s := (⟨Bytes.ofNat 32 0, Bytes.ofNat 32 0, 0, pre⟩, 0)) ⟨keyBit_zero, keyBit_zero⟩ rfl
      (by rw [List.length_nil]; omega)
    have hne : pre.isEmpty = false := by
      rw [List.isEmpty_eq_false_iff]
      exact List.length_pos_iff.mp h1
    have h49' : ¬ kMaxPrefixLen < pre.length := Nat.not_lt.mpr h49
    rw [compilePrefix, hne, if_neg Bool.false_ne_true, if_neg h49', hr]
    exact ⟨_, rfl⟩

theorem compilePrefix_nbytes {pre : List Char} {p : CompiledPattern}
    (h : compilePrefix pre = .ok p) : p.nbytes ≤ 31 := by
  obtain ⟨l, hl, -, hn, -, -, h49⟩ := compilePrefix_eq_ok h
  have hll := hl.length_eq
  omega

/-- two keys with the same first 31 bytes match the same patterns -/
theorem matchesPubkey_congr {p : CompiledPattern} (hn : p.nbytes ≤ 31) {a b : Bytes 32}
    (h : ∀ i < 31, a.get i = b.get i) : matchesPubkey p a = matchesPubkey p b := by
  refine Bool.eq_iff_iff.mpr ?_
  rw [matchesPubkey, matchesPubkey, List.all_eq_true, List.all_eq_true]
  refine forall₂_congr fun i hi => ?_
  rw [h i (by have := List.mem_range.mp hi; omega)]

/-- a compiled prefix matches the keys whose address starts with it -/
theorem compilePrefix_matches {pre : List Char} {p : CompiledPattern}
    (h : compilePrefix pre = .ok p) (pubkey : Bytes 32) :
    matchesPubkey p pubkey = true ↔ pre <+: (onionAddressFromPubkey pubkey).view := by
  obtain ⟨l, hl, hm, hn, -, -, h49⟩ := compilePrefix_eq_ok h
  have hll := hl.length_eq
  have hlen : (byteBits pubkey.1).length = 256 := by rw [byteBits_length, pubkey.2]
  rw [matchesPubkey_iff hm (by omega) (by omega),
    hl.prefix_iff (onionAddressFromPubkey_spells pubkey)]
  constructor
  · intro hp
    exact hp.trans (List.prefix_append _ _)
  · intro hp
    exact List.prefix_of_prefix_length_le hp (List.prefix_append _ _) (by omega)

/-- **Compiled prefixes.**  Compilation succeeds on one to 49 digits; the pattern then matches the
keys whose address starts with the prefix, whatever their sign bit. -/
theorem compiled_pattern (pre : List Char) (pubkey : Bytes 32) :
    ((∃ p, compilePrefix pre = .ok p) ↔
      1 ≤ pre.length ∧ pre.length ≤ 49 ∧ ∀ c ∈ pre, c ∈ kBase32Alphabet) ∧
    ∀ p, compilePrefix pre = .ok p →
      (matchesPubkey p pubkey = true ↔ pre <+: (onionAddressFromPubkey pubkey).view) ∧
      matchesPubkey p (pubkey.set 31 (pubkey.get 31 ^^^ 0x80)) = matchesPubkey p pubkey := by
  refine ⟨compilePrefix_isOk, fun p hp => ⟨compilePrefix_matches hp pubkey, ?_⟩⟩
  refine matchesPubkey_congr (compilePrefix_nbytes hp) fun i hi => ?_
  rw [Bytes.get, Bytes.set, List.getD_eq_getElem?_getD, List.getElem?_set_ne (by omega),
    ← List.getD_eq_getElem?_getD]
  rfl

end Onion
