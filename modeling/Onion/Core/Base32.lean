import Onion.Lib.Rfc4648
import Mathlib.Tactic.Common
import Mathlib.Tactic.NormNum

/-!
# `base32.cpp`: RFC 4648 base32, lower case, no padding characters

A string is the list of its characters.  `Spells s l` says that the characters of `s` are digits
and their bits are `l`; the two loops are described by it:

* `base32Encode_spells`   the digits spell the bytes, and fewer than five zero bits after them;
* `b32encode_lower`       they are those of RFC 4648 in lower case, without the padding;
* `base32Decode_eq_ok`    decoding succeeds with `b` exactly on the encoding of `b`;
* `base32_canonical`      so the accepted strings are the encodings, and what is rejected.
-/

namespace Onion

inductive Base32Error where
  | invalidChar
  | nonzeroPadding
  | invalidLength
deriving DecidableEq

def kBase32Alphabet : List Char := "abcdefghijklmnopqrstuvwxyz234567".toList

/-- `kBase32Alphabet[i]` -/
def digit (i : Nat) : Char := kBase32Alphabet.getD i ' '

/-- the inner loop of the encoder: digits off the top while five bits are pending -/
def drainDigits (acc : Nat) : Nat → List Char × Nat
  | n+5 =>
    let r := drainDigits acc n
    (digit (acc >>> n &&& 0x1f) :: r.1, r.2)
  | n => ([], n)

def encodeLoop : List UInt8 → Nat → Nat → List Char
  | [], acc, n => if 0 < n then [digit (acc <<< (5 - n) % 2^32 &&& 0x1f)] else []
  | b :: bs, acc, n =>
    let acc := (acc <<< 8 % 2^32) ||| b.toNat
    let r := drainDigits acc (n + 8)
    r.1 ++ encodeLoop bs acc r.2

def base32Encode (b : List UInt8) : List Char := encodeLoop b 0 0

def decodeLoop : List Char → Nat → Nat → Except Base32Error (List UInt8)
  | [], acc, n => if 0 < n ∧ acc &&& (1 <<< n - 1) ≠ 0 then .error .nonzeroPadding else .ok []
  | c :: s, acc, n =>
    match kBase32Alphabet.idxOf? c with
    | none => .error .invalidChar
    | some pos =>
      let acc := (acc <<< 5 % 2^32) ||| pos
      if 8 ≤ n + 5 then do
        let rest ← decodeLoop s acc (n + 5 - 8)
        return UInt8.ofNat (acc >>> (n + 5 - 8) &&& 0xff) :: rest
      else decodeLoop s acc (n + 5)

/-- the lengths of unpadded base32 strings, modulo 8 -/
def kValidMod8 : List Nat := [0, 2, 4, 5, 7]

def base32Decode (s : List Char) : Except Base32Error (List UInt8) :=
  if s.length % 8 ∈ kValidMod8 then decodeLoop s 0 0 else .error .invalidLength

/-! ## digits -/

theorem digit_inj : ∀ i < 32, ∀ j < 32, digit i = digit j → i = j := by decide

theorem idxOf?_digit : ∀ i < 32, kBase32Alphabet.idxOf? (digit i) = some i := by decide

theorem idxOf?_eq_some {c : Char} {i : Nat} (h : kBase32Alphabet.idxOf? c = some i) :
    i < 32 ∧ digit i = c := by
  obtain ⟨hi, hc, -⟩ := List.findIdx?_eq_some_iff_getElem.mp h
  refine ⟨hi, ?_⟩
  rw [digit, List.getD_eq_getElem _ _ hi]
  exact eq_of_beq hc

/-- the bits of a byte string -/
def byteBits (b : List UInt8) : List Bool := stream 8 (b.map UInt8.toNat)

theorem byteBits_cons (a : UInt8) (b : List UInt8) : byteBits (a :: b) = bits 8 a.toNat ++ byteBits b :=
  rfl

theorem byteBits_append (a b : List UInt8) : byteBits (a ++ b) = byteBits a ++ byteBits b := by
  rw [byteBits, List.map_append, stream_append]
  rfl

theorem byteBits_length (b : List UInt8) : (byteBits b).length = 8 * b.length := by
  rw [byteBits, stream_length, List.length_map]

/-- the characters of `s` are digits, and `l` are their bits -/
def Spells (s : List Char) (l : List Bool) : Prop :=
  ∃ ds : List Nat, s = ds.map digit ∧ (∀ d ∈ ds, d < 32) ∧ stream 5 ds = l

namespace Spells
variable {s t : List Char} {l m : List Bool}

theorem nil : Spells [] [] := ⟨[], rfl, by simp, rfl⟩

theorem cons {d : Nat} (hd : d < 32) (h : Spells s l) : Spells (digit d :: s) (bits 5 d ++ l) := by
  obtain ⟨ds, rfl, hds, rfl⟩ := h
  refine ⟨d :: ds, rfl, fun x hx => ?_, rfl⟩
  rcases List.mem_cons.mp hx with rfl | hx
  · exact hd
  · exact hds x hx

theorem append (hs : Spells s l) (ht : Spells t m) : Spells (s ++ t) (l ++ m) := by
  obtain ⟨ds, rfl, hds, rfl⟩ := hs
  obtain ⟨es, rfl, hes, rfl⟩ := ht
  refine ⟨ds ++ es, List.map_append.symm, fun x hx => ?_, stream_append ds es⟩
  rcases List.mem_append.mp hx with hx | hx
  · exact hds x hx
  · exact hes x hx

theorem length_eq (h : Spells s l) : l.length = 5 * s.length := by
  obtain ⟨ds, rfl, -, rfl⟩ := h
  rw [stream_length, List.length_map]

/-- a string with digits only spells some bits -/
theorem of_alphabet (h : ∀ c ∈ s, c ∈ kBase32Alphabet) : ∃ l, Spells s l := by
  induction s with
  | nil => exact ⟨[], nil⟩
  | cons c s ih =>
    obtain ⟨l, hl⟩ := ih fun x hx => h x (List.mem_cons_of_mem _ hx)
    obtain ⟨i, hi⟩ := Option.isSome_iff_exists.mp (List.isSome_idxOf?.mpr (h c (by simp)))
    obtain ⟨hlt, rfl⟩ := idxOf?_eq_some hi
    exact ⟨_, hl.cons hlt⟩

theorem alphabet (h : Spells s l) : ∀ c ∈ s, c ∈ kBase32Alphabet := by
  obtain ⟨ds, rfl, hds, -⟩ := h
  intro c hc
  obtain ⟨d, hd, rfl⟩ := List.mem_map.mp hc
  exact List.isSome_idxOf?.mp (by rw [idxOf?_digit d (hds d hd)]; rfl)

theorem prefix_iff (hs : Spells s l) (ht : Spells t m) : s <+: t ↔ l <+: m := by
  obtain ⟨ds, rfl, hds, rfl⟩ := hs
  obtain ⟨es, rfl, hes, rfl⟩ := ht
  rw [stream_prefix_iff (by decide) hds hes]
  constructor
  · intro h
    have hmap : ds.map digit = (es.take ds.length).map digit := by
      have e := List.prefix_iff_eq_take.mp h
      rwa [List.length_map, ← List.map_take] at e
    have hinj : ds = es.take ds.length := by
      refine List.ext_getElem (by simpa using congrArg List.length hmap) fun i h1 h2 => ?_
      have e := List.getElem_of_eq hmap (by rwa [List.length_map])
      rw [List.getElem_map, List.getElem_map] at e
      exact digit_inj _ (hds _ (List.getElem_mem h1)) _
        (hes _ (List.mem_of_mem_take (List.getElem_mem h2))) e
    rw [hinj]
    exact List.take_prefix _ _
  · rintro ⟨t, rfl⟩
    rw [List.map_append]
    exact List.prefix_append _ _

theorem unique (hs : Spells s l) (ht : Spells t l) : s = t :=
  ((hs.prefix_iff ht).mpr List.prefix_rfl).eq_of_length
    (Nat.eq_of_mul_eq_mul_left (by decide) (hs.length_eq.symm.trans ht.length_eq))

theorem bits_unique (hs : Spells s l) (ht : Spells s m) : l = m :=
  ((hs.prefix_iff ht).mp List.prefix_rfl).eq_of_length (hs.length_eq.trans ht.length_eq.symm)

end Spells

/-! ## encoding -/

/-- the five bits above the `n` low ones, as a digit -/
theorem bits_digit (acc n : Nat) : bits 5 (acc >>> n &&& 0x1f) = bits 5 (acc >>> n) := by
  rw [show (0x1f : Nat) = 2^5 - 1 from rfl, Nat.and_two_pow_sub_one_eq_mod, bits_mod 5 _ le_rfl]

theorem digit_lt (x : Nat) : x &&& 0x1f < 32 :=
  Nat.lt_succ_of_le Nat.and_le_right

/-- the accumulator is a 32-bit word, of which the pending bits are kept -/
theorem bits_push (w k acc : Nat) {d : Nat} (hw : w + k ≤ 32) (hd : d < 2^k) :
    bits (w + k) ((acc <<< k % 2^32) ||| d) = bits w acc ++ bits k d := by
  rw [← bits_shift_or w k acc hd]
  refine bits_congr fun i hi => ?_
  rw [Nat.testBit_or, Nat.testBit_or, Nat.testBit_mod_two_pow, decide_eq_true (by omega),
    Bool.true_and]

theorem drainDigits_spells (acc n : Nat) : ∃ l, Spells (drainDigits acc n).1 l ∧
    l ++ bits (drainDigits acc n).2 acc = bits n acc ∧ (drainDigits acc n).2 < 5 := by
  induction n using drainDigits.induct acc with
  | case1 n ih =>
    obtain ⟨l, hl, he, hn⟩ := ih
    refine ⟨_, hl.cons (digit_lt (acc >>> n)), ?_, hn⟩
    show _ ++ bits (drainDigits acc n).2 acc = _
    rw [List.append_assoc, he, bits_digit, ← bits_add, Nat.add_comm]
  | case2 n hn =>
    have e : drainDigits acc n = ([], n) := by rw [drainDigits]; exact hn
    rw [e]
    refine ⟨[], Spells.nil, rfl, ?_⟩
    by_contra h
    exact hn (n - 5) (by omega)

theorem encodeLoop_spells (b : List UInt8) (acc : Nat) {n : Nat} (hn : n < 5) :
    ∃ k < 5, Spells (encodeLoop b acc n) (bits n acc ++ byteBits b ++ List.replicate k false) := by
  induction b generalizing acc n with
  | nil =>
    by_cases h0 : 0 < n
    · refine ⟨5 - n, by omega, ?_⟩
      rw [encodeLoop, if_pos h0]
      have e : bits 5 (acc <<< (5 - n) % 2^32 &&& 0x1f) =
          bits n acc ++ byteBits [] ++ List.replicate (5 - n) false := by
        rw [show acc <<< (5 - n) % 2^32 &&& 0x1f = (acc <<< (5 - n) % 2^32) >>> 0 &&& 0x1f from rfl,
          bits_digit, Nat.shiftRight_zero]
        have h := bits_push n (5 - n) acc (d := 0) (by omega) (Nat.two_pow_pos _)
        rw [show n + (5 - n) = 5 by omega, Nat.or_zero, bits_zeros] at h
        rw [h]
        exact (congrArg (· ++ _) (List.append_nil _)).symm
      rw [← e]
      rw [← List.append_nil (bits 5 _)]
      exact Spells.nil.cons (digit_lt (acc <<< (5 - n) % 2^32))
    · obtain rfl : n = 0 := by omega
      exact ⟨0, by omega, Spells.nil⟩
  | cons a b ih =>
    have hp := bits_push n 8 acc (by omega) a.toNat_lt
    rw [encodeLoop]
    generalize (acc <<< 8 % 2^32) ||| a.toNat = acc' at hp ⊢
    obtain ⟨l, hl, he, hr⟩ := drainDigits_spells acc' (n + 8)
    obtain ⟨k, hk, h⟩ := ih acc' hr
    refine ⟨k, hk, ?_⟩
    rw [byteBits_cons, ← List.append_assoc, ← hp, ← he, List.append_assoc, List.append_assoc,
      ← List.append_assoc (bits _ acc')]
    exact hl.append h

/-- the digits spell the bytes, filled up with fewer than five zero bits -/
theorem base32Encode_spells (b : List UInt8) :
    ∃ k < 5, Spells (base32Encode b) (byteBits b ++ List.replicate k false) :=
  encodeLoop_spells b 0 (by decide)

theorem lower_digit : ∀ i < 32, (Rfc4648.base32Alphabet.getD i ' ').toLower = digit i := by decide

/-- in lower case the letters of RFC 4648 are these digits, and the padding is the difference -/
theorem b32encode_lower (b : List UInt8) : (Rfc4648.b32encode b).map Char.toLower =
    base32Encode b ++ List.replicate ((8 - (base32Encode b).length % 8) % 8) '=' := by
  obtain ⟨k, hk, henc⟩ := base32Encode_spells b
  obtain ⟨k', hk', hstream⟩ := Rfc4648.symbols_stream (w := 5) (by decide) (byteBits b)
  have hlt : ∀ d ∈ Rfc4648.symbols 5 (byteBits b), d < 32 := fun d hd => Rfc4648.symbols_lt hd
  have hspell : Spells ((Rfc4648.symbols 5 (byteBits b)).map digit)
      (byteBits b ++ List.replicate k' false) := ⟨_, rfl, hlt, hstream⟩
  -- both pad to a multiple of five bits
  have hkk : k' = k := by
    have h1 := henc.length_eq
    have h2 := hspell.length_eq
    rw [List.length_append, List.length_replicate] at h1 h2
    omega
  rw [hkk] at hspell
  have hdigits : (Rfc4648.symbols 5 (byteBits b)).map digit = base32Encode b := hspell.unique henc
  have hlower : ((Rfc4648.symbols 5 (byteBits b)).map
      fun i => (Rfc4648.base32Alphabet.getD i ' ').toLower) = base32Encode b := by
    rw [← hdigits]
    exact List.map_congr_left fun i hi => lower_digit i (hlt i hi)
  have hlen : (Rfc4648.symbols 5 (byteBits b)).length = (base32Encode b).length := by
    rw [← hdigits, List.length_map]
  unfold Rfc4648.b32encode Rfc4648.encode
  rw [List.map_append, List.map_map, List.map_replicate]
  show List.map (fun i => (Rfc4648.base32Alphabet.getD i ' ').toLower)
    (Rfc4648.symbols 5 (byteBits b)) ++ List.replicate _ '=' = _
  rw [hlower]
  show base32Encode b ++ List.replicate
    ((8 - (Rfc4648.symbols 5 (byteBits b)).length % 8) % 8) '=' = _
  rw [hlen]

/-! ## decoding -/

theorem decodeLoop_nil {acc n : Nat} {b : List UInt8} :
    decodeLoop [] acc n = .ok b ↔ b = [] ∧ bits n acc = List.replicate n false := by
  have hmask : acc &&& (1 <<< n - 1) = acc % 2^n := by
    rw [Nat.one_shiftLeft, Nat.and_two_pow_sub_one_eq_mod]
  have hbits : bits n acc = List.replicate n false ↔ acc % 2^n = 0 := by
    rw [← bits_mod n acc le_rfl, bits_eq_zeros (Nat.mod_lt _ (Nat.two_pow_pos n))]
  rw [decodeLoop, hmask, hbits]
  by_cases h : acc % 2^n = 0
  · simp [h, eq_comm]
  · have h0 : 0 < n := by
      by_contra e
      obtain rfl : n = 0 := by omega
      exact h (Nat.mod_one acc)
    simp [h, h0]

/-- the bytes `b` make up the bits `l`, up to fewer than eight zero bits at the end -/
def Fills (b : List UInt8) (l : List Bool) : Prop :=
  ∃ k < 8, l = byteBits b ++ List.replicate k false

theorem fills_short {b : List UInt8} {l : List Bool} (hl : l.length < 8) :
    Fills b l ↔ b = [] ∧ l = List.replicate l.length false := by
  constructor
  · rintro ⟨k, hk, rfl⟩
    rw [List.length_append, byteBits_length, List.length_replicate] at hl
    obtain rfl : b = [] := List.length_eq_zero_iff.mp (by omega)
    exact ⟨rfl, by simp [byteBits]⟩
  · rintro ⟨rfl, h⟩
    exact ⟨l.length, hl, h⟩

theorem fills_cons {b : List UInt8} {x : Nat} (hx : x < 256) {l : List Bool} :
    Fills b (bits 8 x ++ l) ↔ ∃ rest, b = UInt8.ofNat x :: rest ∧ Fills rest l := by
  constructor
  · rintro ⟨k, hk, h⟩
    cases b with
    | nil =>
      have hl := congrArg List.length h
      rw [List.length_append, bits_length, byteBits, List.map_nil, stream_nil, List.nil_append,
        List.length_replicate] at hl
      omega
    | cons a b =>
      rw [byteBits_cons, List.append_assoc] at h
      obtain ⟨h1, h2⟩ := List.append_inj h ((bits_length 8 x).trans (bits_length 8 _).symm)
      have e : x = a.toNat := bits_inj hx a.toNat_lt h1
      exact ⟨b, by rw [e, UInt8.ofNat_toNat], k, hk, h2⟩
  · rintro ⟨rest, rfl, k, hk, rfl⟩
    refine ⟨k, hk, ?_⟩
    rw [byteBits_cons, UInt8.toNat_ofNat', Nat.mod_eq_of_lt hx, List.append_assoc]

theorem spells_nil {l : List Bool} : Spells [] l ↔ l = [] := by
  constructor
  · intro h
    exact List.length_eq_zero_iff.mp h.length_eq
  · rintro rfl
    exact Spells.nil

theorem spells_cons {c : Char} {s : List Char} {l : List Bool} :
    Spells (c :: s) l ↔ ∃ i m, kBase32Alphabet.idxOf? c = some i ∧ Spells s m ∧ l = bits 5 i ++ m := by
  constructor
  · rintro ⟨ds, hs, hds, rfl⟩
    cases ds with
    | nil => simp at hs
    | cons d ds =>
      rw [List.map_cons, List.cons.injEq] at hs
      obtain ⟨rfl, rfl⟩ := hs
      exact ⟨d, _, idxOf?_digit d (hds d (by simp)),
        ⟨ds, rfl, fun x hx => hds x (List.mem_cons_of_mem _ hx), rfl⟩, rfl⟩
  · rintro ⟨i, m, hi, hm, rfl⟩
    obtain ⟨hlt, rfl⟩ := idxOf?_eq_some hi
    exact hm.cons hlt

theorem decodeLoop_cons {c : Char} {s : List Char} {acc n i : Nat} {b : List UInt8}
    (hc : kBase32Alphabet.idxOf? c = some i) {acc' : Nat} (ha : (acc <<< 5 % 2^32) ||| i = acc') :
    decodeLoop (c :: s) acc n = .ok b ↔
      if 8 ≤ n + 5 then ∃ rest, b = UInt8.ofNat (acc' >>> (n + 5 - 8) % 256) :: rest ∧
        decodeLoop s acc' (n + 5 - 8) = .ok rest
      else decodeLoop s acc' (n + 5) = .ok b := by
  have e : decodeLoop (c :: s) acc n = if 8 ≤ n + 5 then do
      let rest ← decodeLoop s acc' (n + 5 - 8)
      return UInt8.ofNat (acc' >>> (n + 5 - 8) &&& 0xff) :: rest
    else decodeLoop s acc' (n + 5) := by
    rw [decodeLoop, hc, ← ha]
  rw [e, show (0xff : Nat) = 2^8 - 1 from rfl, Nat.and_two_pow_sub_one_eq_mod]
  by_cases h8 : 8 ≤ n + 5
  · rw [if_pos h8, if_pos h8]
    cases decodeLoop s acc' (n + 5 - 8) with
    | error x =>
      constructor
      · intro h
        cases h
      · rintro ⟨rest, -, h⟩
        cases h
    | ok rest =>
      constructor
      · intro h
        exact ⟨rest, (Except.ok.inj h).symm, rfl⟩
      · rintro ⟨r, rfl, h⟩
        rw [Except.ok.inj h]
        rfl
  · rw [if_neg h8, if_neg h8]

theorem spells_push {c : Char} {s : List Char} {acc n i : Nat} (hn : n < 8)
    (hc : kBase32Alphabet.idxOf? c = some i) (G : List Bool → Prop) :
    (∃ l, Spells (c :: s) l ∧ G (bits n acc ++ l)) ↔
      ∃ l, Spells s l ∧ G (bits (n + 5) ((acc <<< 5 % 2^32) ||| i) ++ l) := by
  have hp := bits_push n 5 acc (by omega) (d := i) (idxOf?_eq_some hc).1
  constructor
  · rintro ⟨l, hl, hg⟩
    obtain ⟨j, m, hj, hm, rfl⟩ := spells_cons.mp hl
    obtain rfl : i = j := Option.some.inj (hc.symm.trans hj)
    exact ⟨m, hm, by rwa [hp, List.append_assoc]⟩
  · rintro ⟨m, hm, hg⟩
    exact ⟨_, spells_cons.mpr ⟨i, m, hc, hm, rfl⟩, by rwa [hp, List.append_assoc] at hg⟩

theorem decodeLoop_eq_ok {s : List Char} {acc n : Nat} {b : List UInt8} (hn : n < 8) :
    decodeLoop s acc n = .ok b ↔ ∃ l, Spells s l ∧ Fills b (bits n acc ++ l) := by
  induction s generalizing acc n b with
  | nil =>
    have hf := fills_short (b := b) (l := bits n acc) (by rwa [bits_length])
    rw [bits_length] at hf
    rw [decodeLoop_nil, ← hf]
    constructor
    · intro h
      exact ⟨[], Spells.nil, by rwa [List.append_nil]⟩
    · rintro ⟨l, hl, h⟩
      rwa [spells_nil.mp hl, List.append_nil] at h
  | cons c s ih =>
    cases hc : kBase32Alphabet.idxOf? c with
    | none =>
      have e : decodeLoop (c :: s) acc n = .error .invalidChar := by
        rw [decodeLoop, hc]
      rw [e]
      constructor
      · intro h
        cases h
      · rintro ⟨l, hl, -⟩
        obtain ⟨i, m, hi, -⟩ := spells_cons.mp hl
        rw [hc] at hi
        cases hi
    | some i =>
      rw [spells_push hn hc, decodeLoop_cons hc rfl]
      generalize (acc <<< 5 % 2^32) ||| i = acc'
      by_cases h8 : 8 ≤ n + 5
      · rw [if_pos h8]
        have hsplit : bits (n + 5) acc' =
            bits 8 (acc' >>> (n + 5 - 8) % 256) ++ bits (n + 5 - 8) acc' := by
          rw [show (256 : Nat) = 2^8 from rfl, bits_mod 8 _ le_rfl, ← bits_add]
          congr 1
          omega
        have hx : acc' >>> (n + 5 - 8) % 256 < 256 := Nat.mod_lt _ (by decide)
        simp only [hsplit, List.append_assoc, fills_cons hx, ih (show n + 5 - 8 < 8 by omega)]
        constructor
        · rintro ⟨rest, hb, l, hl, hf⟩
          exact ⟨l, hl, rest, hb, hf⟩
        · rintro ⟨l, hl, rest, hb, hf⟩
          exact ⟨rest, hb, l, hl, hf⟩
      · rw [if_neg h8]
        exact ih (by omega)

/-- **Decoding is the inverse of encoding**: it succeeds with `b` exactly on the encoding of `b` -/
theorem base32Decode_eq_ok {s : List Char} {b : List UInt8} :
    base32Decode s = .ok b ↔ s = base32Encode b := by
  obtain ⟨p, hp, henc⟩ := base32Encode_spells b
  have hlen := henc.length_eq
  rw [List.length_append, byteBits_length, List.length_replicate] at hlen
  rw [base32Decode]
  constructor
  · intro h
    split at h
    · rename_i hmod
      obtain ⟨l, hl, k, hk, e⟩ := (decodeLoop_eq_ok (by decide)).mp h
      rw [bits_zero, List.nil_append] at e
      subst e
      have hs := hl.length_eq
      rw [List.length_append, byteBits_length, List.length_replicate] at hs
      -- the two paddings agree modulo 5, and a valid length leaves fewer than 5 bits
      have hkp : k = p := by
        have hvalid : s.length % 8 = 0 ∨ s.length % 8 = 2 ∨ s.length % 8 = 4 ∨ s.length % 8 = 5 ∨
            s.length % 8 = 7 := by simpa [kValidMod8] using hmod
        omega
      exact hl.unique (hkp ▸ henc)
    · cases h
  · rintro rfl
    have hmod : (base32Encode b).length % 8 ∈ kValidMod8 := by
      have hcases : (base32Encode b).length % 8 = 0 ∨ (base32Encode b).length % 8 = 2 ∨
          (base32Encode b).length % 8 = 4 ∨ (base32Encode b).length % 8 = 5 ∨
          (base32Encode b).length % 8 = 7 := by omega
      simpa [kValidMod8] using hcases
    rw [if_pos hmod, decodeLoop_eq_ok (by decide)]
    exact ⟨_, henc, p, by omega, rfl⟩

/-! ## canonicity -/

/-- an accepted string spells its bytes and fewer than five zero bits -/
theorem spells_of_decode {s : List Char} {b : List UInt8} (h : base32Decode s = .ok b) :
    ∃ k < 5, Spells s (byteBits b ++ List.replicate k false) := by
  rw [base32Decode_eq_ok.mp h]
  exact base32Encode_spells b

/-- the bits after the last whole byte -/
def trailingBits (l : List Bool) : List Bool := l.drop (8 * (l.length / 8))

theorem trailingBits_filled (b : List UInt8) {k : Nat} (hk : k < 8) :
    trailingBits (byteBits b ++ List.replicate k false) = List.replicate k false := by
  have hlen : (byteBits b ++ List.replicate k false).length / 8 = b.length := by
    rw [List.length_append, byteBits_length, List.length_replicate]
    omega
  rw [trailingBits, hlen, ← byteBits_length, List.drop_left]

/-- **Base32 is canonical**: encoding and decoding are inverse to each other, and a string of an
impossible length, with a foreign character or with a trailing bit that is set is rejected. -/
theorem base32_canonical (b : List UInt8) (s : List Char) :
    (base32Decode s = .ok b ↔ s = base32Encode b) ∧
      base32Decode (base32Encode b) = .ok b ∧
      (base32Decode s = .ok b → base32Encode b = s) ∧
      (s.length % 8 = 1 ∨ s.length % 8 = 3 ∨ s.length % 8 = 6 → base32Decode s ≠ .ok b) ∧
      ((∃ c ∈ s, c ∉ kBase32Alphabet) → base32Decode s ≠ .ok b) ∧
      ((∃ l, Spells s l ∧ true ∈ trailingBits l) → base32Decode s ≠ .ok b) := by
  refine ⟨base32Decode_eq_ok, base32Decode_eq_ok.mpr rfl, fun h => (base32Decode_eq_ok.mp h).symm,
    ?_, ?_, ?_⟩
  · intro hlen h
    obtain ⟨k, hk, hs⟩ := spells_of_decode h
    have hl := hs.length_eq
    rw [List.length_append, byteBits_length, List.length_replicate] at hl
    omega
  · rintro ⟨c, hc, hnot⟩ h
    obtain ⟨k, -, hs⟩ := spells_of_decode h
    exact hnot (hs.alphabet c hc)
  · rintro ⟨l, hl, htrue⟩ h
    obtain ⟨k, hk, hs⟩ := spells_of_decode h
    rw [hl.bits_unique hs, trailingBits_filled b (by omega)] at htrue
    exact absurd (List.eq_of_mem_replicate htrue) (by decide)

/-- `mzxw6`, one character less, and one trailing bit more -/
theorem base32_canonical_foo :
    base32Decode "mzxw6".toList = .ok [0x66, 0x6f, 0x6f] ∧
      base32Decode "mzx".toList ≠ .ok [0x66, 0x6f] ∧
      base32Decode "mzxw1".toList ≠ .ok [0x66, 0x6f, 0x6f] ∧
      base32Decode "mzxw7".toList ≠ .ok [0x66, 0x6f, 0x6f] := by
  have hspell : Spells "mzxw7".toList
      (byteBits [0x66, 0x6f, 0x6f] ++ [true]) := ⟨[12, 25, 23, 22, 31], by decide, by decide, by decide⟩
  refine ⟨?_, ?_, ?_, ?_⟩
  · exact (base32_canonical [0x66, 0x6f, 0x6f] _).1.mpr (by decide)
  · exact (base32_canonical _ "mzx".toList).2.2.2.1 (by decide)
  · exact (base32_canonical _ "mzxw1".toList).2.2.2.2.1 ⟨'1', by decide, by decide⟩
  · exact (base32_canonical _ "mzxw7".toList).2.2.2.2.2 ⟨_, hspell, by decide⟩

end Onion
