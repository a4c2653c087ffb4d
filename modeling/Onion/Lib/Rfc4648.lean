import Onion.Lib.BitString
import Mathlib.Tactic.Common

/-!
# RFC 4648: data encodings over a `2^w`-letter alphabet

The bytes are read as one string of bits, high bit first; every `w` bits are a letter, zero bits
fill the last one up, and `=` fills the last group of letters up.

* `symbol`           the number of letter `i`;
* `encode`           letters and padding; `b32encode` is the base 32 case;
* `symbols_stream`   the letters carry the bits, and fewer than `w` zero bits after them.
-/

namespace Rfc4648

/-- letter `i`: bits `w*i` to `w*i + w - 1`, zero beyond the end -/
def symbol (w : Nat) (l : List Bool) (i : Nat) : Nat :=
  bitsValue ((List.range w).map fun j => l.getD (w * i + j) false)

/-- as many letters as the bits need -/
def symbols (w : Nat) (l : List Bool) : List Nat :=
  (List.range ((l.length + (w - 1)) / w)).map (symbol w l)

/-- letters of `w` bits, padded to groups of `q` letters -/
def encode (w q : Nat) (alphabet : List Char) (b : List UInt8) : List Char :=
  let s := symbols w (stream 8 (b.map UInt8.toNat))
  s.map (fun i => alphabet.getD i ' ') ++ List.replicate ((q - s.length % q) % q) '='

def base32Alphabet : List Char := "ABCDEFGHIJKLMNOPQRSTUVWXYZ234567".toList

/-- base 32: 5 bytes make 8 letters -/
def b32encode (b : List UInt8) : List Char := encode 5 8 base32Alphabet b

section
variable {w : Nat} (l : List Bool) (i : Nat)

theorem symbol_lt : symbol w l i < 2^w := by
  have h := bitsValue_lt ((List.range w).map fun j => l.getD (w * i + j) false)
  rwa [List.length_map, List.length_range] at h

theorem symbol_testBit {j : Nat} (hj : j < w) :
    (symbol w l i).testBit (w - 1 - j) = l.getD (w * i + j) false := by
  have h := bits_bitsValue ((List.range w).map fun j => l.getD (w * i + j) false)
  rw [List.length_map, List.length_range] at h
  rw [← bits_getD w _ hj, symbol, h, List.getD_eq_getElem?_getD, List.getElem?_map,
    List.getElem?_range hj]
  rfl

end

/-- the letters carry the bits, and fewer than `w` zeros after them -/
theorem symbols_stream {w : Nat} (hw : 0 < w) (l : List Bool) :
    ∃ k < w, stream w (symbols w l) = l ++ List.replicate k false := by
  have hlen : (symbols w l).length = (l.length + (w - 1)) / w := by
    rw [symbols, List.length_map, List.length_range]
  have hdiv := Nat.div_add_mod (l.length + (w - 1)) w
  have hmod := Nat.mod_lt (l.length + (w - 1)) hw
  refine ⟨w * (symbols w l).length - l.length, by rw [hlen]; omega, ?_⟩
  have hs : (stream w (symbols w l)).length = w * (symbols w l).length := stream_length _
  refine List.ext_getElem ?_ fun n h1 h2 => ?_
  · rw [hs, List.length_append, List.length_replicate, hlen]
    omega
  · have hn : n < w * (symbols w l).length := by rwa [hs] at h1
    have hi : n / w < (symbols w l).length := Nat.div_lt_of_lt_mul hn
    have hj := Nat.mod_lt n hw
    have hsym : (symbols w l).getD (n / w) 0 = symbol w l (n / w) := by
      rw [List.getD_eq_getElem _ _ hi]
      simp only [symbols, List.getElem_map, List.getElem_range]
    -- bit `n` is bit `n % w` of letter `n / w`
    have hl : (stream w (symbols w l)).getD n false = l.getD n false := by
      have h := stream_getD (symbols w l) (n / w) hj
      rw [hsym, symbol_testBit _ _ hj, Nat.div_add_mod] at h
      exact h
    rw [← List.getD_eq_getElem _ false h1, hl, ← List.getD_eq_getElem _ false h2]
    by_cases h : n < l.length
    · rw [List.getD_append _ _ _ _ h]
    · rw [List.getD_append_right _ _ _ _ (by omega), List.getD_replicate, List.getD_eq_default _ _ (by omega)]
      rw [List.length_append, List.length_replicate] at h2
      omega

theorem symbols_lt {w : Nat} {l : List Bool} {d : Nat} (hd : d ∈ symbols w l) : d < 2^w := by
  obtain ⟨i, -, rfl⟩ := List.mem_map.mp hd
  exact symbol_lt l i

example : b32encode [0x66, 0x6f, 0x6f, 0x62, 0x61, 0x72] = "MZXW6YTBOI======".toList := by decide

end Rfc4648
