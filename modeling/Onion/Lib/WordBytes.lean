import Onion.Lib.Bytes
import Onion.Lib.Words

/-!
# 32-bit words as bytes

* `loadWord`, `loadWords`    little-endian words from bytes (`wordsVal_loadWords`);
* `wordBytes`                the four bytes of a word (`le_flatMap_wordBytes`);
* `wordsVal_set`             one word replaced.
-/

/-- `a | (b << 8) | (c << 16) | (d << 24)` -/
def loadWord (a b c d : UInt8) : UInt32 :=
  a.toUInt32 ||| b.toUInt32 <<< 8 ||| c.toUInt32 <<< 16 ||| d.toUInt32 <<< 24

/-- the first `n` words of a byte string -/
def loadWords (n : Nat) (s : List UInt8) : List UInt32 :=
  (List.range n).map fun i =>
    loadWord (s.getD (4 * i) 0) (s.getD (4 * i + 1) 0) (s.getD (4 * i + 2) 0) (s.getD (4 * i + 3) 0)

/-- `x & 0xff`, `(x >> 8) & 0xff`, `(x >> 16) & 0xff`, `(x >> 24) & 0xff` -/
def wordBytes (x : UInt32) : List UInt8 :=
  [(x &&& 0xff).toUInt8, (x >>> 8 &&& 0xff).toUInt8, (x >>> 16 &&& 0xff).toUInt8,
    (x >>> 24 &&& 0xff).toUInt8]

/-! ## loading -/

theorem or_shifted {x y k : Nat} (hx : x < 2^k) : x ||| y <<< k = x + 2^k * y := by
  rw [Nat.or_comm, ← Nat.shiftLeft_add_eq_or_of_lt hx, Nat.shiftLeft_eq, Nat.mul_comm, Nat.add_comm]

theorem byte_shifted (y : UInt8) {k : Nat} (hk : k ≤ 24) :
    y.toNat <<< k % 2^32 = y.toNat <<< k := by
  have hy := y.toNat_lt
  rw [Nat.shiftLeft_eq]
  apply Nat.mod_eq_of_lt
  calc y.toNat * 2^k ≤ (2^8 - 1) * 2^24 :=
        Nat.mul_le_mul (by omega) (Nat.pow_le_pow_right (by norm_num) hk)
    _ < 2^32 := by norm_num

theorem loadWord_toNat (a b c d : UInt8) : (loadWord a b c d).toNat =
    a.toNat + 256 * b.toNat + 65536 * c.toNat + 16777216 * d.toNat := by
  have ha := a.toNat_lt
  have hb := b.toNat_lt
  have hc := c.toNat_lt
  have h8 : (8 : UInt32).toNat % 32 = 8 := rfl
  have h16 : (16 : UInt32).toNat % 32 = 16 := rfl
  have h24 : (24 : UInt32).toNat % 32 = 24 := rfl
  unfold loadWord
  simp only [UInt32.toNat_or, UInt32.toNat_shiftLeft, UInt8.toNat_toUInt32, h8, h16, h24]
  rw [byte_shifted b (by norm_num), byte_shifted c (by norm_num), byte_shifted d le_rfl,
    or_shifted (x := a.toNat) (by omega), or_shifted (y := c.toNat) (by omega),
    or_shifted (y := d.toNat) (by omega)]
  norm_num

@[simp] theorem loadWords_length (n : Nat) (s : List UInt8) : (loadWords n s).length = n := by
  rw [loadWords, List.length_map, List.length_range]

theorem wordsVal_loadWords (n : Nat) (s : List UInt8) :
    wordsVal (loadWords n s) = le s % (2^32)^n := by
  induction n with
  | zero => rw [pow_zero, Nat.mod_one]; rfl
  | succ n ih =>
    have hpow (k : Nat) : (256:Nat)^(4 * n + k) = (2^32)^n * 256^k := by
      rw [pow_add, pow_mul]
      norm_num
    have hbyte (k : Nat) : (s.getD (4 * n + k) 0).toNat = le s / (2^32)^n / 256^k % 256 := by
      rw [le_getD, hpow, Nat.div_div_eq_div_mul]
    have hword : (loadWord (s.getD (4 * n) 0) (s.getD (4 * n + 1) 0) (s.getD (4 * n + 2) 0)
        (s.getD (4 * n + 3) 0)).toNat = le s / (2^32)^n % 2^32 := by
      have h0 := hbyte 0
      rw [Nat.add_zero] at h0
      rw [loadWord_toNat, h0, hbyte 1, hbyte 2, hbyte 3]
      omega
    have hsucc : loadWords (n + 1) s = loadWords n s ++ [loadWord (s.getD (4 * n) 0)
        (s.getD (4 * n + 1) 0) (s.getD (4 * n + 2) 0) (s.getD (4 * n + 3) 0)] := by
      rw [loadWords, List.range_succ, List.map_append]
      rfl
    rw [hsucc, wordsVal_append, ih, loadWords_length, wordsVal_cons, wordsVal_nil, hword, Nat.mul_zero,
      Nat.add_zero, pow_succ (2^32) n, Nat.mod_mul]

/-! ## storing -/

theorem wordBytes_length (x : UInt32) : (wordBytes x).length = 4 := rfl

/-- the low byte of a shifted word -/
theorem word_byte (x : UInt32) {n : UInt32} {k : Nat} (hk : n.toNat % 32 = k) :
    (x >>> n &&& 0xff).toUInt8.toNat = x.toNat / 2^k % 256 := by
  have h255 : (0xff : UInt32).toNat = 2^8 - 1 := rfl
  rw [UInt32.toNat_toUInt8, UInt32.toNat_and, UInt32.toNat_shiftRight, hk, h255,
    Nat.and_two_pow_sub_one_eq_mod, Nat.shiftRight_eq_div_pow, Nat.mod_mod]

theorem le_wordBytes (x : UInt32) : le (wordBytes x) = x.toNat := by
  have hx := x.toNat_lt
  have h0 : (x &&& 0xff).toUInt8.toNat = x.toNat % 256 := by
    have h255 : (0xff : UInt32).toNat = 2^8 - 1 := rfl
    rw [UInt32.toNat_toUInt8, UInt32.toNat_and, h255, Nat.and_two_pow_sub_one_eq_mod, Nat.mod_mod]
  rw [wordBytes, le_cons, le_cons, le_cons, le_cons, le_nil, h0, word_byte x (k := 8) rfl,
    word_byte x (k := 16) rfl, word_byte x (k := 24) rfl]
  omega

theorem flatMap_wordBytes_length (w : List UInt32) : (w.flatMap wordBytes).length = 4 * w.length := by
  induction w with
  | nil => rfl
  | cons x w ih =>
    rw [List.flatMap_cons, List.length_append, ih, wordBytes_length, List.length_cons]
    omega

theorem le_flatMap_wordBytes (w : List UInt32) : le (w.flatMap wordBytes) = wordsVal w := by
  induction w with
  | nil => rfl
  | cons x w ih =>
    have h4 : (256:Nat)^4 = 2^32 := rfl
    rw [List.flatMap_cons, le_append, ih, le_wordBytes, wordBytes_length, h4, wordsVal_cons]

/-! ## one word -/

theorem wordsVal_set (w : List UInt32) {i : Nat} (hi : i < w.length) (x : UInt32) :
    wordsVal (w.set i x) + (2^32)^i * (w.getD i 0).toNat = wordsVal w + (2^32)^i * x.toNat := by
  induction w generalizing i with
  | nil => cases hi
  | cons y w ih =>
    cases i with
    | zero =>
      rw [List.set_cons_zero, List.getD_cons_zero, wordsVal_cons, wordsVal_cons]
      omega
    | succ i =>
      have h := ih (i := i) (by rw [List.length_cons] at hi; omega)
      rw [List.set_cons_succ, List.getD_cons_succ, wordsVal_cons, wordsVal_cons, pow_succ' (2^32) i,
        mul_assoc, mul_assoc]
      omega

theorem wordsVal_getD (w : List UInt32) (i : Nat) :
    (w.getD i 0).toNat = wordsVal w / (2^32)^i % 2^32 := by
  induction w generalizing i with
  | nil => simp [wordsVal_nil]
  | cons x w ih =>
    have hx := x.toNat_lt
    cases i with
    | zero =>
      rw [List.getD_cons_zero, wordsVal_cons, pow_zero, Nat.div_one]
      omega
    | succ i =>
      rw [List.getD_cons_succ, ih, wordsVal_cons, pow_succ' (2^32) i, ← Nat.div_div_eq_div_mul]
      congr 2
      omega
