import Mathlib.Data.Nat.Digits.Lemmas

/-!
# Multi-word arithmetic on 32-bit words

A number is a list of 32-bit words, low word first; the loops over the words keep a carry or a
borrow in a 64-bit register.

* `Words n`        numbers of `n` words, and `wordsVal`, the number;
* `propagate`      columns of 64 bits carried into words (`propagate_val`);
* `ripple`         a small number added to words, up to the first carry that is zero (`ripple_val`);
* `subtract`       the difference of two numbers and the last borrow (`subtract_val`);
* `mulRows`        the schoolbook product (`mulRows_val`).
-/

def wordsVal (w : List UInt32) : Nat := Nat.ofDigits (2^32) (w.map UInt32.toNat)

def columnsVal (c : List UInt64) : Nat := Nat.ofDigits (2^32) (c.map UInt64.toNat)

theorem wordsVal_nil : wordsVal [] = 0 := rfl

theorem wordsVal_cons (x : UInt32) (w : List UInt32) :
    wordsVal (x :: w) = x.toNat + 2^32 * wordsVal w := by
  rw [wordsVal, List.map_cons, Nat.ofDigits_cons]
  rfl

theorem wordsVal_append (v w : List UInt32) :
    wordsVal (v ++ w) = wordsVal v + (2^32)^v.length * wordsVal w := by
  rw [wordsVal, List.map_append, Nat.ofDigits_append, List.length_map]
  rfl

theorem wordsVal_lt (w : List UInt32) : wordsVal w < (2^32)^w.length := by
  have h := Nat.ofDigits_lt_base_pow_length (b := 2^32) (l := w.map UInt32.toNat) (by norm_num)
    (fun x hx => by
      obtain ⟨a, _, rfl⟩ := List.mem_map.mp hx
      exact a.toNat_lt)
  rwa [List.length_map] at h

theorem words_carry {w : List UInt32} {c x : Nat} (h : wordsVal w + (2^32)^w.length * c = x) :
    wordsVal w = x % (2^32)^w.length ∧ c = x / (2^32)^w.length := by
  obtain ⟨hq, hr⟩ := (Nat.div_mod_unique (by positivity)).mpr ⟨h, wordsVal_lt w⟩
  exact ⟨hr.symm, hq.symm⟩

theorem wordsVal_zeros (n : Nat) : wordsVal (List.replicate n 0) = 0 := by
  induction n with
  | zero => rfl
  | succ n ih => rw [List.replicate_succ, wordsVal_cons, ih]; rfl

theorem columnsVal_cons (x : UInt64) (c : List UInt64) :
    columnsVal (x :: c) = x.toNat + 2^32 * columnsVal c := by
  rw [columnsVal, List.map_cons, Nat.ofDigits_cons]
  rfl

def Words (n : Nat) : Type := { w : List UInt32 // w.length = n }

namespace Words
variable {n : Nat}

instance : DecidableEq (Words n) :=
  inferInstanceAs (DecidableEq { w : List UInt32 // w.length = n })

def val (a : Words n) : Nat := wordsVal a.1

theorem val_lt (a : Words n) : a.val < (2^32)^n := by
  have h := wordsVal_lt a.1
  rwa [a.2] at h

end Words

/-! ## the two halves of a register -/

theorem low_high (v : UInt64) : v.toUInt32.toNat + 2^32 * (v >>> 32).toNat = v.toNat := by
  have h32 : (32 : UInt64).toNat % 64 = 32 := rfl
  rw [UInt64.toNat_shiftRight, UInt64.toNat_toUInt32, h32, Nat.shiftRight_eq_div_pow]
  omega

theorem high_lt (v : UInt64) : (v >>> 32).toNat < 2^32 := by
  have h := low_high v
  have hv := v.toNat_lt
  omega

theorem toUInt64_lt (x : UInt32) : x.toUInt64.toNat < 2^32 := by
  rw [UInt32.toNat_toUInt64]
  exact x.toNat_lt

/-! ## carries -/

/-- `v = acc[i] + carry`: the low half is word `i`, the high half the next carry -/
def propagate : List UInt64 → UInt64 → List UInt32 × UInt64
  | [], carry => ([], carry)
  | a :: acc, carry =>
    let v := a + carry
    let r := propagate acc (v >>> 32)
    (v.toUInt32 :: r.1, r.2)

@[simp] theorem propagate_length (acc : List UInt64) (carry : UInt64) :
    (propagate acc carry).1.length = acc.length := by
  induction acc generalizing carry with
  | nil => rfl
  | cons a acc ih => rw [propagate, List.length_cons, List.length_cons, ih]

theorem propagate_val {acc : List UInt64} (hacc : ∀ a ∈ acc, a.toNat < 2^63) {carry : UInt64}
    (hc : carry.toNat < 2^63) :
    wordsVal (propagate acc carry).1 + (2^32)^acc.length * (propagate acc carry).2.toNat =
      columnsVal acc + carry.toNat := by
  induction acc generalizing carry with
  | nil =>
    show 0 + 1 * carry.toNat = 0 + carry.toNat
    rw [one_mul]
  | cons a acc ih =>
    have ha := hacc a (by simp)
    have hv : (a + carry).toNat = a.toNat + carry.toNat := by
      rw [UInt64.toNat_add]
      exact Nat.mod_eq_of_lt (by omega)
    have hrest := ih (fun x hx => hacc x (List.mem_cons_of_mem _ hx))
      ((high_lt (a + carry)).trans (by norm_num))
    have hsplit := low_high (a + carry)
    rw [propagate, wordsVal_cons, columnsVal_cons, List.length_cons,
      pow_succ (2^32) acc.length, mul_right_comm]
    dsimp only
    generalize (2^32)^acc.length * _ = top at hrest ⊢
    omega

/-- `v = out[i] + fold` while `fold` is not zero -/
def ripple : List UInt32 → UInt64 → List UInt32 × UInt64
  | [], fold => ([], fold)
  | x :: out, fold =>
    if fold = 0 then (x :: out, fold)
    else
      let v := x.toUInt64 + fold
      let r := ripple out (v >>> 32)
      (v.toUInt32 :: r.1, r.2)

@[simp] theorem ripple_length (out : List UInt32) (fold : UInt64) :
    (ripple out fold).1.length = out.length := by
  induction out generalizing fold with
  | nil => rfl
  | cons x out ih =>
    rw [ripple]
    split
    · rfl
    · rw [List.length_cons, List.length_cons, ih]

theorem ripple_val (out : List UInt32) {fold : UInt64} (hf : fold.toNat < 2^63) :
    wordsVal (ripple out fold).1 + (2^32)^out.length * (ripple out fold).2.toNat =
      wordsVal out + fold.toNat := by
  induction out generalizing fold with
  | nil =>
    show 0 + 1 * fold.toNat = 0 + fold.toNat
    rw [one_mul]
  | cons x out ih =>
    rw [ripple]
    split
    next h0 =>
      rw [h0]
      show _ + _ * 0 = _ + 0
      rw [mul_zero]
    · have hx := toUInt64_lt x
      have hv : (x.toUInt64 + fold).toNat = x.toNat + fold.toNat := by
        rw [UInt64.toNat_add, UInt32.toNat_toUInt64]
        rw [UInt32.toNat_toUInt64] at hx
        exact Nat.mod_eq_of_lt (by omega)
      have hrest := ih ((high_lt (x.toUInt64 + fold)).trans (by norm_num))
      have hsplit := low_high (x.toUInt64 + fold)
      rw [wordsVal_cons, wordsVal_cons, List.length_cons, pow_succ (2^32) out.length,
        mul_right_comm]
      dsimp only
      generalize (2^32)^out.length * _ = top at hrest ⊢
      omega

theorem columnsVal_zipWith {f : UInt32 → UInt32 → UInt64} {k : Nat}
    (hf : ∀ x y, (f x y).toNat = x.toNat + k * y.toNat) {a b : List UInt32}
    (h : a.length = b.length) :
    columnsVal (List.zipWith f a b) = wordsVal a + k * wordsVal b := by
  induction a generalizing b with
  | nil =>
    rw [List.length_nil] at h
    rw [List.length_eq_zero_iff.mp h.symm]
    rfl
  | cons x a ih =>
    cases b with
    | nil => cases h
    | cons y b =>
      rw [List.zipWith_cons_cons, columnsVal_cons, wordsVal_cons, wordsVal_cons, hf,
        ih (Nat.succ.inj h), Nat.mul_add, Nat.mul_add, Nat.mul_left_comm]
      omega

/-! ## borrows -/

/-- `d = out[i] - b[i] - borrow`: the low half is word `i`, the top bit the next borrow -/
def subtract : List UInt32 → List UInt32 → UInt64 → List UInt32 × UInt64
  | x :: out, y :: b, borrow =>
    let d := x.toUInt64 - y.toUInt64 - borrow
    let r := subtract out b (d >>> 63)
    (d.toUInt32 :: r.1, r.2)
  | _, _, borrow => ([], borrow)

theorem subtract_length {a b : List UInt32} (h : a.length = b.length) (borrow : UInt64) :
    (subtract a b borrow).1.length = a.length := by
  induction a generalizing b borrow with
  | nil => rfl
  | cons x a ih =>
    cases b with
    | nil => cases h
    | cons y b =>
      rw [subtract, List.length_cons, List.length_cons, ih (Nat.succ.inj h)]

/-- one word of the difference -/
theorem borrow_step (x y : UInt32) {borrow : UInt64} (hb : borrow.toNat ≤ 1) :
    let d := x.toUInt64 - y.toUInt64 - borrow
    d.toUInt32.toNat + y.toNat + borrow.toNat = x.toNat + 2^32 * (d >>> 63).toNat ∧
      (d >>> 63).toNat ≤ 1 := by
  have hx := x.toNat_lt
  have hy := y.toNat_lt
  have h63 : (63 : UInt64).toNat % 64 = 63 := rfl
  simp only [UInt64.toNat_shiftRight, UInt64.toNat_toUInt32, UInt64.toNat_sub,
    UInt32.toNat_toUInt64, h63, Nat.shiftRight_eq_div_pow]
  omega

theorem subtract_val {a b : List UInt32} (h : a.length = b.length) {borrow : UInt64}
    (hb : borrow.toNat ≤ 1) :
    wordsVal (subtract a b borrow).1 + wordsVal b + borrow.toNat =
      wordsVal a + (2^32)^a.length * (subtract a b borrow).2.toNat ∧
    (subtract a b borrow).2.toNat ≤ 1 := by
  induction a generalizing b borrow with
  | nil =>
    rw [List.length_nil] at h
    rw [List.length_eq_zero_iff.mp h.symm]
    show 0 + 0 + borrow.toNat = 0 + 1 * borrow.toNat ∧ borrow.toNat ≤ 1
    omega
  | cons x a ih =>
    cases b with
    | nil => cases h
    | cons y b =>
      obtain ⟨hstep, hle⟩ := borrow_step x y hb
      obtain ⟨hrest, hlast⟩ := ih (Nat.succ.inj h) hle
      refine ⟨?_, hlast⟩
      rw [subtract, wordsVal_cons, wordsVal_cons, wordsVal_cons, List.length_cons,
        pow_succ (2^32) a.length, mul_right_comm]
      dsimp only at hstep hrest ⊢
      generalize (2^32)^a.length * _ = top at hrest ⊢
      omega

/-! ## products -/

/-- `p = x * b[j] + r[j] + carry`: the low half goes to `r[j]`, the high half on; the last carry is
the word after them -/
def macRow (x : UInt32) : List UInt32 → List UInt32 → UInt32 → List UInt32
  | y :: b, z :: r, carry =>
    let p := x.toUInt64 * y.toUInt64 + z.toUInt64 + carry.toUInt64
    p.toUInt32 :: macRow x b r (p >>> 32).toUInt32
  | _, r, carry => r.set 0 carry

/-- the product of `a` and `b`, row by row; row `i` leaves the words below `i` alone -/
def mulRows : List UInt32 → List UInt32 → List UInt32 → List UInt32
  | x :: a, b, r =>
    match macRow x b r 0 with
    | z :: r => z :: mulRows a b r
    | [] => []
  | [], _, r => r

theorem mac_val (x y z carry : UInt32) :
    (x.toUInt64 * y.toUInt64 + z.toUInt64 + carry.toUInt64).toNat =
      x.toNat * y.toNat + z.toNat + carry.toNat := by
  have hx := x.toNat_lt
  have hy := y.toNat_lt
  have hz := z.toNat_lt
  have hc := carry.toNat_lt
  have hxy : x.toNat * y.toNat ≤ (2^32 - 1) * (2^32 - 1) :=
    Nat.mul_le_mul (by omega) (by omega)
  simp only [UInt64.toNat_add, UInt64.toNat_mul, UInt32.toNat_toUInt64]
  omega

/-- one row: the words from `b.length` on, all zero, receive the carry and nothing else -/
theorem macRow_val (x : UInt32) (b : List UInt32) {v w : List UInt32} (hv : v.length = b.length)
    (carry : UInt32) : ∃ u : List UInt32, u.length = b.length + 1 ∧
      macRow x b (v ++ 0 :: w) carry = u ++ w ∧
      wordsVal u = wordsVal v + x.toNat * wordsVal b + carry.toNat := by
  induction b generalizing v carry with
  | nil =>
    rw [List.length_nil] at hv
    rw [List.length_eq_zero_iff.mp hv]
    refine ⟨[carry], rfl, rfl, ?_⟩
    rw [wordsVal_cons, wordsVal_nil]
    omega
  | cons y b ih =>
    cases v with
    | nil => cases hv
    | cons z v =>
      have hp := mac_val x y z carry
      have hsplit := low_high (x.toUInt64 * y.toUInt64 + z.toUInt64 + carry.toUInt64)
      have hhigh := high_lt (x.toUInt64 * y.toUInt64 + z.toUInt64 + carry.toUInt64)
      rw [List.cons_append, macRow]
      generalize x.toUInt64 * y.toUInt64 + z.toUInt64 + carry.toUInt64 = p at hp hsplit hhigh ⊢
      obtain ⟨u, hlen, hu, hval⟩ := ih (Nat.succ.inj hv) (p >>> 32).toUInt32
      refine ⟨p.toUInt32 :: u, by rw [List.length_cons, hlen, List.length_cons], by rw [hu]; rfl, ?_⟩
      have hc : (p >>> 32).toUInt32.toNat = (p >>> 32).toNat := by
        rw [UInt64.toNat_toUInt32]
        exact Nat.mod_eq_of_lt hhigh
      rw [wordsVal_cons, wordsVal_cons, wordsVal_cons, hval, hc, Nat.mul_add x.toNat,
        Nat.mul_left_comm x.toNat]
      omega

/-- the product, over words that are zero from `b.length` on -/
theorem mulRows_val (a b : List UInt32) {v : List UInt32} (hv : v.length = b.length) :
    (mulRows a b (v ++ List.replicate a.length 0)).length = a.length + b.length ∧
      wordsVal (mulRows a b (v ++ List.replicate a.length 0)) =
        wordsVal v + wordsVal a * wordsVal b := by
  induction a generalizing v with
  | nil =>
    rw [mulRows, List.length_nil, List.replicate_zero, List.append_nil, hv, wordsVal_nil]
    omega
  | cons x a ih =>
    obtain ⟨u, hlen, hu, hval⟩ := macRow_val x b (w := List.replicate a.length 0) hv 0
    cases u with
    | nil => cases hlen
    | cons z u =>
      obtain ⟨hl, hrest⟩ := ih (Nat.succ.inj hlen)
      rw [List.length_cons, List.replicate_succ, mulRows, hu, List.cons_append]
      dsimp only
      rw [List.length_cons, hl, wordsVal_cons, hrest]
      rw [wordsVal_cons] at hval
      refine ⟨by omega, ?_⟩
      have h0 : (0 : UInt32).toNat = 0 := rfl
      rw [wordsVal_cons, Nat.add_mul, Nat.mul_add, Nat.mul_assoc]
      omega
