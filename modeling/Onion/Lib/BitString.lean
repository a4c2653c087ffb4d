import Mathlib.Data.Nat.Bitwise
import Mathlib.Data.List.Infix
import Mathlib.Data.List.Induction

/-!
# Bit strings of fixed-width digits

* `bits w x`          the `w` low bits of `x`, high bit first;
* `bitsValue l`       the number a bit string spells;
* `stream w l`        the bits of a list of `w`-bit digits, one digit after the other;
* `stream_prefix_iff`   a prefix of the digits is a prefix of the stream.
-/

def bits : Nat → Nat → List Bool
  | 0, _ => []
  | w+1, x => x.testBit w :: bits w x

theorem bits_zero (x : Nat) : bits 0 x = [] := rfl
theorem bits_succ (w x : Nat) : bits (w+1) x = x.testBit w :: bits w x := rfl

@[simp] theorem bits_length (w x : Nat) : (bits w x).length = w := by
  induction w with
  | zero => rfl
  | succ w ih => rw [bits_succ, List.length_cons, ih]

theorem bits_congr {w x y : Nat} (h : ∀ i < w, x.testBit i = y.testBit i) : bits w x = bits w y := by
  induction w with
  | zero => rfl
  | succ w ih => rw [bits_succ, bits_succ, h w (by omega), ih fun i hi => h i (by omega)]

theorem bits_mod (w x : Nat) {k : Nat} (hk : w ≤ k) : bits w (x % 2^k) = bits w x :=
  bits_congr fun i hi => by rw [Nat.testBit_mod_two_pow, decide_eq_true (by omega), Bool.true_and]

theorem bits_zeros (w : Nat) : bits w 0 = List.replicate w false := by
  induction w with
  | zero => rfl
  | succ w ih => rw [bits_succ, Nat.zero_testBit, ih, List.replicate_succ]

theorem bits_add (a b x : Nat) : bits (a + b) x = bits a (x >>> b) ++ bits b x := by
  induction a with
  | zero => rw [Nat.zero_add, bits_zero, List.nil_append]
  | succ a ih =>
    rw [show a + 1 + b = a + b + 1 by omega, bits_succ, bits_succ, ih, Nat.testBit_shiftRight,
      Nat.add_comm b a, List.cons_append]

theorem bits_shift_or (w k x : Nat) {d : Nat} (hd : d < 2^k) :
    bits (w + k) (x <<< k ||| d) = bits w x ++ bits k d := by
  rw [bits_add]
  congr 1
  · refine bits_congr fun i _ => ?_
    rw [Nat.testBit_shiftRight, Nat.testBit_or, Nat.testBit_shiftLeft, decide_eq_true (by omega),
      Bool.true_and, Nat.add_sub_cancel_left,
      Nat.testBit_lt_two_pow (hd.trans_le (Nat.pow_le_pow_right (by decide) (by omega))),
      Bool.or_false]
  · refine bits_congr fun i hi => ?_
    rw [Nat.testBit_or, Nat.testBit_shiftLeft, decide_eq_false (by omega), Bool.false_and,
      Bool.false_or]

theorem bits_inj {w x y : Nat} (hx : x < 2^w) (hy : y < 2^w) (h : bits w x = bits w y) : x = y := by
  have key : ∀ i < w, x.testBit i = y.testBit i := by
    clear hx hy
    induction w with
    | zero => exact fun i hi => absurd hi (by omega)
    | succ w ih =>
      rw [bits_succ, bits_succ, List.cons.injEq] at h
      intro i hi
      by_cases e : i = w
      · rw [e]
        exact h.1
      · exact ih h.2 i (by omega)
  refine Nat.eq_of_testBit_eq fun i => ?_
  by_cases hi : i < w
  · exact key i hi
  · have hp : 2^w ≤ 2^i := Nat.pow_le_pow_right (by decide) (by omega)
    rw [Nat.testBit_lt_two_pow (hx.trans_le hp), Nat.testBit_lt_two_pow (hy.trans_le hp)]

theorem bits_eq_zeros {w x : Nat} (hx : x < 2^w) : bits w x = List.replicate w false ↔ x = 0 := by
  refine ⟨fun h => bits_inj hx (Nat.two_pow_pos w) (h.trans (bits_zeros w).symm), ?_⟩
  rintro rfl
  exact bits_zeros w

theorem bits_getD (w x : Nat) {j : Nat} (hj : j < w) :
    (bits w x).getD j false = x.testBit (w - 1 - j) := by
  induction w generalizing j with
  | zero => omega
  | succ w ih =>
    cases j with
    | zero => rfl
    | succ j =>
      rw [bits_succ, List.getD_cons_succ, ih (by omega)]
      congr 1
      omega

def bitsValue (l : List Bool) : Nat := l.foldl (fun x b => x <<< 1 ||| b.toNat) 0

theorem bitsValue_snoc (l : List Bool) (b : Bool) :
    bitsValue (l ++ [b]) = bitsValue l <<< 1 ||| b.toNat := by
  simp [bitsValue]

theorem bits_bitsValue (l : List Bool) : bits l.length (bitsValue l) = l := by
  induction l using List.reverseRecOn with
  | nil => rfl
  | append_singleton l b ih =>
    have hb : b.toNat < 2^1 := b.toNat_lt
    have h1 : bits 1 b.toNat = [b] := by cases b <;> rfl
    rw [List.length_append, List.length_singleton, bitsValue_snoc, bits_shift_or l.length 1 _ hb, ih,
      h1]

theorem bitsValue_lt (l : List Bool) : bitsValue l < 2^l.length := by
  induction l using List.reverseRecOn with
  | nil => exact Nat.one_pos
  | append_singleton l b ih =>
    have hb : b.toNat < 2^1 := b.toNat_lt
    rw [List.length_append, List.length_singleton, bitsValue_snoc, ← Nat.shiftLeft_add_eq_or_of_lt hb,
      Nat.shiftLeft_eq, pow_succ]
    omega

/-! ## streams -/

/-- the bits of `w`-bit digits -/
def stream (w : Nat) (l : List Nat) : List Bool := l.flatMap (bits w)

section
variable {w : Nat}

@[simp] theorem stream_nil : stream w [] = [] := rfl
theorem stream_cons (x : Nat) (l : List Nat) : stream w (x :: l) = bits w x ++ stream w l := rfl
theorem stream_append (a b : List Nat) : stream w (a ++ b) = stream w a ++ stream w b :=
  List.flatMap_append

theorem stream_length (l : List Nat) : (stream w l).length = w * l.length := by
  induction l with
  | nil => rfl
  | cons x l ih => rw [stream_cons, List.length_append, bits_length, ih, List.length_cons, Nat.mul_succ,
      Nat.add_comm]

theorem stream_getD (l : List Nat) (i : Nat) {j : Nat} (hj : j < w) :
    (stream w l).getD (w * i + j) false = (l.getD i 0).testBit (w - 1 - j) := by
  induction l generalizing i with
  | nil => simp
  | cons x l ih =>
    have hlen : (bits w x).length = w := bits_length w x
    rw [stream_cons]
    cases i with
    | zero =>
      rw [Nat.mul_zero, Nat.zero_add, List.getD_append _ _ _ _ (by omega), bits_getD w x hj,
        List.getD_cons_zero]
    | succ i =>
      rw [List.getD_append_right _ _ _ _ (by rw [hlen, Nat.mul_succ]; omega), hlen,
        show w * (i + 1) + j - w = w * i + j by rw [Nat.mul_succ]; omega, ih, List.getD_cons_succ]

theorem stream_prefix_iff (hw : 0 < w) {a b : List Nat} (ha : ∀ x ∈ a, x < 2^w) (hb : ∀ x ∈ b, x < 2^w) :
    stream w a <+: stream w b ↔ a <+: b := by
  constructor
  · intro h
    induction a generalizing b with
    | nil => exact List.nil_prefix
    | cons x a ih =>
      cases b with
      | nil =>
        have hl := h.length_le
        rw [stream_cons, List.length_append, bits_length, stream_nil, List.length_nil] at hl
        omega
      | cons y b =>
        obtain ⟨t, ht⟩ := h
        rw [stream_cons, stream_cons, List.append_assoc] at ht
        obtain ⟨h1, h2⟩ := List.append_inj ht ((bits_length w x).trans (bits_length w y).symm)
        rw [bits_inj (ha x (by simp)) (hb y (by simp)) h1]
        exact List.cons_prefix_cons.mpr ⟨rfl, ih (fun z hz => ha z (by simp [hz]))
          (fun z hz => hb z (by simp [hz])) ⟨t, h2⟩⟩
  · rintro ⟨t, rfl⟩
    rw [stream_append]
    exact List.prefix_append _ _

end
