import Mathlib.Data.Nat.Digits.Lemmas

/-!
# Little-endian byte strings

* `le`, `leBytes`       the number a byte string encodes, and the `n` low bytes of a number;
* `le_leBytes`, `le_inj`   the bytes of a number give it back modulo `256^n`, and no others do;
* `Bytes n`             byte strings of a fixed length.
-/

/-- the little-endian number -/
def le (b : List UInt8) : Nat := Nat.ofDigits 256 (b.map UInt8.toNat)

/-- the `n` low bytes of `x`, low byte first -/
def leBytes : Nat → Nat → List UInt8
  | 0, _ => []
  | n+1, x => UInt8.ofNat x :: leBytes n (x / 256)

theorem le_nil : le [] = 0 := rfl
theorem le_cons (a : UInt8) (b : List UInt8) : le (a :: b) = a.toNat + 256 * le b := by
  simp [le, Nat.ofDigits_cons]

theorem le_append (a b : List UInt8) : le (a ++ b) = le a + 256^a.length * le b := by
  simp [le, Nat.ofDigits_append]

theorem le_lt (b : List UInt8) : le b < 256^b.length := by
  have h := Nat.ofDigits_lt_base_pow_length (b := 256) (l := b.map UInt8.toNat) (by norm_num)
    (fun x hx => by
      obtain ⟨a, _, rfl⟩ := List.mem_map.mp hx
      exact a.toNat_lt)
  rwa [List.length_map] at h

theorem le_inj {a b : List UInt8} (hl : a.length = b.length) (h : le a = le b) : a = b := by
  induction a generalizing b with
  | nil => exact (List.length_eq_zero_iff.mp hl.symm).symm
  | cons x a ih =>
    cases b with
    | nil => simp at hl
    | cons y b =>
      rw [le_cons, le_cons] at h
      have hx := x.toNat_lt
      have hy := y.toNat_lt
      have hxy : x = y := UInt8.toNat_inj.mp (by omega)
      rw [hxy, ih (by simpa using hl) (by omega)]

@[simp] theorem leBytes_length (n x : Nat) : (leBytes n x).length = n := by
  induction n generalizing x with
  | zero => rfl
  | succ n ih => rw [leBytes, List.length_cons, ih]

theorem le_leBytes (n x : Nat) : le (leBytes n x) = x % 256^n := by
  induction n generalizing x with
  | zero => simp [leBytes, le_nil, Nat.mod_one]
  | succ n ih =>
    have h8 : (2:Nat)^8 = 256 := rfl
    rw [leBytes, le_cons, ih, UInt8.toNat_ofNat', h8, pow_succ', Nat.mod_mul]

theorem le_getD (b : List UInt8) (i : Nat) : (b.getD i 0).toNat = le b / 256^i % 256 := by
  induction b generalizing i with
  | nil => simp [le_nil]
  | cons a b ih =>
    have ha := a.toNat_lt
    cases i with
    | zero =>
      rw [List.getD_cons_zero, le_cons, pow_zero, Nat.div_one]
      omega
    | succ i =>
      rw [List.getD_cons_succ, ih, le_cons, pow_succ', ← Nat.div_div_eq_div_mul]
      congr 2
      omega

theorem le_set (b : List UInt8) {i : Nat} (hi : i < b.length) (v : UInt8) :
    le (b.set i v) + 256^i * (b.getD i 0).toNat = le b + 256^i * v.toNat := by
  induction b generalizing i with
  | nil => simp at hi
  | cons a b ih =>
    cases i with
    | zero =>
      rw [List.set_cons_zero, List.getD_cons_zero, le_cons, le_cons]
      omega
    | succ i =>
      have h := ih (i := i) (by simpa using hi)
      rw [List.set_cons_succ, List.getD_cons_succ, le_cons, le_cons, pow_succ', mul_assoc, mul_assoc]
      omega

theorem take_succ_set {α : Type} {l : List α} {n : Nat} (hn : n < l.length) (a : α) :
    (l.set n a).take (n + 1) = l.take n ++ [a] := by
  have hn' : n < (l.set n a).length := by rwa [List.length_set]
  rw [← List.take_append_getElem hn', List.getElem_set_self, List.take_set_of_le le_rfl]

/-- byte strings of length `n` -/
def Bytes (n : Nat) : Type := { b : List UInt8 // b.length = n }

namespace Bytes
variable {n : Nat}

instance : DecidableEq (Bytes n) := inferInstanceAs (DecidableEq { b : List UInt8 // b.length = n })

def toNat (b : Bytes n) : Nat := le b.1

def ofNat (n x : Nat) : Bytes n := ⟨leBytes n x, leBytes_length n x⟩

theorem toNat_lt (b : Bytes n) : b.toNat < 256^n := by
  have h := le_lt b.1
  rwa [b.2] at h

theorem toNat_lt_of_testBit {b : Bytes 32} (h : b.toNat.testBit 255 = false) : b.toNat < 2^255 := by
  have hlt := b.toNat_lt
  rw [Nat.testBit_eq_decide_div_mod_eq, decide_eq_false_iff_not] at h
  omega

theorem toNat_inj {a b : Bytes n} (h : a.toNat = b.toNat) : a = b :=
  Subtype.ext (le_inj (a.2.trans b.2.symm) h)

theorem toNat_ofNat (n x : Nat) : (ofNat n x).toNat = x % 256^n := le_leBytes n x

/-- a list of the right length -/
def ofList (b : List UInt8) (h : b.length = n) : Bytes n := ⟨b, h⟩

theorem ofList_eq {b : List UInt8} {h : b.length = n} {c : Bytes n} (e : b = c.1) :
    ofList b h = c := Subtype.ext e

def get (b : Bytes n) (i : Nat) : UInt8 := b.1.getD i 0

def set (b : Bytes n) (i : Nat) (v : UInt8) : Bytes n :=
  ⟨b.1.set i v, by rw [List.length_set]; exact b.2⟩

theorem set_toNat (b : Bytes n) {i : Nat} (hi : i < n) (v : UInt8) :
    (b.set i v).toNat + 256^i * (b.get i).toNat = b.toNat + 256^i * v.toNat :=
  le_set b.1 (b.2.symm ▸ hi) v

theorem get_toNat (b : Bytes n) (i : Nat) : (b.get i).toNat = b.toNat / 256^i % 256 :=
  le_getD b.1 i

end Bytes
