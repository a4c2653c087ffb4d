import Mathlib.Data.Fin.Basic
import Mathlib.Data.List.GetD
import Mathlib.Data.List.Range
import Mathlib.Tactic.Common
import Mathlib.Tactic.Ring

/-!
# FIPS 202: Keccak-p[1600, 24], the sponge, SHA3-256

A state array is a function of `x`, `y`, `z`; its bit `(x, y, z)` is bit `64*(5*y + x) + z` of the
string that it stands for.

* `theta`, `rho`, `pi`, `chi`, `iota`   the step mappings;
* `keccakP`         the permutation;
* `absorbed`        the sponge after some of its blocks; `absorbed_append`: what comes later does not
                    matter;
* `sponge`, `sha3_256Bits`, `sha3_256`  on bits and on bytes, low bit first.
-/

namespace Fips202

abbrev StateArray := Fin 5 → Fin 5 → Fin 64 → Bool

/-! ## the step mappings -/

def columnParity (A : StateArray) (x : Fin 5) (z : Fin 64) : Bool :=
  A x 0 z ^^ A x 1 z ^^ A x 2 z ^^ A x 3 z ^^ A x 4 z

def theta (A : StateArray) : StateArray := fun x y z =>
  A x y z ^^ (columnParity A (x - 1) z ^^ columnParity A (x + 1) (z - 1))

def track : Nat → Fin 5 × Fin 5
  | 0 => (1, 0)
  | t+1 => ((track t).2, 2 * (track t).1 + 3 * (track t).2)

/-- the offset of lane number `t` -/
def offset (t : Nat) : Nat := (t + 1) * (t + 2) / 2

/-- lane number `t` is rotated -/
def rhoLane (A : StateArray) (t : Nat) (k : Fin 5 × Fin 5) : Fin 64 → Bool := fun z =>
  A k.1 k.2 (z - Fin.ofNat 64 (offset t))

def rho (A : StateArray) : StateArray := fun x y =>
  (List.range 24).foldl (fun L t k => if k = track t then rhoLane A t k else L k)
    (fun k => A k.1 k.2) (x, y)

def pi (A : StateArray) : StateArray := fun x y z => A (x + 3 * y) x z

def chi (A : StateArray) : StateArray := fun x y z =>
  A x y z ^^ (!A (x + 1) y z && A (x + 2) y z)

def lfsr (R : List Bool) : List Bool :=
  let R := false :: R
  let out := R.getD 8 false
  (R.zipIdx.map fun b => if b.2 ∈ [0, 4, 5, 6] then b.1 ^^ out else b.1).take 8

def rc (t : Nat) : Bool :=
  (lfsr^[t % 255] [true, false, false, false, false, false, false, false]).getD 0 false

def roundConstant (i : Nat) (z : Fin 64) : Bool :=
  (List.range 7).any fun j => z.val = 2^j - 1 && rc (j + 7 * i)

def iota (i : Nat) (A : StateArray) : StateArray := fun x y z =>
  if x = 0 ∧ y = 0 then A x y z ^^ roundConstant i z else A x y z

def round (A : StateArray) (i : Nat) : StateArray := iota i (chi (pi (rho (theta A))))

def keccakP (A : StateArray) : StateArray := (List.range 24).foldl round A

/-! ## the lanes of `rho` and `pi` -/

section
variable {ι κ β : Type} [DecidableEq κ] (key : ι → κ) (g : ι → κ → β)

theorem foldl_assign_other (l : List ι) (a : κ → β) {k : κ} (hk : k ∉ l.map key) :
    l.foldl (fun a t k => if k = key t then g t k else a k) a k = a k := by
  induction l generalizing a with
  | nil => rfl
  | cons t l ih =>
    rw [List.map_cons, List.mem_cons, not_or] at hk
    rw [List.foldl_cons, ih _ hk.2, if_neg hk.1]

theorem foldl_assign (l : List ι) (a : κ → β) (hl : (l.map key).Nodup) {t : ι} (ht : t ∈ l) :
    l.foldl (fun a t k => if k = key t then g t k else a k) a (key t) = g t (key t) := by
  induction l generalizing a with
  | nil => cases ht
  | cons u l ih =>
    obtain ⟨hu, hl⟩ := List.nodup_cons.mp hl
    rw [List.foldl_cons]
    rcases List.mem_cons.mp ht with rfl | ht
    · rw [foldl_assign_other key g l _ hu, if_pos rfl]
    · exact ih _ hl ht

end

theorem track_nodup : ((List.range 24).map track).Nodup := by decide

theorem rho_track (A : StateArray) {t : Nat} (ht : t < 24) :
    rho A (track t).1 (track t).2 = rhoLane A t (track t) :=
  foldl_assign track (rhoLane A) (List.range 24) _ track_nodup (List.mem_range.mpr ht)

theorem rho_zero (A : StateArray) : rho A 0 0 = A 0 0 :=
  foldl_assign_other track (rhoLane A) (List.range 24) _ (by decide)

/-- `pi` moves every lane to the next one -/
theorem pi_track (A : StateArray) (t : Nat) :
    pi A (track (t + 1)).1 (track (t + 1)).2 = A (track t).1 (track t).2 := by
  have hmove : ∀ x y : Fin 5, y + 3 * (2 * x + 3 * y) = x := by decide
  funext z
  rw [pi, track, hmove]

/-- every lane but the first is on the track -/
theorem track_all (x y : Fin 5) : (x, y) = (0, 0) ∨ ∃ t < 24, (x, y) = track (t + 1) := by
  revert x y
  decide

/-! ## the sponge -/

/-- the place of a bit in the string -/
def place (x y : Fin 5) (z : Fin 64) : Nat := 64 * (5 * y.val + x.val) + z.val

/-- the state with a string, zeros after it, added -/
def addString (A : StateArray) (P : List Bool) : StateArray := fun x y z =>
  A x y z ^^ P.getD (place x y z) false

/-- the first `n` bits of the string of a state -/
def trunc (n : Nat) (A : StateArray) : List Bool := (List.range n).map fun i =>
  A (Fin.ofNat 5 (i / 64)) (Fin.ofNat 5 (i / 320)) (Fin.ofNat 64 i)

def block (r : Nat) (P : List Bool) (i : Nat) : List Bool := (P.drop (i * r)).take r

/-- the state after the first `n` blocks -/
def absorbed (r : Nat) (P : List Bool) (n : Nat) : StateArray :=
  (List.range n).foldl (fun A i => keccakP (addString A (block r P i))) fun _ _ _ => false

/-- `pad10*1`: to a multiple of `r`, after `n` bits -/
def pad (r n : Nat) : List Bool :=
  true :: List.replicate ((-(n : Int) - 2) % r).toNat false ++ [true]

/-- `d` bits of the sponge with rate `r` -/
def sponge (r : Nat) (N : List Bool) (d : Nat) : List Bool :=
  let P := N ++ pad r N.length
  ((List.range (d / r + 1)).flatMap fun i =>
    trunc r (keccakP^[i] (absorbed r P (P.length / r)))).take d

/-- capacity 512, and the suffix `01` -/
def sha3_256Bits (M : List Bool) : List Bool := sponge (1600 - 512) (M ++ [false, true]) 256

/-! ## bytes -/

def toBits (m : List UInt8) : List Bool :=
  m.flatMap fun b => (List.range 8).map fun i => b.toNat.testBit i

def toBytes (l : List Bool) : List UInt8 :=
  (List.range (l.length / 8)).map fun i =>
    UInt8.ofNat (Nat.ofBits fun j : Fin 8 => l.getD (8 * i + j) false)

def sha3_256 (m : List UInt8) : List UInt8 := toBytes (sha3_256Bits (toBits m))

/-! ## rules -/

theorem toBits_cons (b : UInt8) (m : List UInt8) :
    toBits (b :: m) = toBits [b] ++ toBits m := by
  rw [toBits, ← List.singleton_append, List.flatMap_append]
  rfl

theorem toBits_append (m n : List UInt8) : toBits (m ++ n) = toBits m ++ toBits n :=
  List.flatMap_append

theorem toBits_length (m : List UInt8) : (toBits m).length = 8 * m.length := by
  induction m with
  | nil => rfl
  | cons b m ih =>
    rw [toBits_cons, List.length_append, ih, List.length_cons, Nat.mul_succ, Nat.add_comm]
    rfl

theorem toBits_replicate (n : Nat) : toBits (List.replicate n 0) = List.replicate (8 * n) false := by
  induction n with
  | zero => rfl
  | succ n ih =>
    rw [List.replicate_succ, toBits_cons, ih, Nat.mul_succ, Nat.add_comm, List.replicate_add]
    rfl

theorem toBits_getD (m : List UInt8) (k : Nat) {j : Nat} (hj : j < 8) :
    (toBits m).getD (8 * k + j) false = (m.getD k 0).toNat.testBit j := by
  induction m generalizing k with
  | nil => simp [toBits]
  | cons b m ih =>
    have hlen : (toBits [b]).length = 8 := toBits_length [b]
    rw [toBits_cons]
    cases k with
    | zero =>
      rw [List.getD_append _ _ _ _ (by omega), List.getD_cons_zero]
      have hb : toBits [b] = (List.range 8).map fun i => b.toNat.testBit i := List.append_nil _
      rw [hb, Nat.mul_zero, Nat.zero_add, List.getD_eq_getElem _ _ (by simpa using hj),
        List.getElem_map, List.getElem_range]
    | succ k =>
      rw [List.getD_append_right _ _ _ _ (by omega), hlen,
        show 8 * (k + 1) + j - 8 = 8 * k + j by omega, ih, List.getD_cons_succ]

theorem toBits_drop (m : List UInt8) (k : Nat) : (toBits m).drop (8 * k) = toBits (m.drop k) := by
  induction k generalizing m with
  | zero => rfl
  | succ k ih =>
    cases m with
    | nil => exact List.drop_nil
    | cons b m =>
      have hlen : (toBits [b]).length = 8 := toBits_length [b]
      rw [toBits_cons, List.drop_append, hlen, List.drop_eq_nil_of_le (by omega), List.nil_append,
        show 8 * (k + 1) - 8 = 8 * k by omega, ih, List.drop_succ_cons]

theorem toBits_take (m : List UInt8) (k : Nat) : (toBits m).take (8 * k) = toBits (m.take k) := by
  have h := List.take_append_drop k m
  conv_lhs => rw [← h, toBits_append]
  by_cases hk : k ≤ m.length
  · rw [List.take_append_of_le_length, List.take_of_length_le]
    · rw [toBits_length, List.length_take, min_eq_left hk]
    · rw [toBits_length, List.length_take, min_eq_left hk]
  · rw [List.take_of_length_le (by rw [List.length_append, toBits_length, toBits_length,
      List.length_take, List.length_drop]; omega), List.drop_eq_nil_of_le (by omega)]
    exact List.append_nil _

theorem block_toBits (n : Nat) (m : List UInt8) (i : Nat) :
    block (8 * n) (toBits m) i = toBits ((m.drop (i * n)).take n) := by
  rw [block, show i * (8 * n) = 8 * (i * n) by ring, toBits_drop, toBits_take]

theorem absorbed_succ (r : Nat) (P : List Bool) (n : Nat) :
    absorbed r P (n + 1) = keccakP (addString (absorbed r P n) (block r P n)) := by
  rw [absorbed, absorbed, List.range_succ, List.foldl_append, List.foldl_cons, List.foldl_nil]

theorem absorbed_append {r : Nat} {P : List Bool} (Q : List Bool) {n : Nat} (hn : n * r ≤ P.length) :
    absorbed r (P ++ Q) n = absorbed r P n := by
  induction n with
  | zero => rw [absorbed, absorbed, List.range_zero, List.foldl_nil, List.foldl_nil]
  | succ n ih =>
    rw [Nat.succ_mul] at hn
    have hblock : block r (P ++ Q) n = block r P n := by
      rw [block, block, List.drop_append_of_le_length (by omega),
        List.take_append_of_le_length (by rw [List.length_drop]; omega)]
    rw [absorbed_succ, absorbed_succ, ih (by omega), hblock]

theorem toBytes_length (l : List Bool) : (toBytes l).length = l.length / 8 := by
  rw [toBytes, List.length_map, List.length_range]

theorem toBytes_testBit (l : List Bool) {k j : Nat} (hk : k < l.length / 8) (hj : j < 8) :
    ((toBytes l).getD k 0).toNat.testBit j = l.getD (8 * k + j) false := by
  rw [toBytes, List.getD_eq_getElem _ _ (by simpa using hk), List.getElem_map, List.getElem_range,
    UInt8.toNat_ofNat', Nat.testBit_mod_two_pow, decide_eq_true hj, Bool.true_and,
    Nat.testBit_ofBits_lt _ _ hj]

/-- the output comes from one squeeze when the rate is larger -/
theorem sponge_eq {r d : Nat} (hd : d < r) (N : List Bool) : sponge r N d =
    trunc d (absorbed r (N ++ pad r N.length) ((N ++ pad r N.length).length / r)) := by
  rw [sponge, Nat.div_eq_of_lt hd]
  generalize absorbed r (N ++ pad r N.length) _ = S
  have hone : List.range (0 + 1) = [0] := rfl
  rw [hone, List.flatMap_singleton, Function.iterate_zero, id_eq, trunc, trunc, ← List.map_take,
    List.take_range, min_eq_left hd.le]

def paddedBits (M : List Bool) : List Bool := M ++ [false, true] ++ pad 1088 (M.length + 2)

theorem sha3_256Bits_eq (M : List Bool) : sha3_256Bits M =
    trunc 256 (absorbed 1088 (paddedBits M) ((paddedBits M).length / 1088)) := by
  rw [sha3_256Bits, sponge_eq (by decide), List.length_append, paddedBits]
  rfl

end Fips202
