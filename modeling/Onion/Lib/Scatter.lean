import Mathlib.Data.List.Perm.Basic
import Mathlib.Data.List.Nodup

/-!
# Writes to a buffer, in any order

Threads that write to different places of one buffer, and read none of them, leave the same buffer
in whatever order the writes land.

* `scatter`        writes, one after the other;
* `writesAt`       a list written from an offset on;
* `blocks_slice`   blocks of one length, and where they are;
* `scatter_perm`   the order of writes at different places does not matter;
* `scatter_full`   a buffer that is written once everywhere.
-/

variable {α : Type}

/-- writes to a buffer, in their order -/
def scatter (buf : List α) (ws : List (Nat × α)) : List α :=
  ws.foldl (fun b w => b.set w.1 w.2) buf

/-- the writes of a list, from offset `ofs` on -/
def writesAt : Nat → List α → List (Nat × α)
  | _, [] => []
  | ofs, a :: l => (ofs, a) :: writesAt (ofs + 1) l

theorem writesAt_append (ofs : Nat) (l m : List α) :
    writesAt ofs (l ++ m) = writesAt ofs l ++ writesAt (ofs + l.length) m := by
  induction l generalizing ofs with
  | nil => rfl
  | cons a l ih =>
    rw [List.cons_append, writesAt, ih, writesAt, List.cons_append, List.length_cons]
    congr 3
    omega

/-! ## blocks of one length -/

section
variable (f : Nat → List α) {len : Nat} (hlen : ∀ i, (f i).length = len)
include hlen

theorem blocks_length (n : Nat) : ((List.range n).flatMap f).length = n * len := by
  induction n with
  | zero => simp
  | succ n ih =>
    rw [List.range_succ, List.flatMap_append, List.length_append, ih, List.flatMap_singleton, hlen,
      Nat.succ_mul]

theorem writesAt_blocks (ofs n : Nat) : writesAt ofs ((List.range n).flatMap f) =
    (List.range n).flatMap fun i => writesAt (ofs + i * len) (f i) := by
  induction n with
  | zero => rfl
  | succ n ih =>
    rw [List.range_succ, List.flatMap_append, List.flatMap_append, writesAt_append, ih,
      blocks_length f hlen, List.flatMap_singleton, List.flatMap_singleton]

theorem blocks_slice {n i : Nat} (hi : i < n) :
    (((List.range n).flatMap f).drop (i * len)).take len = f i := by
  obtain ⟨m, rfl⟩ : ∃ m, n = i + (m + 1) := ⟨n - i - 1, by omega⟩
  rw [List.range_add, List.flatMap_append, List.drop_append_of_le_length
    (Nat.le_of_eq (blocks_length f hlen i).symm), ← blocks_length f hlen i, List.drop_length,
    List.nil_append, List.range_succ_eq_map, List.map_cons, List.flatMap_cons, Nat.add_zero,
    ← hlen i, List.take_left']
  rfl

end

theorem rows_slice (f : Nat → Nat → List α) {len : Nat} (hlen : ∀ c i, (f c i).length = len)
    {n m c i : Nat} (hc : c < n) (hi : i < m) :
    (((List.range n).flatMap fun c => (List.range m).flatMap (f c)).drop (c * (m * len) + i * len)).take
      len = f c i := by
  have hrow := blocks_slice (fun c => (List.range m).flatMap (f c))
    (fun c => blocks_length (f c) (hlen c) m) hc
  have hblock := blocks_slice (f c) (hlen c) hi
  have hle : (i + 1) * len ≤ m * len := Nat.mul_le_mul_right len hi
  rw [Nat.succ_mul] at hle
  rw [← hrow, List.drop_take, List.take_take, List.drop_drop, Nat.min_eq_left (by omega)] at hblock
  exact hblock

/-! ## the order of the writes -/

theorem writesAt_keys (ofs : Nat) (l : List α) :
    (writesAt ofs l).map Prod.fst = List.range' ofs l.length := by
  induction l generalizing ofs with
  | nil => rfl
  | cons a l ih => rw [writesAt, List.map_cons, ih, List.length_cons, List.range'_succ]

/-- **Any order**: writes at different places commute. -/
theorem scatter_perm {ws vs : List (Nat × α)} (h : ws.Perm vs) (hn : (ws.map Prod.fst).Nodup)
    (buf : List α) : scatter buf ws = scatter buf vs := by
  refine h.foldl_eq' (fun x hx y hy b => ?_) buf
  by_cases hxy : x.1 = y.1
  · rw [List.inj_on_of_nodup_map hn hx hy hxy]
  · exact List.set_comm _ _ hxy

theorem scatter_writesAt (pre buf l : List α) (hlen : buf.length = l.length) :
    scatter (pre ++ buf) (writesAt pre.length l) = pre ++ l := by
  induction l generalizing pre buf with
  | nil => rw [List.eq_nil_of_length_eq_zero hlen]; rfl
  | cons a l ih =>
    cases buf with
    | nil => cases hlen
    | cons b buf =>
      have hstep := ih (pre ++ [a]) buf (Nat.succ.inj hlen)
      rw [List.length_append, List.length_singleton, List.append_assoc, List.append_assoc] at hstep
      rw [writesAt, scatter, List.foldl_cons]
      dsimp only
      rw [List.set_append_right _ _ (Nat.le_refl _), Nat.sub_self, List.set_cons_zero]
      exact hstep

/-- a buffer in which every place is written once, in any order -/
theorem scatter_full {ws : List (Nat × α)} {buf l : List α} (h : ws.Perm (writesAt 0 l))
    (hlen : buf.length = l.length) : scatter buf ws = l := by
  rw [← scatter_perm h.symm (by rw [writesAt_keys]; exact List.nodup_range') buf]
  exact scatter_writesAt [] buf l hlen
