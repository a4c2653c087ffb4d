import Onion.Crypto.BatchInvert
import Onion.Crypto.GeArith

/-!
# A stepper walks the multiples of `8B`

* `scalarAdd8i_adds`   the scalar of a candidate;
* `Exact`              what a stepper needs of its operations: exact in every lane;
* `Walking`            the invariant of a stepper that has written `c` outputs;
* `nextBatch_ok`       one call writes the next `n` outputs of every lane and keeps the invariant;
* `nextBatches_ok`     any sequence of calls.
-/

namespace Onion
open Logged

/-! ## scalars -/

theorem addCarry_le (b : List UInt8) (c : Nat) : le (addCarry b c) = (le b + c) % 256^b.length := by
  induction b generalizing c with
  | nil => simp [addCarry, le_nil, Nat.mod_one]
  | cons x xs ih =>
    have hx := x.toNat_lt
    have h255 : (0xff : Nat) = 2^8 - 1 := rfl
    rw [addCarry]
    split
    · rename_i h
      rw [h, Nat.add_zero, Nat.mod_eq_of_lt (le_lt _)]
    · rw [le_cons, le_cons, ih, List.length_cons, pow_succ', Nat.mod_mul, UInt8.toNat_ofNat', h255,
        Nat.and_two_pow_sub_one_eq_mod, Nat.and_two_pow_sub_one_eq_mod, Nat.shiftRight_eq_div_pow,
        Nat.shiftRight_eq_div_pow]
      have e : (x.toNat + 256 * le xs + c) / 256
          = le xs + (c / 2^8 + (x.toNat + c % 2^8) / 2^8) := by omega
      rw [e]
      omega

theorem scalarAdd8i_toNat (a0 : Bytes 32) (i : Nat) :
    (scalarAdd8i a0 i).toNat = (a0.toNat + i * 8 % 2^64) % 2^256 := by
  have h : (256:Nat)^32 = 2^256 := rfl
  show le (addCarry a0.1 _) = _
  rw [addCarry_le, a0.2, h]
  rfl

theorem scalarAdd8i_exact (a0 : Bytes 32) {i : Nat} (hi : i < 2^61) :
    scalarAdd8i a0 i = Bytes.ofNat 32 (a0.toNat + 8 * i) := by
  refine Bytes.toNat_inj ?_
  rw [scalarAdd8i_toNat, Bytes.toNat_ofNat, Nat.mod_eq_of_lt (by omega : i * 8 < 2^64), Nat.mul_comm]
  rfl

/-- **The scalar of candidate `i`** is `a0 + 8*i`, with its low three bits, and no other candidate
of the walk has it; only a carry out of bit 255 could be lost. -/
theorem scalarAdd8i_adds (a0 : Bytes 32) {i : Nat} (hi : i < 2^61) :
    scalarAdd8i a0 i = Bytes.ofNat 32 ((a0.toNat + 8 * i) % 2^256) ∧
      (a0.toNat.testBit 255 = false → (scalarAdd8i a0 i).toNat = a0.toNat + 8 * i) ∧
      (∀ k < 3, (scalarAdd8i a0 i).toNat.testBit k = a0.toNat.testBit k) ∧
      ∀ j < 2^61, scalarAdd8i a0 j = scalarAdd8i a0 i → j = i := by
  have hval : ∀ j < 2^61, (scalarAdd8i a0 j).toNat = (a0.toNat + 8 * j) % 2^256 := by
    intro j hj
    rw [scalarAdd8i_exact a0 hj, Bytes.toNat_ofNat]
    rfl
  refine ⟨?_, ?_, ?_, ?_⟩
  · apply Bytes.toNat_inj
    rw [hval i hi, Bytes.toNat_ofNat]
    exact (Nat.mod_mod _ _).symm
  · intro h
    have hlt := Bytes.toNat_lt_of_testBit h
    rw [hval i hi]
    exact Nat.mod_eq_of_lt (by omega)
  · intro k hk
    have hmod : (scalarAdd8i a0 i).toNat % 2^3 = a0.toNat % 2^3 := by
      rw [hval i hi]
      omega
    have hlow (n : Nat) : n.testBit k = (n % 2^3).testBit k := by
      rw [Nat.testBit_mod_two_pow, decide_eq_true hk, Bool.true_and]
    rw [hlow, hmod, ← hlow]
  · intro j hj h
    have e := congrArg Bytes.toNat h
    rw [hval i hi, hval j hj] at e
    omega

/-- a carry through all 32 bytes, and one that is lost -/
theorem scalarAdd8i_adds_ripple :
    (scalarAdd8i (Bytes.ofNat 32 (2^255 - 1)) 1).toNat = 2^255 + 7 ∧
      (scalarAdd8i (Bytes.ofNat 32 (2^256 - 1)) 1) = Bytes.ofNat 32 7 := by
  have hlow := (scalarAdd8i_adds (Bytes.ofNat 32 (2^255 - 1)) (show 1 < 2^61 by norm_num)).2.1
  have hhigh := (scalarAdd8i_adds (Bytes.ofNat 32 (2^256 - 1)) (show 1 < 2^61 by norm_num)).1
  rw [Bytes.toNat_ofNat] at hlow hhigh
  exact ⟨(hlow (by decide)).trans (by decide), hhigh.trans (congrArg _ (by decide))⟩

/-! ## the points of a walk -/

/-- the point of candidate `k` of the walk from `a` -/
def walkPoint (a k : Nat) : EdPoint := (a + 8 * k) • basePoint

theorem walkPoint_succ (a k : Nat) : walkPoint a k + 8 • basePoint = walkPoint a (k + 1) := by
  rw [walkPoint, walkPoint, ← add_smul, Nat.add_assoc, ← Nat.mul_succ]

/-- the outputs of a batch of `n` after `c` candidates of the walk from `a` -/
def walkBytes (a c n : Nat) : List (Bytes 32) :=
  (List.range n).map fun k => canonBytes (walkPoint a (c + k)).y

@[simp] theorem walkBytes_length (a c n : Nat) : (walkBytes a c n).length = n :=
  quotientBytes_length (fun k => (walkPoint a (c + k)).y) n

theorem walkBytes_getElem? {a c n k : Nat} (hk : k < n) :
    (walkBytes a c n)[k]? = some (canonBytes (walkPoint a (c + k)).y) :=
  quotientBytes_getElem? (fun k => (walkPoint a (c + k)).y) hk

/-! ## exact operations -/

section
variable {P Q E O L : Type}

/-- the operations of a stepper compute exactly in every lane `L` -/
structure Exact (ops : StepOps P Q E O) (L : Type) where
  good : E → Prop
  val : E → L → Fp
  /-- the point stands, in each lane, for a point of the curve -/
  rep : P → (L → EdPoint) → Prop
  /-- the addend stands for the same point in each lane -/
  addend : Q → EdPoint → Prop
  read : O → L → List (Bytes 32)
  slot : ∀ {p A}, rep p A → good (ops.Y p) ∧ good (ops.Z p) ∧
    ∀ l, val (ops.Z p) l ≠ 0 ∧ val (ops.Y p) l = (A l).y * val (ops.Z p) l
  madd : ∀ {p A q S}, rep p A → addend q S → Ok (ops.madd p q) fun r => rep r fun l => A l + S
  mul : ExactMul ops.mul good val
  invert : ∀ {z}, good z → Ok (ops.invert z) fun r => good r ∧ ∀ l, val r l = (val z l)⁻¹
  store : ∀ {out i y}, good y → (∀ l, i < (read out l).length) → Ok (ops.store out i y) fun out' =>
    ∀ l, read out' l = (read out l).set i (canonBytes (val y l))

variable {ops : StepOps P Q E O} (ex : Exact ops L)

/-- the field operations by themselves -/
def Exact.field : ExactField ops L := ⟨ex.good, ex.val, ex.read, ex.mul, ex.invert, ex.store⟩

/-- `st` walks from `a l` in lane `l`, and has written `c` outputs -/
structure Walking (a : L → Nat) (c : Nat) (st : Stepper P Q E) : Prop where
  cur : ex.rep st.cur fun l => walkPoint (a l) c
  step : ex.addend st.step8b (8 • basePoint)
  consumed : st.consumed = c % 2^64
  z_len : st.z.length = st.ys.length
  prefix_len : st.prefix_.length = st.ys.length

variable {a : L → Nat} {c n : Nat} {st : Stepper P Q E}

theorem Walking.resize (h : Walking ex a c st) (n : Nat) :
    Walking ex a c (st.resize ops.zero n) ∧ n ≤ (st.resize ops.zero n).ys.length := by
  unfold Stepper.resize
  split
  · rename_i hn
    have hy := vgrow_length st.ys n ops.zero hn.le
    refine ⟨⟨h.cur, h.step, h.consumed, ?_, ?_⟩, hy.ge⟩
    · exact (vgrow_length _ _ _ (by rw [h.z_len]; exact hn.le)).trans hy.symm
    · exact (vgrow_length _ _ _ (by rw [h.prefix_len]; exact hn.le)).trans hy.symm
  · exact ⟨h, by omega⟩

/-! ## the first loop of a batch -/

/-- the elements kept for one candidate: `y = Y / Z` is still to be divided out -/
structure Slot (A : L → EdPoint) (y z : E) : Prop where
  y_good : ex.good y
  z_good : ex.good z
  z_ne : ∀ l, ex.val z l ≠ 0
  y_eq : ∀ l, ex.val y l = (A l).y * ex.val z l

/-- after `i` rounds of the first loop -/
structure Walked (a : L → Nat) (c m i : Nat) (st : Stepper P Q E) : Prop where
  cur : ex.rep st.cur fun l => walkPoint (a l) (c + i)
  step : ex.addend st.step8b (8 • basePoint)
  consumed : st.consumed = c % 2^64
  ys_len : st.ys.length = m
  z_len : st.z.length = m
  prefix_len : st.prefix_.length = m
  slot : ∀ k < i, Slot ex (fun l => walkPoint (a l) (c + k)) (st.ys.getD k ops.zero)
    (st.z.getD k ops.zero)

theorem walkStep_ok {m i : Nat} (hi : i < m) (h : Walked ex a c m i st) :
    Ok (walkStep ops i st) (Walked ex a c m (i + 1)) := by
  refine (vset_ok (h.ys_len.symm ▸ hi)).bind fun ys eys => ?_
  refine (vset_ok (h.z_len.symm ▸ hi)).bind fun z ez => ?_
  refine (ex.madd h.cur h.step).bind fun cur' hcur' => Holds.pure ?_
  simp only [walkPoint_succ] at hcur'
  refine ⟨hcur', h.step, h.consumed, ?_, ?_, h.prefix_len, fun k hk => ?_⟩
  · simp only [eys, List.length_set, h.ys_len]
  · simp only [ez, List.length_set, h.z_len]
  simp only [eys, ez]
  by_cases hki : i = k
  · subst hki
    rw [getD_set_self (h.ys_len.symm ▸ hi), getD_set_self (h.z_len.symm ▸ hi)]
    obtain ⟨hy, hz, hl⟩ := ex.slot h.cur
    exact ⟨hy, hz, fun l => (hl l).1, fun l => (hl l).2⟩
  · rw [getD_set_ne hki, getD_set_ne hki]
    exact h.slot k (by omega)

theorem Slot.divides {A : L → EdPoint} {y z : E} (h : Slot ex A y z) :
    Divides ex.field (fun l => (A l).y) y z := ⟨h.y_good, h.z_good, h.z_ne, h.y_eq⟩

/-! ## whole batches -/

/-- **One batch**: every lane receives the next `n` outputs of its walk. -/
theorem nextBatch_ok (h : Walking ex a c st) {out : O} (hpos : 0 < n) (hlt : n < 2^64)
    (hout : ∀ l, n ≤ (ex.read out l).length) :
    Ok (st.nextBatchImpl ops out n) fun r => Walking ex a (c + n) r.1 ∧
      ∀ l, ex.read r.2 l = walkBytes (a l) c n ++ (ex.read out l).drop n := by
  obtain ⟨hres, hlen⟩ := h.resize ex n
  have h0 : Walked ex a c (st.resize ops.zero n).ys.length 0 (st.resize ops.zero n) :=
    ⟨hres.cur, hres.step, hres.consumed, rfl, hres.z_len, hres.prefix_len,
      fun k hk => absurd hk (by omega)⟩
  rw [nextBatchImpl_eq]
  refine (Holds.forUp (Walked ex a c _) n h0 fun i s hi hs =>
    walkStep_ok ex (hi.trans_le hlen) hs).bind fun st' hw => ?_
  have hys := hw.ys_len
  have hz := hw.z_len
  have hp := hw.prefix_len
  refine (batchInvert_ok ex.field hpos hlt (by omega) (by omega) (by omega) hout fun k hk =>
    (hw.slot k hk).divides).bind fun r ⟨hlen', hr⟩ => Holds.pure ⟨⟨hw.cur, hw.step, ?_, ?_, ?_⟩, hr⟩
  · show (st'.consumed + n) % 2^64 = (c + n) % 2^64
    rw [hw.consumed, Nat.mod_add_mod]
  · exact hz.trans hys.symm
  · exact hlen'.trans (hp.trans hys.symm)

/-- what a lane receives over a sequence of calls: the counter before each call, and the buffer -/
def walkCalls (a c : Nat) : List (List (Bytes 32) × Nat) → List (Nat × List (Bytes 32))
  | [] => []
  | (out, n) :: calls => (c % 2^64, walkBytes a c n ++ out.drop n) :: walkCalls a (c + n) calls

/-- **Any sequence of batches**, of any sizes. -/
theorem nextBatches_ok (h : Walking ex a c st) (calls : List (O × Nat))
    (hcalls : ∀ call ∈ calls, 0 < call.2 ∧ call.2 < 2^64 ∧
      ∀ l, call.2 ≤ (ex.read call.1 l).length) :
    Ok (st.nextBatches ops calls) fun r => Walking ex a (c + (calls.map Prod.snd).sum) r.1 ∧
      ∀ l, r.2.map (Prod.map id (ex.read · l))
        = walkCalls (a l) c (calls.map (Prod.map (ex.read · l) id)) := by
  induction calls generalizing c st with
  | nil => exact Holds.pure ⟨h, fun _ => rfl⟩
  | cons call calls ih =>
    obtain ⟨h1, h2, h3⟩ := hcalls call List.mem_cons_self
    refine (nextBatch_ok ex h h1 h2 h3).bind fun r ⟨hr, er⟩ => ?_
    refine (ih hr fun o ho => hcalls o (List.mem_cons_of_mem _ ho)).bind fun rest ⟨hw, hl⟩ => ?_
    refine Holds.pure ⟨?_, fun l => ?_⟩
    · rwa [List.map_cons, List.sum_cons, ← Nat.add_assoc]
    · rw [List.map_cons, List.map_cons, hl l]
      simp only [Prod.map, id, walkCalls, h.consumed, er]

end

end Onion
