import Onion.Crypto.Sha3
import Onion.Lib.Fips202

/-!
# `sha3.cpp` computes the SHA3-256 of FIPS 202

* `view`            the state array that the lanes stand for;
* `view_theta`, `view_rhoPi`, `view_chi`, `view_iota`, `view_keccakf`   the steps;
* `Absorbs`         the invariant of a `Sha3_256` that was given a message;
* `Absorbs.updates`, `finalize_eq`, `update_chunks`   every sequence of updates.
-/

namespace Onion

def laneBit (x : UInt64) (z : Nat) : Bool := x.toBitVec.getLsbD z

def view (st : Lanes) : Fips202.StateArray := fun x y z => laneBit (lane5 st y x) z

/-! ## lanes -/

theorem laneBit_xor (a b : UInt64) (z : Nat) : laneBit (a ^^^ b) z = (laneBit a z ^^ laneBit b z) := by
  rw [laneBit, UInt64.toBitVec_xor, BitVec.getLsbD_xor]
  rfl

theorem laneBit_and (a b : UInt64) (z : Nat) : laneBit (a &&& b) z = (laneBit a z && laneBit b z) := by
  rw [laneBit, UInt64.toBitVec_and, BitVec.getLsbD_and]
  rfl

theorem laneBit_or (a b : UInt64) (z : Nat) : laneBit (a ||| b) z = (laneBit a z || laneBit b z) := by
  rw [laneBit, UInt64.toBitVec_or, BitVec.getLsbD_or]
  rfl

theorem laneBit_not (a : UInt64) {z : Nat} (hz : z < 64) : laneBit (~~~a) z = !laneBit a z := by
  rw [laneBit, UInt64.toBitVec_not, BitVec.getLsbD_not, decide_eq_true hz, Bool.true_and]
  rfl

theorem laneBit_ge (a : UInt64) {z : Nat} (hz : 64 ≤ z) : laneBit a z = false :=
  BitVec.getLsbD_of_ge a.toBitVec z hz

theorem laneBit_shiftLeft (a : UInt64) {n z : Nat} (hn : n < 64) (hz : z < 64) :
    laneBit (a <<< UInt64.ofNat n) z = (decide (n ≤ z) && laneBit a (z - n)) := by
  show (a <<< UInt64.ofNat n).toNat.testBit z = _
  rw [UInt64.toNat_shiftLeft, UInt64.toNat_ofNat_of_lt' (show n < 2^64 by omega), Nat.mod_eq_of_lt hn,
    Nat.testBit_mod_two_pow, decide_eq_true hz, Bool.true_and, Nat.testBit_shiftLeft]
  rfl

theorem laneBit_shiftRight (a : UInt64) {n : Nat} (z : Nat) (hn : n < 64) :
    laneBit (a >>> UInt64.ofNat n) z = laneBit a (n + z) := by
  show (a >>> UInt64.ofNat n).toNat.testBit z = _
  rw [UInt64.toNat_shiftRight, UInt64.toNat_ofNat_of_lt' (show n < 2^64 by omega), Nat.mod_eq_of_lt hn,
    Nat.testBit_shiftRight]
  rfl

theorem laneBit_rotl (a : UInt64) {n : Nat} (h0 : 0 < n) (hn : n < 64) (z : Fin 64) :
    laneBit (rotl64 a (UInt64.ofNat n)) z = laneBit a (z - Fin.ofNat 64 n : Fin 64).val := by
  have hsub : 64 - UInt64.ofNat n = UInt64.ofNat (64 - n) := by
    apply UInt64.toNat_inj.mp
    rw [UInt64.toNat_sub_of_le _ _ (UInt64.le_iff_toNat_le.mpr ?_),
      UInt64.toNat_ofNat_of_lt' (show n < 2^64 by omega),
      UInt64.toNat_ofNat_of_lt' (show 64 - n < 2^64 by omega)]
    · rfl
    · rw [UInt64.toNat_ofNat_of_lt' (show n < 2^64 by omega)]
      exact hn.le
  have hz := z.isLt
  have hval : (z - Fin.ofNat 64 n).val = (64 - n + z) % 64 := by
    rw [Fin.sub_def]
    simp only [Fin.val_ofNat, Nat.mod_eq_of_lt hn]
  rw [rotl64, hsub, laneBit_or, laneBit_shiftLeft a hn hz, laneBit_shiftRight a z (by omega), hval]
  by_cases hle : n ≤ z
  · rw [decide_eq_true hle, laneBit_ge a (show 64 ≤ 64 - n + z.val by omega), Bool.or_false,
      Bool.true_and, show (64 - n + z.val) % 64 = z - n by omega]
  · rw [decide_eq_false hle, Bool.false_and, Bool.false_or,
      Nat.mod_eq_of_lt (show 64 - n + z.val < 64 by omega)]

/-- the row and the lane both wrap around -/
theorem lane5_mod (st : Lanes) (j i : Nat) : lane5 st (j % 5) (i % 5) = lane5 st j i := by
  rw [lane5, lane5]
  simp only [Nat.mod_mod]

def lanePlace (y x : Fin 5) : Fin 25 := ⟨5 * y.val + x.val, by omega⟩

theorem lane5_eq (st : Lanes) (y x : Fin 5) : lane5 st y x = st[lanePlace y x] := by
  have hplace : (⟨5 * (y.val % 5) + x.val % 5, by omega⟩ : Fin 25) = lanePlace y x := by
    rw [lanePlace]
    congr 1
    omega
  rw [lane5, hplace]
  rfl

theorem getElem_place (st : Lanes) {k : Fin 25} {y x : Fin 5} (hk : k = lanePlace y x) :
    st[k] = lane5 st y x := by
  subst hk
  exact (lane5_eq st y x).symm

theorem lane5_ofFn (f : Fin 25 → UInt64) (y x : Fin 5) :
    lane5 (Vector.ofFn f) y x = f (lanePlace y x) :=
  (lane5_eq _ y x).trans (Vector.getElem_ofFn_fin f _)

/-! ## the steps -/

theorem parity_view (st : Lanes) (i : Nat) (x : Fin 5) (hx : i % 5 = x) (z : Fin 64) :
    laneBit (parity st i) z = Fips202.columnParity (view st) x z := by
  have hlane : ∀ j, lane5 st j i = lane5 st j x := fun j => by
    rw [← lane5_mod, hx, ← lane5_mod st j x, Nat.mod_eq_of_lt x.isLt]
  rw [parity, laneBit_xor, laneBit_xor, laneBit_xor, laneBit_xor, hlane, hlane, hlane, hlane, hlane]
  rfl

theorem wrap_add (x y : Fin 5) (n : Nat) :
    (5 * y.val + x.val + n) % 5 = (x + Fin.ofNat 5 n : Fin 5).val := by
  rw [Fin.add_def]
  simp only [Fin.val_ofNat]
  omega

theorem view_theta (st : Lanes) : view (theta st) = Fips202.theta (view st) := by
  funext x y z
  have hx := x.isLt
  have hleft : (5 * y.val + x.val + 4) % 5 = (x - 1 : Fin 5).val := by
    rw [wrap_add, show x - 1 = x + Fin.ofNat 5 4 by revert x; decide]
  have hright : (5 * y.val + x.val + 1) % 5 = (x + 1 : Fin 5).val := wrap_add x y 1
  rw [view, theta, lane5_ofFn, ← lane5_eq, laneBit_xor, laneBit_xor, lanePlace,
    parity_view st _ _ hleft, show (1 : UInt64) = UInt64.ofNat 1 from rfl,
    laneBit_rotl _ (by decide) (by decide), parity_view st _ _ hright]
  rfl

theorem view_chi (st : Lanes) : view (chi st) = Fips202.chi (view st) := by
  funext x y z
  have hdiv : (5 * y.val + x.val) / 5 = y.val := by omega
  have hlane : ∀ n, lane5 st y (5 * y.val + x.val + n) = lane5 st y (x + Fin.ofNat 5 n : Fin 5).val :=
    fun n => by rw [← lane5_mod, wrap_add, Nat.mod_eq_of_lt y.isLt]
  rw [view, chi, lane5_ofFn, ← lane5_eq, laneBit_xor, laneBit_and, lanePlace, hdiv, hlane, hlane,
    laneBit_not _ z.isLt]
  rfl

theorem lane5_set (st : Lanes) (k : Fin 25) (v : UInt64) (y x : Fin 5) :
    lane5 (st.set k v) y x = if k.val = 5 * y.val + x.val then v else lane5 st y x := by
  rw [lane5_eq, lane5_eq]
  exact Vector.getElem_set _ _

theorem view_iota (st : Lanes) {i : Nat} (hi : i < 24) :
    view (iota (kRoundConstants.getD i 0) st) = Fips202.iota i (view st) := by
  have hrc : ∀ i < 24, ∀ z : Fin 64,
      laneBit (kRoundConstants.getD i 0) z = Fips202.roundConstant i z := by decide +kernel
  funext x y z
  have h0 : st[0] = lane5 st 0 0 := (lane5_eq st 0 0).symm
  have hiff : (0 : Fin 25).val = 5 * y.val + x.val ↔ x = 0 ∧ y = 0 := by
    rw [Fin.ext_iff, Fin.ext_iff]
    show 0 = 5 * y.val + x.val ↔ x.val = 0 ∧ y.val = 0
    omega
  have hlane : lane5 (iota (kRoundConstants.getD i 0) st) y x =
      if x = 0 ∧ y = 0 then st[0] ^^^ kRoundConstants.getD i 0 else lane5 st y x := by
    rw [iota]
    exact (lane5_set st 0 _ y x).trans (if_congr hiff rfl rfl)
  rw [view, hlane, Fips202.iota]
  split
  · rename_i hxy
    rw [laneBit_xor, hrc i hi z, h0, hxy.1, hxy.2]
    rfl
  · rfl

/-! ## rho and pi -/

/-- a pass that displaces: every place of the list takes what was at the place before it -/
theorem foldl_displace {α β : Type} {n : Nat} (f : α → β → α) (l : List (Fin n × β))
    (hl : (l.map Prod.fst).Nodup) (v : Vector α n) (a : α) :
    let r := (l.foldl (fun (s : Vector α n × α) jb => (s.1.set jb.1 (f s.2 jb.2), s.1[jb.1])) (v, a)).1
    (∀ k : Fin n, k ∉ l.map Prod.fst → r[k] = v[k]) ∧
      ∀ (i : Nat) (hi : i < l.length),
        r[(l[i]).1] = f (if i = 0 then a else v[(l[i - 1]).1]) (l[i]).2 := by
  induction l generalizing v a with
  | nil => exact ⟨fun _ _ => rfl, nofun⟩
  | cons jb l ih =>
    intro r
    obtain ⟨hj, hl⟩ := List.nodup_cons.mp hl
    obtain ⟨hrest, hplaces⟩ := ih hl (v.set jb.1 (f a jb.2)) v[jb.1]
    have hother : ∀ k : Fin n, k ≠ jb.1 → (v.set jb.1 (f a jb.2))[k] = v[k] := fun k hk =>
      Vector.getElem_set_fin_ne hk _ _
    constructor
    · intro k hk
      rw [List.map_cons, List.mem_cons, not_or] at hk
      exact (hrest k hk.2).trans (hother k hk.1)
    · intro i hi
      cases i with
      | zero => exact (hrest jb.1 hj).trans (Vector.getElem_set_fin_self _ _ _)
      | succ i =>
        have hlt : i < l.length := Nat.lt_of_succ_lt_succ hi
        refine (hplaces i hlt).trans (congrArg (f · (l[i]).2) ?_)
        cases i with
        | zero => rfl
        | succ i =>
          refine hother _ fun e => hj ?_
          rw [← e]
          exact List.mem_map_of_mem (List.getElem_mem _)

theorem kPiln_nodup : ((kPiln.zip kRotc).map Prod.fst).Nodup := by decide

/-- the tables of `sha3.cpp`: the places and the offsets of the track -/
theorem tables_track : ∀ t (ht : t < (kPiln.zip kRotc).length),
    (kPiln.zip kRotc)[t].1 = lanePlace (Fips202.track (t + 1)).2 (Fips202.track (t + 1)).1 ∧
    (kPiln.zip kRotc)[t].2 = UInt64.ofNat (Fips202.offset t % 64) ∧ 0 < Fips202.offset t % 64 := by
  decide

theorem rhoPi_track (st : Lanes) {t : Nat} (ht : t < 24) :
    lane5 (rhoPi st) (Fips202.track (t + 1)).2 (Fips202.track (t + 1)).1 =
      rotl64 (lane5 st (Fips202.track t).2 (Fips202.track t).1)
        (UInt64.ofNat (Fips202.offset t % 64)) := by
  obtain ⟨hplace, hrot, -⟩ := tables_track t ht
  have hstep := (foldl_displace rotl64 (kPiln.zip kRotc) kPiln_nodup st st[1]).2 t ht
  rw [← hrot]
  refine (getElem_place _ hplace).symm.trans (hstep.trans (congrArg (rotl64 · _) ?_))
  cases t with
  | zero => exact (lane5_eq st 0 1).symm
  | succ t =>
    obtain ⟨hprev, -, -⟩ := tables_track t (Nat.lt_of_succ_lt ht)
    exact getElem_place st hprev

theorem rhoPi_zero (st : Lanes) : lane5 (rhoPi st) 0 0 = lane5 st 0 0 := by
  have hstep := (foldl_displace rotl64 (kPiln.zip kRotc) kPiln_nodup st st[1]).1 0 (by decide)
  have h0 : ∀ v : Lanes, v[(0 : Fin 25)] = lane5 v 0 0 := fun v => (lane5_eq v 0 0).symm
  rw [h0, h0] at hstep
  exact hstep

theorem view_rhoPi (st : Lanes) : view (rhoPi st) = Fips202.pi (Fips202.rho (view st)) := by
  funext x y
  rcases Fips202.track_all x y with hxy | ⟨t, ht, hxy⟩
  · obtain ⟨rfl, rfl⟩ := Prod.mk.inj hxy
    have hpi : Fips202.pi (Fips202.rho (view st)) 0 0 = Fips202.rho (view st) 0 0 := rfl
    rw [hpi, Fips202.rho_zero]
    funext z
    exact congrArg (laneBit · z) (rhoPi_zero st)
  · rw [show x = (Fips202.track (t + 1)).1 from congrArg Prod.fst hxy,
      show y = (Fips202.track (t + 1)).2 from congrArg Prod.snd hxy, Fips202.pi_track,
      Fips202.rho_track _ ht]
    funext z
    obtain ⟨-, -, hpos⟩ := tables_track t ht
    have hmod : Fin.ofNat 64 (Fips202.offset t % 64) = Fin.ofNat 64 (Fips202.offset t) :=
      Fin.ext (Nat.mod_mod _ _)
    refine (congrArg (laneBit · z) (rhoPi_track st ht)).trans ?_
    rw [laneBit_rotl _ hpos (Nat.mod_lt _ (by decide)), hmod]
    rfl

/-! ## the permutation -/

theorem view_keccakf (st : Lanes) : view (keccakf st) = Fips202.keccakP (view st) := by
  have hrounds : kRoundConstants = (List.range 24).map fun i => kRoundConstants.getD i 0 := by decide
  have key : ∀ (l : List Nat), (∀ i ∈ l, i < 24) → ∀ st : Lanes,
      view ((l.map fun i => kRoundConstants.getD i 0).foldl
        (fun st rc => iota rc (chi (rhoPi (theta st)))) st) = l.foldl Fips202.round (view st) := by
    intro l
    induction l with
    | nil => exact fun _ _ => rfl
    | cons i l ih =>
      intro hl st
      rw [List.map_cons, List.foldl_cons, ih fun j hj => hl j (List.mem_cons_of_mem _ hj),
        view_iota _ (hl i List.mem_cons_self), view_chi, view_rhoPi, view_theta]
      rfl
  rw [keccakf, hrounds]
  exact key _ (fun i hi => List.mem_range.mp hi) st

/-! ## blocks -/

theorem laneBit_push (lane : UInt64) (b : UInt8) {z : Nat} (hz : z < 64) :
    laneBit (lane <<< 8 ||| b.toUInt64) z =
      if z < 8 then b.toNat.testBit z else laneBit lane (z - 8) := by
  have hb : laneBit b.toUInt64 z = b.toNat.testBit z := rfl
  rw [laneBit_or, show (8 : UInt64) = UInt64.ofNat 8 from rfl,
    laneBit_shiftLeft lane (by decide) hz, hb]
  split
  · rw [decide_eq_false (by omega), Bool.false_and, Bool.false_or]
  · have hlt : b.toNat < 2^z :=
      (UInt8.toNat_lt b).trans_le (Nat.pow_le_pow_right (by decide) (by omega))
    rw [decide_eq_true (by omega), Nat.testBit_lt_two_pow hlt, Bool.true_and, Bool.or_false]

/-- bytes assembled from the high one down -/
def assemble (bs : List UInt8) : UInt64 := bs.foldr (fun b lane => lane <<< 8 ||| b.toUInt64) 0

theorem laneBit_assemble (bs : List UInt8) {z : Nat} (hz : z < 64) :
    laneBit (assemble bs) z = (Fips202.toBits bs).getD z false := by
  induction bs generalizing z with
  | nil => exact Nat.zero_testBit z
  | cons b bs ih =>
    have hlen : (Fips202.toBits [b]).length = 8 := Fips202.toBits_length [b]
    rw [assemble, List.foldr_cons, ← assemble, laneBit_push _ _ hz, Fips202.toBits_cons]
    split
    · have hbit := Fips202.toBits_getD [b] 0 (show z < 8 by omega)
      rw [Nat.mul_zero, Nat.zero_add, List.getD_cons_zero] at hbit
      rw [List.getD_append _ _ _ _ (by omega), hbit]
    · rw [List.getD_append_right _ _ _ _ (by omega), hlen, ih (by omega)]

namespace Sha3_256

theorem bufLane_bit (buf : Bytes rate) (i : Nat) {z : Nat} (hz : z < 64) :
    laneBit (bufLane buf i) z = (Fips202.toBits buf.1).getD (64 * i + z) false := by
  have hfold : bufLane buf i = assemble ((List.range 8).map fun j => buf.get (i * 8 + j)) := rfl
  have hbyte := Fips202.toBits_getD ((List.range 8).map fun j => buf.get (i * 8 + j)) (z / 8)
    (Nat.mod_lt z (by decide))
  have hplace := Fips202.toBits_getD buf.1 (i * 8 + z / 8) (Nat.mod_lt z (by decide))
  rw [Nat.div_add_mod] at hbyte
  rw [show 8 * (i * 8 + z / 8) + z % 8 = 64 * i + z by omega] at hplace
  rw [hfold, laneBit_assemble _ hz, hbyte, hplace, List.getD_eq_getElem _ _ (by simp; omega),
    List.getElem_map, List.getElem_range]
  rfl

theorem view_absorbBlock (st : Lanes) (buf : Bytes rate) : view (absorbBlock st buf) =
    Fips202.keccakP (Fips202.addString (view st) (Fips202.toBits buf.1)) := by
  rw [absorbBlock, view_keccakf]
  congr 1
  funext x y z
  have hlen : (Fips202.toBits buf.1).length = 1088 := by
    rw [Fips202.toBits_length, buf.2, rate]
  rw [view, lane5_ofFn, Fips202.addString, Fips202.place]
  split
  · rw [laneBit_xor, bufLane_bit buf _ z.isLt, ← lane5_eq]
    rfl
  · rename_i hge
    have hge : 17 ≤ 5 * y.val + x.val := Nat.le_of_not_lt hge
    rw [List.getD_eq_default _ _ (by omega), Bool.xor_false, ← lane5_eq]
    rfl

/-- the object has taken the bytes of `m` -/
structure Absorbs (h : Sha3_256) (m : List UInt8) : Prop where
  state : view h.state = Fips202.absorbed 1088 (Fips202.toBits m) (m.length / 136)
  bufLen : h.bufLen = m.length % 136
  buf : h.buf.1.take h.bufLen = m.drop (136 * (m.length / 136))

theorem new_absorbs : Absorbs new [] := by
  refine ⟨?_, rfl, rfl⟩
  rw [List.length_nil, Nat.zero_div, Fips202.absorbed, List.range_zero, List.foldl_nil]
  funext x y z
  have hzero : (Vector.replicate 25 (0 : UInt64))[lanePlace y x] = 0 :=
    Vector.getElem_replicate_fin _ _
  rw [view, lane5_eq, new, hzero]
  exact Nat.zero_testBit z

variable {h : Sha3_256} {m : List UInt8}

theorem Absorbs.updateByte (hm : Absorbs h m) (b : UInt8) : Absorbs (h.updateByte b) (m ++ [b]) := by
  have hlt : h.bufLen < 136 := h.bufLen_lt
  have hlen : (m ++ [b]).length = m.length + 1 := List.length_append
  have hbuf : (h.buf.set h.bufLen b).1.take (h.bufLen + 1) =
      (m ++ [b]).drop (136 * (m.length / 136)) := by
    rw [List.drop_append_of_le_length (by omega), ← hm.buf]
    exact take_succ_set (h.buf.2.symm ▸ hlt) b
  have hstate : view h.state =
      Fips202.absorbed 1088 (Fips202.toBits (m ++ [b])) (m.length / 136) := by
    rw [hm.state, Fips202.toBits_append, Fips202.absorbed_append]
    rw [Fips202.toBits_length]
    omega
  have hmod := hm.bufLen
  rw [Sha3_256.updateByte]
  split
  · rename_i hnext
    have hnext : h.bufLen + 1 < 136 := hnext
    have hq : (m ++ [b]).length / 136 = m.length / 136 := by omega
    exact ⟨hq ▸ hstate, by show h.bufLen + 1 = _; omega, hq ▸ hbuf⟩
  · rename_i hnext
    have hnext : ¬ h.bufLen + 1 < 136 := hnext
    have hq : (m ++ [b]).length / 136 = m.length / 136 + 1 := by omega
    have hfull : h.bufLen + 1 = 136 := by omega
    have hsize : (h.buf.set h.bufLen b).1.length = 136 := (h.buf.set h.bufLen b).2
    rw [hfull, List.take_of_length_le hsize.le] at hbuf
    refine ⟨?_, by show 0 = _; omega, ?_⟩
    · rw [hq, Fips202.absorbed_succ, ← hstate, show (1088 : Nat) = 8 * 136 from rfl,
        Fips202.block_toBits, Nat.mul_comm _ 136, ← hbuf, List.take_of_length_le hsize.le]
      exact view_absorbBlock _ _
    · rw [hq, List.take_zero, List.drop_eq_nil_of_le (by omega)]

theorem Absorbs.update (hm : Absorbs h m) (data : List UInt8) :
    Absorbs (h.update data) (m ++ data) := by
  induction data generalizing h m with
  | nil => rwa [List.append_nil]
  | cons b data ih =>
    have hnext := ih (hm.updateByte b)
    rw [List.append_assoc] at hnext
    exact hnext

theorem Absorbs.updates (hm : Absorbs h m) (chunks : List (List UInt8)) :
    Absorbs (chunks.foldl Sha3_256.update h) (m ++ chunks.flatten) := by
  induction chunks generalizing h m with
  | nil => rwa [List.flatten_nil, List.append_nil]
  | cons c chunks ih =>
    have hnext := ih (hm.update c)
    rw [List.append_assoc] at hnext
    exact hnext

/-! ## the last block -/

/-- the bytes that fill up the last block -/
def padBytes (n : Nat) : List UInt8 :=
  if n = 1 then [0x86] else 0x06 :: List.replicate (n - 2) 0 ++ [0x80]

theorem padded_eq (h : Sha3_256) :
    h.padded.1 = h.buf.1.take h.bufLen ++ padBytes (136 - h.bufLen) := by
  have hlt : h.bufLen < 136 := h.bufLen_lt
  have hsize : h.buf.1.length = 136 := h.buf.2
  have hlen : (h.buf.1.take h.bufLen).length = h.bufLen := by
    rw [List.length_take, hsize, min_eq_left hlt.le]
  have hfill : (List.range rate).map (fun i => if i < h.bufLen then h.buf.get i else 0) =
      h.buf.1.take h.bufLen ++ List.replicate (136 - h.bufLen) 0 := by
    refine List.ext_getElem (by simp [hsize, rate]; omega) fun i h1 h2 => ?_
    rw [List.getElem_map, List.getElem_range]
    split
    · rw [List.getElem_append_left (by omega), List.getElem_take]
      exact List.getD_eq_getElem _ _ _
    · rw [List.getElem_append_right (by omega), List.getElem_replicate]
  have hset : ((List.range rate).map fun i => if i < h.bufLen then h.buf.get i else 0).set
      h.bufLen 0x06 = h.buf.1.take h.bufLen ++ 0x06 :: List.replicate (135 - h.bufLen) 0 := by
    rw [hfill, List.set_append_right _ _ hlen.le, hlen, Nat.sub_self,
      show 136 - h.bufLen = 135 - h.bufLen + 1 by omega, List.replicate_succ, List.set_cons_zero]
  show (((List.range rate).map fun i => if i < h.bufLen then h.buf.get i else 0).set
    h.bufLen 0x06).set 135 ((((List.range rate).map fun i =>
      if i < h.bufLen then h.buf.get i else 0).set h.bufLen 0x06).getD 135 0 ||| 0x80) = _
  rw [hset, List.set_append_right _ _ (by omega), List.getD_append_right _ _ _ _ (by omega), hlen,
    padBytes]
  congr 1
  split
  · rename_i h1
    rw [show 135 - h.bufLen = 0 by omega]
    rfl
  · rename_i h1
    obtain ⟨n, hn⟩ : ∃ n, 135 - h.bufLen = n + 1 := ⟨134 - h.bufLen, by omega⟩
    rw [hn, show 136 - h.bufLen - 2 = n by omega, List.set_cons_succ, List.getD_cons_succ,
      List.replicate_succ', List.set_append_right _ _ (by simp), List.getD_append_right _ _ _ _ (by simp)]
    simp

/-- the suffix and the padding, as bytes -/
theorem toBits_padBytes (n : Nat) : Fips202.toBits (padBytes (136 - n % 136)) =
    [false, true] ++ Fips202.pad 1088 (8 * n + 2) := by
  have hzeros : ((-((8 * n + 2 : Nat) : Int) - 2) % 1088).toNat = 8 * (136 - n % 136) - 4 := by
    omega
  rw [Fips202.pad]
  show _ = [false, true] ++ (true :: List.replicate ((-((8 * n + 2 : Nat) : Int) - 2) % 1088).toNat
    false ++ [true])
  rw [hzeros, padBytes]
  split
  · rename_i h1
    rw [h1]
    rfl
  · rename_i h1
    have h6 : Fips202.toBits [0x06] = [false, true, true] ++ List.replicate 5 false := rfl
    have h80 : Fips202.toBits [0x80] = List.replicate 7 false ++ [true] := rfl
    have hsum : 8 * (136 - n % 136) - 4 = 5 + 8 * (136 - n % 136 - 2) + 7 := by omega
    rw [Fips202.toBits_append, Fips202.toBits_cons, Fips202.toBits_replicate, h6, h80, hsum,
      List.replicate_add, List.replicate_add]
    simp only [List.append_assoc, List.cons_append, List.nil_append]

theorem Absorbs.padded (hm : Absorbs h m) :
    Fips202.toBits h.padded.1 = Fips202.block 1088 (Fips202.paddedBits (Fips202.toBits m))
      (m.length / 136) ∧
    (Fips202.paddedBits (Fips202.toBits m)).length = 1088 * (m.length / 136 + 1) := by
  have hbits : Fips202.toBits h.padded.1 = Fips202.toBits (m.drop (136 * (m.length / 136))) ++
      ([false, true] ++ Fips202.pad 1088 ((Fips202.toBits m).length + 2)) := by
    rw [padded_eq, Fips202.toBits_append, hm.buf, hm.bufLen, toBits_padBytes, Fips202.toBits_length]
  have hdrop : (Fips202.paddedBits (Fips202.toBits m)).drop (m.length / 136 * 1088) =
      Fips202.toBits h.padded.1 := by
    rw [hbits, Fips202.paddedBits, List.append_assoc, List.drop_append_of_le_length,
      show m.length / 136 * 1088 = 8 * (136 * (m.length / 136)) by ring, Fips202.toBits_drop]
    rw [Fips202.toBits_length]
    omega
  have hlen : (Fips202.toBits h.padded.1).length = 1088 := by
    rw [Fips202.toBits_length, h.padded.2, rate]
  constructor
  · rw [Fips202.block, hdrop, List.take_of_length_le hlen.le]
  · have hle := congrArg List.length hdrop
    rw [List.length_drop, hlen] at hle
    omega

theorem Absorbs.final (hm : Absorbs h m) : view (absorbBlock h.state h.padded) =
    Fips202.absorbed 1088 (Fips202.paddedBits (Fips202.toBits m))
      ((Fips202.paddedBits (Fips202.toBits m)).length / 1088) := by
  obtain ⟨hblock, hlen⟩ := hm.padded
  rw [hlen, Nat.mul_div_cancel_left _ (by decide), Fips202.absorbed_succ, view_absorbBlock, hblock,
    hm.state, Fips202.paddedBits, List.append_assoc, Fips202.absorbed_append]
  rw [Fips202.toBits_length]
  omega

theorem finalize_bit (h : Sha3_256) {k j : Nat} (hk : k < 32) (hj : j < 8) :
    (h.finalize.1.getD k 0).toNat.testBit j =
      (Fips202.trunc 256 (view (absorbBlock h.state h.padded))).getD (8 * k + j) false := by
  have hbyte : h.finalize.1.getD k 0 =
      (lane5 (absorbBlock h.state h.padded) 0 (k / 8) >>> UInt64.ofNat (8 * (k % 8))).toUInt8 := by
    rw [finalize, List.getD_eq_getElem _ _ (by simpa using hk), List.getElem_map, List.getElem_range]
  have hrow : (8 * k + j) / 320 % 5 = 0 := by omega
  have hlane : (8 * k + j) / 64 % 5 = k / 8 := by omega
  have hbit : (8 * k + j) % 64 = 8 * (k % 8) + j := by omega
  rw [hbyte, UInt64.toNat_toUInt8, Nat.testBit_mod_two_pow, decide_eq_true hj, Bool.true_and,
    Fips202.trunc, List.getD_eq_getElem _ _ (by simp; omega), List.getElem_map, List.getElem_range,
    view]
  simp only [Fin.val_ofNat]
  rw [hrow, hlane, hbit]
  exact laneBit_shiftRight _ j (by omega)

/-- **`finalize`** returns the SHA3-256 of the bytes that were given to `update`. -/
theorem finalize_eq (hm : Absorbs h m) : h.finalize.1 = Fips202.sha3_256 m := by
  have hlen : (Fips202.sha3_256Bits (Fips202.toBits m)).length = 256 := by
    rw [Fips202.sha3_256Bits_eq, Fips202.trunc, List.length_map, List.length_range]
  have hsize : (Fips202.sha3_256 m).length = 32 := by
    rw [Fips202.sha3_256, Fips202.toBytes_length, hlen]
  refine List.ext_getElem (h.finalize.2.trans hsize.symm) fun k hk hk' => ?_
  have hlt : k < 32 := hsize ▸ hk'
  rw [← List.getD_eq_getElem _ 0 hk, ← List.getD_eq_getElem _ 0 hk']
  refine UInt8.toNat_inj.mp (Nat.eq_of_testBit_eq fun j => ?_)
  by_cases hj : j < 8
  · rw [finalize_bit h hlt hj, hm.final, Fips202.sha3_256, Fips202.toBytes_testBit _ (by omega) hj,
      Fips202.sha3_256Bits_eq]
  · have hp : 2^8 ≤ 2^j := Nat.pow_le_pow_right (by decide) (by omega)
    rw [Nat.testBit_lt_two_pow ((UInt8.toNat_lt _).trans_le hp),
      Nat.testBit_lt_two_pow ((UInt8.toNat_lt _).trans_le hp)]

/-- **Every way of cutting a message** into updates gives its SHA3-256. -/
theorem update_chunks (chunks : List (List UInt8)) :
    (chunks.foldl Sha3_256.update new).finalize.1 = Fips202.sha3_256 chunks.flatten :=
  finalize_eq (new_absorbs.updates chunks)

end Sha3_256

end Onion
