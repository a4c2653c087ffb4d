import Onion.Lib.Trace
import Mathlib.Data.List.Nodup
import Mathlib.Data.List.Perm.Basic
import Mathlib.Logic.Function.Basic

/-!
# Threads that append to a bounded buffer

A cell is claimed by an atomic increment of a counter, which goes on past the end of the buffer, and
is then filled by several writes; other threads run between any two of these.

* `step`             the next access of one thread;
* `Inv`              the values claimed so far, in the order of the increments, and who still writes;
* `step_inv`, `run_invariant`   it holds in every run, as long as the counter does not wrap;
* `finished_cells`   when all threads are done: the buffer holds the first claims, in that order.
-/

namespace AppendBuffer
variable {V : Type}

/-- the shared memory: a counter in a signed register, and cells, with all that lies around them -/
structure Memory (V : Type) where
  counter : Int
  cells : Int → V

/-- where a thread is; `none` in its list stands for work without an access -/
inductive Pc (V : Type) where
  | next (todo : List (Option V))
  | store (v : V) (cell : Int) (writes : List (V → V → V)) (todo : List (Option V))

structure State (V : Type) where
  pc : Nat → Pc V
  mem : Memory V

/-- the access of thread `t`: registers of `m` values, `cap` cells, and the writes that fill one -/
def step (m cap : Nat) (writes : List (V → V → V)) (s : State V) (t : Nat) : Option (State V) :=
  match s.pc t with
  | .next [] => none
  | .next (none :: todo) => some { s with pc := Function.update s.pc t (.next todo) }
  | .next (some v :: todo) =>
    let cell := s.mem.counter
    some
      { pc := Function.update s.pc t (if cell < cap then .store v cell writes todo else .next todo)
        mem := { s.mem with counter := (cell + 1).bmod m } }
  | .store _ _ [] todo => some { s with pc := Function.update s.pc t (.next todo) }
  | .store v cell (w :: ws) todo => some
      { pc := Function.update s.pc t (.store v cell ws todo)
        mem := { s.mem with
          cells := Function.update s.mem.cells cell (w v (s.mem.cells cell)) } }

/-- the remaining writes of the value `v`, into a cell that holds `c` -/
def fill (v : V) (ws : List (V → V → V)) (c : V) : V := ws.foldl (fun c w => w v c) c

/-- what a thread has still to claim -/
def Pc.todo : Pc V → List V
  | .next todo => todo.filterMap id
  | .store _ _ _ todo => todo.filterMap id

/-- the threads below `n`, before the first access -/
def start (n : Nat) (program : Nat → List (Option V)) (cells : Int → V) : State V :=
  ⟨fun t => .next (if t < n then program t else []), 0, cells⟩

def Finished (s : State V) : Prop := ∀ t, s.pc t = .next []

/-! ## one thread among others -/

theorem update_cases {A : Type} {f : Nat → A} {t u : Nat} {x y : A}
    (h : Function.update f t x u = y) : u = t ∧ x = y ∨ u ≠ t ∧ f u = y := by
  by_cases hut : u = t
  · rw [hut, Function.update_self] at h
    exact Or.inl ⟨hut, h⟩
  · rw [Function.update_of_ne hut] at h
    exact Or.inr ⟨hut, h⟩

theorem flatMap_update (n t : Nat) (ht : t < n) (f : Nat → List V) (g : List V) (vs : List V)
    (h : f t = vs ++ g) :
    ((List.range n).flatMap f).Perm (vs ++ (List.range n).flatMap (Function.update f t g)) := by
  obtain ⟨l, r, e⟩ := List.append_of_mem (List.mem_range.mpr ht)
  have hnd : (l ++ t :: r).Nodup := e ▸ List.nodup_range
  obtain ⟨hl, hr⟩ : t ∉ l ∧ t ∉ r := by
    rw [List.nodup_append, List.nodup_cons] at hnd
    exact ⟨fun hm => hnd.2.2 t hm t List.mem_cons_self rfl, hnd.2.1.1⟩
  have hsame : ∀ xs : List Nat, t ∉ xs → xs.flatMap (Function.update f t g) = xs.flatMap f :=
    fun xs hx => List.flatMap_congr fun a ha =>
      Function.update_of_ne (ne_of_mem_of_not_mem ha hx) g f
  rw [e, List.flatMap_append, List.flatMap_append, List.flatMap_cons, List.flatMap_cons,
    hsame l hl, hsame r hr, Function.update_self, h]
  rw [List.append_assoc vs, ← List.append_assoc, ← List.append_assoc vs]
  exact List.perm_append_comm.append_right _

/-! ## the invariant -/

/-- after the claims `vs`, of all the values in `all` -/
structure Inv (n cap : Nat) (all : List V) (cells : Int → V) (vs : List V) (s : State V) : Prop where
  counter : s.mem.counter = vs.length
  conserved : (vs ++ (List.range n).flatMap fun t => (s.pc t).todo).Perm all
  idle : ∀ t, n ≤ t → s.pc t = .next []
  /-- a thread that is still writing will have written what it claimed -/
  storing : ∀ {t v cell ws todo}, s.pc t = .store v cell ws todo →
    ∃ i : Nat, cell = i ∧ i < cap ∧ vs[i]? = some v ∧ fill v ws (s.mem.cells i) = v
  owner : ∀ {t t' v v' cell ws ws' todo todo'}, s.pc t = .store v cell ws todo →
    s.pc t' = .store v' cell ws' todo' → t = t'
  written : ∀ {i : Nat} {v}, i < cap → vs[i]? = some v →
    s.mem.cells i = v ∨ ∃ t ws todo, s.pc t = .store v i ws todo
  rest : ∀ c : Int, c < 0 ∨ cap ≤ c ∨ vs.length ≤ c → s.mem.cells c = cells c

section
variable {m n cap : Nat} {writes : List (V → V → V)} {all vs : List V} {cells : Int → V}
  {s s' : State V} {t : Nat}

theorem start_inv (program : Nat → List (Option V)) :
    Inv n cap ((List.range n).flatMap fun t => (program t).filterMap id) cells []
      (start n program cells) := by
  refine ⟨rfl, ?_, fun t ht => ?_, nofun, nofun, nofun, fun _ _ => rfl⟩
  · refine List.Perm.of_eq (List.flatMap_congr fun t ht => ?_)
    show (if t < n then program t else []).filterMap id = _
    rw [if_pos (List.mem_range.mp ht)]
  · show Pc.next (if t < n then program t else []) = _
    rw [if_neg (Nat.not_lt.mpr ht)]

theorem Inv.lt (h : Inv n cap all cells vs s) (ht : s.pc t ≠ .next []) : t < n :=
  Nat.lt_of_not_le fun hn => ht (h.idle t hn)

theorem Inv.idle_update (h : Inv n cap all cells vs s) (ht : s.pc t ≠ .next []) (p : Pc V) {u : Nat}
    (hu : n ≤ u) : Function.update s.pc t p u = .next [] := by
  have hut : u ≠ t := fun he => absurd (h.lt ht) (by omega)
  rw [Function.update_of_ne hut]
  exact h.idle u hu

theorem Inv.conserved_update (h : Inv n cap all cells vs s) {p : Pc V}
    (hp : p.todo = (s.pc t).todo) :
    (vs ++ (List.range n).flatMap fun u => (Function.update s.pc t p u).todo).Perm all := by
  have hsame : (fun u => (Function.update s.pc t p u).todo) = fun u => (s.pc u).todo := by
    funext u
    by_cases hut : u = t
    · rw [hut, Function.update_self, hp]
    · rw [Function.update_of_ne hut]
  rw [hsame]
  exact h.conserved

/-- a thread that claims `v` moves it from its list to the claims -/
theorem Inv.conserved_claim (h : Inv n cap all cells vs s) {v : V} {todo : List (Option V)}
    (ht : s.pc t = .next (some v :: todo)) {p : Pc V} (hp : p.todo = todo.filterMap id) :
    (vs ++ [v] ++ (List.range n).flatMap fun u => (Function.update s.pc t p u).todo).Perm all := by
  have htn : t < n := h.lt (by rw [ht]; nofun)
  have htodo : (s.pc t).todo = [v] ++ todo.filterMap id := by
    rw [ht]
    rfl
  have hnew : (fun u => (Function.update s.pc t p u).todo) =
      Function.update (fun u => (s.pc u).todo) t (todo.filterMap id) := by
    funext u
    by_cases hut : u = t
    · rw [hut, Function.update_self, Function.update_self, hp]
    · rw [Function.update_of_ne hut, Function.update_of_ne hut]
  rw [hnew, List.append_assoc]
  exact ((flatMap_update n t htn _ _ _ htodo).symm.append_left vs).trans h.conserved

theorem Inv.fresh (h : Inv n cap all cells vs s) {v : V} {cell : Int} {ws : List (V → V → V)}
    {todo : List (Option V)} (ht : s.pc t = .store v cell ws todo) : cell ≠ vs.length := by
  intro he
  obtain ⟨i, hi, -, hv, -⟩ := h.storing ht
  have hlt := (List.getElem?_eq_some_iff.mp hv).1
  omega

theorem Inv.silent (h : Inv n cap all cells vs s) {todo : List (Option V)}
    (ht : s.pc t ≠ .next []) (htodo : (s.pc t).todo = todo.filterMap id)
    (hdone : ∀ {v cell ws todo}, s.pc t = .store v cell ws todo → ws = []) :
    Inv n cap all cells vs { s with pc := Function.update s.pc t (.next todo) } := by
  have hpc : ∀ {u v cell ws todo'}, Function.update s.pc t (.next todo) u = .store v cell ws todo' →
      s.pc u = .store v cell ws todo' := by
    intro u v cell ws todo' hu
    rcases update_cases hu with ⟨-, hu⟩ | ⟨-, hu⟩
    · cases hu
    · exact hu
  refine ⟨h.counter, h.conserved_update htodo.symm, fun u hu => h.idle_update ht _ hu,
    fun hu => h.storing (hpc hu), fun hu hu' => h.owner (hpc hu) (hpc hu'),
    fun {i v} hi hv => ?_, h.rest⟩
  rcases h.written hi hv with hw | ⟨u, ws, todo', hu⟩
  · exact Or.inl hw
  by_cases hut : u = t
  · left
    subst hut
    obtain ⟨k, hk, -, hvk, hf⟩ := h.storing hu
    rw [hdone hu] at hf
    rwa [← Int.ofNat_inj.mp hk] at hf
  · right
    exact ⟨u, ws, todo', (Function.update_of_ne hut _ _).trans hu⟩

theorem Inv.claim (h : Inv n cap all cells vs s) (hm : 2 * all.length < m)
    (hfill : ∀ v c, fill v writes c = v) {v : V} {todo : List (Option V)}
    (ht : s.pc t = .next (some v :: todo)) :
    Inv n cap all cells (vs ++ [v])
      { pc := Function.update s.pc t
          (if s.mem.counter < cap then .store v s.mem.counter writes todo else .next todo)
        mem := { s.mem with counter := (s.mem.counter + 1).bmod m } } := by
  have hlen : (vs ++ [v]).length = vs.length + 1 := by rw [List.length_append, List.length_singleton]
  have htodo : (if s.mem.counter < cap then Pc.store v s.mem.counter writes todo
      else .next todo).todo = todo.filterMap id := by
    split <;> rfl
  have hconserved := h.conserved_claim ht htodo
  have hle : vs.length + 1 ≤ all.length := by
    rw [← hconserved.length_eq, List.length_append, hlen]
    exact Nat.le_add_right _ _
  have hpc : ∀ {u w cell ws todo'}, Function.update s.pc t (if s.mem.counter < cap then
      .store v s.mem.counter writes todo else .next todo) u = .store w cell ws todo' →
      s.pc u = .store w cell ws todo' ∨
        u = t ∧ w = v ∧ cell = vs.length ∧ ws = writes ∧ s.mem.counter < cap := by
    intro u w cell ws todo' hu
    rcases update_cases hu with ⟨hut, hu⟩ | ⟨-, hu⟩
    · split at hu
      · cases hu
        exact Or.inr ⟨hut, rfl, h.counter, rfl, ‹_›⟩
      · cases hu
    · exact Or.inl hu
  refine ⟨?_, hconserved, fun u hu => h.idle_update (by rw [ht]; nofun) _ hu,
    fun {u w cell ws todo'} hu => ?_, fun {u u'} _ _ _ _ _ _ _ hu hu' => ?_,
    fun {i w} hi hw => ?_, fun c hc => h.rest c (by omega)⟩
  · show (s.mem.counter + 1).bmod m = _
    rw [h.counter, hlen, Int.bmod_eq_of_le (by omega) (by omega)]
    rfl
  · rcases hpc hu with hu | ⟨rfl, rfl, rfl, rfl, hcap⟩
    · obtain ⟨i, hi, hicap, hv, hf⟩ := h.storing hu
      exact ⟨i, hi, hicap, List.getElem?_append_left (List.getElem?_eq_some_iff.mp hv).1 ▸ hv, hf⟩
    · rw [h.counter] at hcap
      exact ⟨vs.length, rfl, Int.ofNat_lt.mp hcap, List.getElem?_concat_length, hfill _ _⟩
  · rcases hpc hu with hu | ⟨rfl, -, hcell, -, -⟩
    · rcases hpc hu' with hu' | ⟨-, -, hcell, -, -⟩
      · exact h.owner hu hu'
      · exact absurd hcell (h.fresh hu)
    · rcases hpc hu' with hu' | ⟨rfl, -, -, -, -⟩
      · exact absurd hcell (h.fresh hu')
      · rfl
  · by_cases hlast : i = vs.length
    · right
      rw [hlast, List.getElem?_concat_length] at hw
      cases hw
      refine ⟨t, writes, todo, ?_⟩
      show Function.update s.pc t _ t = _
      rw [Function.update_self, h.counter, hlast, if_pos (Int.ofNat_lt.mpr (hlast ▸ hi))]
    · have hlt : i < vs.length := by
        have hlt := (List.getElem?_eq_some_iff.mp hw).1
        omega
      rw [List.getElem?_append_left hlt] at hw
      rcases h.written hi hw with hw | ⟨u, ws, todo', hu⟩
      · exact Or.inl hw
      · have hut : u ≠ t := fun he => by
          rw [he, ht] at hu
          cases hu
        exact Or.inr ⟨u, ws, todo', (Function.update_of_ne hut _ _).trans hu⟩

theorem Inv.write (h : Inv n cap all cells vs s) {v : V} {cell : Int} {w : V → V → V}
    {ws : List (V → V → V)} {todo : List (Option V)} (ht : s.pc t = .store v cell (w :: ws) todo) :
    Inv n cap all cells vs
      { pc := Function.update s.pc t (.store v cell ws todo)
        mem := { s.mem with
          cells := Function.update s.mem.cells cell (w v (s.mem.cells cell)) } } := by
  obtain ⟨i, rfl, hicap, hvi, hfill⟩ := h.storing ht
  have hi : i < vs.length := (List.getElem?_eq_some_iff.mp hvi).1
  have hpc : ∀ {u x cell ws' todo'}, Function.update s.pc t (.store v i ws todo) u =
      .store x cell ws' todo' → u = t ∧ x = v ∧ cell = i ∧ ws' = ws ∧ todo' = todo ∨
        u ≠ t ∧ s.pc u = .store x cell ws' todo' := by
    intro u x cell ws' todo' hu
    rcases update_cases hu with ⟨hut, hu⟩ | hu
    · cases hu
      exact Or.inl ⟨hut, rfl, rfl, rfl, rfl⟩
    · exact Or.inr hu
  -- a cell that another thread is writing is another cell
  have hne : ∀ {u x cell ws' todo'}, u ≠ t → s.pc u = .store x cell ws' todo' → cell ≠ i :=
    fun hut hu he => hut (h.owner (he ▸ hu) ht)
  refine ⟨h.counter, h.conserved_update (by rw [ht]; rfl),
    fun u hu => h.idle_update (by rw [ht]; nofun) _ hu, fun {u x cell ws' todo'} hu => ?_,
    fun {u u'} _ _ _ _ _ _ _ hu hu' => ?_, fun {k x} hk hx => ?_, fun c hc => ?_⟩
  · rcases hpc hu with ⟨-, rfl, rfl, rfl, -⟩ | ⟨hut, hu⟩
    · refine ⟨i, rfl, hicap, hvi, ?_⟩
      show fill x ws' (Function.update s.mem.cells i _ i) = x
      rw [Function.update_self]
      exact hfill
    · obtain ⟨k, hk, hkcap, hvk, hf⟩ := h.storing hu
      refine ⟨k, hk, hkcap, hvk, ?_⟩
      show fill x ws' (Function.update s.mem.cells i _ k) = x
      rw [Function.update_of_ne (hk ▸ hne hut hu)]
      exact hf
  · rcases hpc hu with ⟨hut, -, hc, -, -⟩ | ⟨hut, hu⟩
    · rcases hpc hu' with ⟨hut', -, -, -, -⟩ | ⟨hut', hu'⟩
      · exact hut.trans hut'.symm
      · exact absurd hc (hne hut' hu')
    · rcases hpc hu' with ⟨hut', -, hc, -, -⟩ | ⟨hut', hu'⟩
      · exact absurd hc (hne hut hu)
      · exact h.owner hu hu'
  · show Function.update s.mem.cells i _ k = x ∨ ∃ u ws' todo', Function.update s.pc t _ u = _
    by_cases hki : k = i
    · right
      subst hki
      rw [hvi] at hx
      cases hx
      exact ⟨t, ws, todo, Function.update_self _ _ _⟩
    · rw [Function.update_of_ne (fun he => hki (Int.ofNat_inj.mp he))]
      rcases h.written hk hx with hw | ⟨u, ws', todo', hu⟩
      · exact Or.inl hw
      · have hut : u ≠ t := fun he => by
          rw [he, ht] at hu
          cases hu
          exact hki rfl
        exact Or.inr ⟨u, ws', todo', (Function.update_of_ne hut _ _).trans hu⟩
  · show Function.update s.mem.cells i _ c = _
    rw [Function.update_of_ne (by omega)]
    exact h.rest c hc

/-- **one access** keeps the invariant -/
theorem step_inv (hm : 2 * all.length < m) (hfill : ∀ v c, fill v writes c = v)
    (h : ∃ vs, Inv n cap all cells vs s) (hstep : step m cap writes s t = some s') :
    ∃ vs, Inv n cap all cells vs s' := by
  obtain ⟨vs, h⟩ := h
  rw [step] at hstep
  split at hstep
  · cases hstep
  · rename_i todo ht
    cases hstep
    exact ⟨vs, h.silent (by rw [ht]; nofun) (by rw [ht]; rfl) fun hu => by rw [ht] at hu; cases hu⟩
  · rename_i v todo ht
    cases hstep
    exact ⟨vs ++ [v], h.claim hm hfill ht⟩
  · rename_i v cell todo ht
    cases hstep
    exact ⟨vs, h.silent (by rw [ht]; nofun) (by rw [ht]; rfl) fun hu => by rw [ht] at hu; cases hu; rfl⟩
  · rename_i v cell w ws todo ht
    cases hstep
    exact ⟨vs, h.write ht⟩

/-- the invariant at the end of every run -/
theorem run_invariant {program : Nat → List (Option V)} {es : List Nat}
    (hm : 2 * ((List.range n).flatMap fun t => (program t).filterMap id).length < m)
    (hfill : ∀ v c, fill v writes c = v)
    (hrun : Trace.run (step m cap writes) (start n program cells) es = some s) :
    ∃ vs, Inv n cap ((List.range n).flatMap fun t => (program t).filterMap id) cells vs s :=
  Trace.run_inv (I := fun s => ∃ vs, Inv n cap _ cells vs s)
    (fun h hstep => step_inv hm hfill h hstep) hrun ⟨[], start_inv program⟩

/-- **All threads are done**: every value is claimed, and the buffer holds the first ones. -/
theorem finished_cells (h : Inv n cap all cells vs s) (hdone : Finished s) :
    vs.Perm all ∧ s.mem.counter = all.length ∧
      ∀ i v, i < cap → vs[i]? = some v → s.mem.cells i = v := by
  have hnil : ((List.range n).flatMap fun t => (s.pc t).todo) = [] :=
    List.flatMap_eq_nil_iff.mpr fun t _ => by rw [hdone t]; rfl
  have hperm := h.conserved
  rw [hnil, List.append_nil] at hperm
  refine ⟨hperm, ?_, fun i v hi hv => ?_⟩
  · rw [h.counter, hperm.length_eq]
  · rcases h.written hi hv with hw | ⟨t, ws, todo, ht⟩
    · exact hw
    · rw [hdone t] at ht
      cases ht

end

end AppendBuffer
