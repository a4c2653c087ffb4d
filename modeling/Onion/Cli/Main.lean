import Onion.Io.TorKeyWriter
import Onion.Engine.Found

/-!
# `main.cpp`: from the queue to the disk

`main` compiles the prefixes, starts an engine, and takes candidates off the queue until it has
found enough.

* `compilePrefixes_eq_some`   the patterns of a run are the compiled prefixes;
* `handle_writes`             what happens to one candidate;
* `main_clean`                with distinct addresses in the queue, `main` is never in its own way;
* `mainLoop_duplicate`        with an address that comes again, it is.
-/

namespace Onion
open Logged

/-- every argument has to compile, or `main` stops with exit code 1 -/
def compilePrefixes : List (List Char) → Option (List CompiledPattern)
  | [] => some []
  | p :: prefixes =>
    match compilePrefix p with
    | .error _ => none
    | .ok compiled => (compilePrefixes prefixes).map (compiled :: ·)

theorem compilePrefixes_eq_some {prefixes : List (List Char)} {patterns : List CompiledPattern} :
    compilePrefixes prefixes = some patterns ↔ Compiled prefixes patterns := by
  induction prefixes generalizing patterns with
  | nil =>
    constructor
    · intro h
      rw [← Option.some.inj h]
      exact List.Forall₂.nil
    · intro h
      cases h
      rfl
  | cons p prefixes ih =>
    rw [compilePrefixes]
    cases hp : compilePrefix p with
    | error e =>
      refine ⟨nofun, fun h => ?_⟩
      cases h with
      | cons hc _ =>
        rw [hp] at hc
        cases hc
    | ok compiled =>
      dsimp only
      rw [Option.map_eq_some_iff]
      constructor
      · rintro ⟨rest, hrest, rfl⟩
        exact List.Forall₂.cons hp (ih.mp hrest)
      · intro h
        cases h with
        | cons hc hrest =>
          rw [hp] at hc
          obtain rfl := Except.ok.inj hc
          exact ⟨_, ih.mpr hrest, rfl⟩

/-! ## the loop -/

inductive MainEvent where
  /-- a call of `write_tor_keys`, with what stands under the address -/
  | write (address : OnionAddress) (entry : Option Entry)
  /-- a result is reported -/
  | found (r : VerifiedResult)

/-- what one round sees: the interrupt flag, what `pop_wait_for` returns, and `engine_done` -/
structure Turn where
  interrupted : Bool
  popped : Option MatchCandidate
  engineDone : Bool

structure MainState where
  found : Nat
  exitCode : Nat
  world : World

section
variable (baseNoclamp : Bytes 32 → Option (Bytes 32)) (os : Os) (outdir : List Char)
  (patterns : List CompiledPattern) (count : Nat)

/-- verify a candidate, write it and report it; `true` goes on -/
def handle (candidate : MatchCandidate) (s : MainState) : Logged MainEvent (Bool × MainState) :=
  match verify baseNoclamp candidate patterns with
  | .error _ => return (false, { s with exitCode := 2 })
  | .ok verified => do
    emit (.write verified.address (s.world.fs verified.address.view))
    let r := writeTorKeys os outdir verified s.world
    match r.1 with
    | .error _ => return (false, { s with exitCode := 3, world := r.2 })
    | .ok _ => do
      emit (.found verified)
      return (true, { s with found := (s.found + 1) % 2^64, world := r.2 })
where
  /-- one event -/
  emit (e : MainEvent) : Logged MainEvent Unit := ⟨(), [e]⟩

/-- the loop, over the rounds it takes; `count = 0` is no limit -/
def mainLoop : List Turn → MainState → Logged MainEvent MainState
  | [], s => return s
  | turn :: turns, s =>
    if (count = 0 ∨ s.found < count) ∧ ¬ turn.interrupted then
      match turn.popped with
      | some candidate => do
        let r ← handle baseNoclamp os outdir patterns candidate s
        if r.1 then mainLoop turns r.2 else return r.2
      | none =>
        if turn.engineDone then return { s with exitCode := if s.exitCode = 0 then 4 else s.exitCode }
        else mainLoop turns s
    else return s

end

/-! ## what is written -/

def MainEvent.write? : MainEvent → Option (OnionAddress × Option Entry)
  | .write a e => some (a, e)
  | .found _ => none

/-- the calls of `write_tor_keys`: the address, and what stood there -/
def writes {α : Type} (x : Logged MainEvent α) : List (OnionAddress × Option Entry) :=
  select MainEvent.write? x

/-- the address that the engine claims to have found -/
def MatchCandidate.address (c : MatchCandidate) : OnionAddress :=
  onionAddressFromPubkey c.claimedPubkey

theorem OnionAddress.view_inj {a b : OnionAddress} (h : a.view = b.view) : a = b := by
  cases a
  cases b
  exact (OnionAddress.mk.injEq ..).mpr h

section
variable {base : Bytes 32 → Option (Bytes 32)} {os : Os} {outdir : List Char}
  {patterns : List CompiledPattern} {count : Nat} {c : MatchCandidate} {s : MainState}

theorem verify_address {v : VerifiedResult} (hv : verify base c patterns = .ok v) :
    v.address = c.address := by
  rw [(verify_eq_ok.mp hv).2.2]
  rfl

/-- a candidate is written once or not at all, and nothing else is touched -/
theorem handle_writes (base : Bytes 32 → Option (Bytes 32)) (os : Os) (outdir : List Char)
    (patterns : List CompiledPattern) (c : MatchCandidate) (s : MainState) :
    let r := handle base os outdir patterns c s
    (writes r = [] ∨ writes r = [(c.address, s.world.fs c.address.view)]) ∧
      ∀ d ≠ c.address.view, r.val.2.world.fs d = s.world.fs d := by
  dsimp only
  rw [handle]
  cases hv : verify base c patterns with
  | error e => exact ⟨Or.inl rfl, fun _ _ => rfl⟩
  | ok v =>
    have ha := verify_address hv
    have hframe : ∀ d ≠ c.address.view, (writeTorKeys os outdir v s.world).2.fs d = s.world.fs d :=
      fun d hd => writeTorKeys_frame (ha.symm ▸ hd) outdir s.world
    cases hw : (writeTorKeys os outdir v s.world).1 with
    | error e =>
      simp only [hw, ← ha] at hframe ⊢
      exact ⟨Or.inr rfl, hframe⟩
    | ok u =>
      simp only [hw, ← ha] at hframe ⊢
      exact ⟨Or.inr rfl, hframe⟩

/-- exit code 3 is a failing call, or an entry that was there -/
theorem handle_exitCode (hs : s.exitCode ≠ 3)
    (h3 : (handle base os outdir patterns c s).val.2.exitCode = 3) (hos : os.Sound) :
    writes (handle base os outdir patterns c s) = [(c.address, s.world.fs c.address.view)] ∧
      s.world.fs c.address.view ≠ none := by
  rw [handle] at h3 ⊢
  cases hv : verify base c patterns with
  | error e =>
    rw [hv] at h3
    cases h3
  | ok v =>
    have ha := verify_address hv
    rw [hv] at h3
    cases hw : (writeTorKeys os outdir v s.world).1 with
    | error e =>
      simp only [hw, ← ha]
      refine ⟨rfl, fun hnone => ?_⟩
      rw [(writeTorKeys_ok hos hnone outdir).1] at hw
      cases hw
    | ok u =>
      simp only [hw] at h3
      exact absurd h3 hs

/-- from the state `s`, a run writes popped candidates only, finds at each what was there in `s`, and
does not stop with exit code 3 for anything else -/
structure CleanRun (os : Os) (s : MainState) (popped : List MatchCandidate)
    (run : Logged MainEvent MainState) : Prop where
  popped : ((writes run).map Prod.fst).Sublist (popped.map MatchCandidate.address)
  untouched : ∀ x ∈ writes run, x.2 = s.world.fs x.1.view
  exitCode : s.exitCode ≠ 3 → run.val.exitCode = 3 → os.Sound →
    ∃ x ∈ writes run, s.world.fs x.1.view ≠ none

theorem CleanRun.idle {t : MainState} (ht : s.exitCode ≠ 3 → t.exitCode ≠ 3)
    (popped : List MatchCandidate) : CleanRun os s popped (pure t) :=
  ⟨List.nil_sublist _, nofun, fun hs h3 => absurd h3 (ht hs)⟩

/-- with distinct addresses, one candidate after the other -/
theorem CleanRun.cons {popped : List MatchCandidate}
    {rest : Bool × MainState → Logged MainEvent MainState}
    (hq : ((c :: popped).map MatchCandidate.address).Nodup)
    (hrest : CleanRun os (handle base os outdir patterns c s).val.2 popped
      (rest (handle base os outdir patterns c s).val)) :
    CleanRun os s (c :: popped) (handle base os outdir patterns c s >>= rest) := by
  obtain ⟨hwrite, hframe⟩ := handle_writes base os outdir patterns c s
  have hexit : s.exitCode ≠ 3 → (handle base os outdir patterns c s).val.2.exitCode = 3 →
      os.Sound → _ := handle_exitCode
  generalize handle base os outdir patterns c s = r at hrest hwrite hframe hexit ⊢
  obtain ⟨hc, hpopped⟩ := List.nodup_cons.mp hq
  have hw : writes (r >>= rest) = writes r ++ writes (rest r.val) := select_bind r rest
  -- what is written later has another address
  have hlater : ∀ x ∈ writes (rest r.val), r.val.2.world.fs x.1.view = s.world.fs x.1.view := by
    intro x hx
    refine hframe _ fun e => hc ?_
    rw [← OnionAddress.view_inj e]
    exact hrest.popped.subset (List.mem_map_of_mem hx)
  have hfirst : ∀ x ∈ writes r, x.1 = c.address ∧ x.2 = s.world.fs x.1.view := by
    intro x hx
    rcases hwrite with h | h
    · rw [h] at hx
      cases hx
    · rw [h, List.mem_singleton] at hx
      rw [hx]
      exact ⟨rfl, rfl⟩
  refine ⟨?_, fun x hx => ?_, fun hs h3 hos => ?_⟩
  · rw [hw, List.map_append]
    rcases hwrite with h | h
    · rw [h]
      exact hrest.popped.cons _
    · rw [h]
      exact hrest.popped.cons_cons _
  · rw [hw, List.mem_append] at hx
    rcases hx with hx | hx
    · exact (hfirst x hx).2
    · rw [hrest.untouched x hx, hlater x hx]
  · rw [hw]
    by_cases hr : r.val.2.exitCode = 3
    · obtain ⟨h, hne⟩ := hexit hs hr hos
      exact ⟨(c.address, s.world.fs c.address.view), List.mem_append_left _ (by rw [h]; simp), hne⟩
    · obtain ⟨x, hx, hne⟩ := hrest.exitCode hr h3 hos
      exact ⟨x, List.mem_append_right _ hx, hlater x hx ▸ hne⟩

theorem mainLoop_clean (turns : List Turn)
    (hq : ((turns.filterMap Turn.popped).map MatchCandidate.address).Nodup) :
    CleanRun os s (turns.filterMap Turn.popped)
      (mainLoop base os outdir patterns count turns s) := by
  induction turns generalizing s with
  | nil => exact CleanRun.idle id _
  | cons turn turns ih =>
    rw [mainLoop]
    split
    · cases hp : turn.popped with
      | none =>
        have e : (turn :: turns).filterMap Turn.popped = turns.filterMap Turn.popped :=
          List.filterMap_cons_none hp
        rw [e] at hq ⊢
        dsimp only
        split
        · refine CleanRun.idle (fun hs => ?_) _
          show (if s.exitCode = 0 then 4 else s.exitCode) ≠ 3
          split <;> omega
        · exact ih hq
      | some c =>
        have e : (turn :: turns).filterMap Turn.popped = c :: turns.filterMap Turn.popped :=
          List.filterMap_cons_some hp
        rw [e] at hq ⊢
        refine CleanRun.cons hq ?_
        split
        · exact ih (List.nodup_cons.mp hq).2
        · exact CleanRun.idle id _
    · exact CleanRun.idle id _

/-- `main` is never in its own way: no address is written twice, at each stands what stood there
before, and exit code 3 means a failing call or an entry from before -/
def MainClean (base : Bytes 32 → Option (Bytes 32)) (patterns : List CompiledPattern)
    (q : List MatchCandidate) : Prop :=
  ∀ (os : Os) (outdir : List Char) (count : Nat) (w : World) (turns : List Turn),
    turns.filterMap Turn.popped <+: q →
    let run := mainLoop base os outdir patterns count turns ⟨0, 0, w⟩
    ((writes run).map Prod.fst).Nodup ∧ (∀ x ∈ writes run, x.2 = w.fs x.1.view) ∧
      (run.val.exitCode = 3 → os.Sound → ∃ x ∈ writes run, w.fs x.1.view ≠ none)

/-- with distinct addresses in the queue, `main` is never in its own way -/
theorem main_clean {q : List MatchCandidate} (hq : (q.map MatchCandidate.address).Nodup) :
    MainClean base patterns q := by
  intro os outdir count w turns hpre
  have hnodup : ((turns.filterMap Turn.popped).map MatchCandidate.address).Nodup :=
    hq.sublist (hpre.sublist.map _)
  have hrun : CleanRun os ⟨0, 0, w⟩ _ (mainLoop base os outdir patterns count turns ⟨0, 0, w⟩) :=
    mainLoop_clean turns hnodup
  exact ⟨hnodup.sublist hrun.popped, hrun.untouched, hrun.exitCode (show 0 ≠ 3 by decide)⟩

/-! ## a candidate that comes again -/

theorem handle_ok {v : VerifiedResult} (hv : verify base c patterns = .ok v)
    (hw : (writeTorKeys os outdir v s.world).1 = .ok ()) :
    (handle base os outdir patterns c s).val = (true, { s with
      found := (s.found + 1) % 2^64, world := (writeTorKeys os outdir v s.world).2 }) := by
  rw [handle, hv]
  dsimp only
  rw [bind_val, hw]
  rfl

theorem handle_error {v : VerifiedResult} (hv : verify base c patterns = .ok v)
    (hw : (writeTorKeys os outdir v s.world).1 ≠ .ok ()) :
    (handle base os outdir patterns c s).val = (false, { s with
      exitCode := 3, world := (writeTorKeys os outdir v s.world).2 }) := by
  rw [handle, hv]
  dsimp only
  rw [bind_val]
  cases he : (writeTorKeys os outdir v s.world).1 with
  | error e => rfl
  | ok u => exact absurd he hw

/-- without a limit, `main` stops with exit code 3 when an address comes again -/
theorem mainLoop_duplicate (cs : List MatchCandidate)
    (hv : ∀ c ∈ cs, ∃ v, verify base c patterns = .ok v)
    (hdup : (∃ c ∈ cs, ∃ f, s.world.lookup c.address.view "hostname" = some f) ∨
      ¬ (cs.map MatchCandidate.address).Nodup) :
    (mainLoop base os outdir patterns 0 (cs.map fun c => ⟨false, some c, false⟩) s).val.exitCode =
      3 := by
  induction cs generalizing s with
  | nil =>
    rcases hdup with ⟨c, hc, -⟩ | hdup
    · cases hc
    · exact absurd List.nodup_nil hdup
  | cons c cs ih =>
    obtain ⟨v, hvc⟩ := hv c (by simp)
    have ha := verify_address hvc
    rw [List.map_cons, mainLoop, if_pos ⟨Or.inl rfl, Bool.false_ne_true⟩]
    dsimp only
    rw [bind_val]
    by_cases hw : (writeTorKeys os outdir v s.world).1 = .ok ()
    · rw [handle_ok hvc hw]
      obtain ⟨hf, -, -⟩ := writeTorKeys_files hw
      rw [ha] at hf
      refine ih (fun c' hc' => hv c' (List.mem_cons_of_mem _ hc')) ?_
      rcases hdup with ⟨c', hc', f', hf'⟩ | hdup
      · rcases List.mem_cons.mp hc' with rfl | hc'
        · rw [← ha] at hf'
          exact absurd hw (writeTorKeys_again hf' outdir)
        · exact Or.inl ⟨c', hc', f', writeTorKeys_keeps hf' outdir v⟩
      · rw [List.map_cons, List.nodup_cons, not_and_or, not_not] at hdup
        rcases hdup with hmem | hdup
        · obtain ⟨c', hc', e⟩ := List.mem_map.mp hmem
          exact Or.inl ⟨c', hc', _, e ▸ hf⟩
        · exact Or.inr hdup
    · rw [handle_error hvc hw]
      rfl

end

end Onion
