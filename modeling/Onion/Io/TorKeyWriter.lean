import Onion.Io.Verifier
import Mathlib.Logic.Function.Basic

/-!
# `tor_key_writer.cpp`: the files of a result

* `FileSystem`       the entries of the output directory, by name;
* `Os`               which system calls fail, and how much a `write` takes;
* `components`       the directories on the way to the output directory;
* `writeTorKeys_parents` those of them that are missing are made, from the top;
* `writeTorKeys_frame`   the writer touches no directory but that of its address;
* `writeTorKeys_ok`      it succeeds when nothing is there and no call fails;
* `writeTorKeys_keeps`   it changes no file that is there;
* `writeTorKeys_files`     success leaves the three files, complete, whatever the calls did;
* `writeTorKeys_new`       and says that they were not there;
* `writeTorKeys_again`     it does not succeed twice;
* `writeTorKeys_exact`     all this for any sequence of calls.
-/

namespace Onion

inductive WriteError where
  | createDirFailed
  | openFailed
  | writeFailed
deriving DecidableEq

def asciiBytes (s : List Char) : List UInt8 := s.map fun c => UInt8.ofNat c.toNat

def kSecretTag : List Char := "== ed25519v1-secret: type0 ==".toList

def kPublicTag : List Char := "== ed25519v1-public: type0 ==".toList

/-- the tag, padded with zeros to 32 bytes -/
def makeHeader (tag : List Char) : List UInt8 :=
  asciiBytes tag ++ List.replicate (32 - tag.length) 0

/-! ## files -/

structure File where
  mode : Nat
  content : List UInt8

/-- what a name in the output directory stands for -/
inductive Entry where
  | other
  | dir (mode : Nat) (files : String → Option File)

abbrev FileSystem := List Char → Option Entry

/-- call number `n` fails if `fails n`; a `write` takes at most `wrote n` bytes, and none is a
failure -/
structure Os where
  umask : Nat
  fails : Nat → Bool
  wrote : Nat → Nat

/-- no call fails on its own account -/
def Os.Sound (os : Os) : Prop := ∀ n, os.fails n = false ∧ 0 < os.wrote n

/-- the output directory, the modes of the directories on the way to it (and of itself) that are
there, and the number of system calls so far -/
structure World where
  fs : FileSystem
  parents : List Char → Option Nat
  calls : Nat

namespace World

def tick (w : World) : World := { w with calls := w.calls + 1 }

def lookup (w : World) (d : List Char) (name : String) : Option File :=
  match w.fs d with
  | some (.dir _ files) => files name
  | _ => none

def setFile (w : World) (d : List Char) (name : String) (f : File) : World :=
  match w.fs d with
  | some (.dir mode files) =>
    { w with fs := Function.update w.fs d (some (.dir mode (Function.update files name (some f)))) }
  | _ => w

end World

abbrev Outcome := Except WriteError Unit × World

/-- go on unless the call failed -/
def Outcome.andThen (r : Outcome) (f : World → Outcome) : Outcome :=
  match r.1 with
  | .ok _ => f r.2
  | .error e => (.error e, r.2)

/-! ## the writer -/

section
variable (os : Os)

/-- the loop over `write`, with `rest` to go -/
def writeLoop (d : List Char) (name : String) (mode : Nat) (done rest : List UInt8) (w : World) :
    Outcome :=
  if rest = [] then (.ok (), w)
  else
    let n := if os.fails w.calls then 0 else min (os.wrote w.calls) rest.length
    if n = 0 then (.error .writeFailed, w.tick)
    else
      writeLoop d name mode (done ++ rest.take n) (rest.drop n)
        (w.tick.setFile d name ⟨mode, done ++ rest.take n⟩)
termination_by rest.length
decreasing_by
  have hpos : 0 < rest.length := List.length_pos_iff.mpr ‹_›
  rw [List.length_drop]
  omega

/-- `open(O_CREAT | O_EXCL, 0600)`, and all the data -/
def writeFile0600 (d : List Char) (name : String) (data : List UInt8) (w : World) : Outcome :=
  if os.fails w.calls then (.error .openFailed, w.tick)
  else
    match w.fs d with
    | some (.dir _ files) =>
      match files name with
      | some _ => (.error .openFailed, w.tick)
      | none =>
        let mode := 0o600 &&& (0o777 ^^^ os.umask)
        writeLoop os d name mode [] data (w.tick.setFile d name ⟨mode, []⟩)
    | _ => (.error .openFailed, w.tick)

/-- the name is one of a directory, not empty and no dot or dot-dot -/
def component (before name : List Char) : List (List Char) :=
  if name = [] ∨ name = ['.'] ∨ name = ['.', '.'] then [] else [before ++ name]

/-- the directories that `before ++ name ++ p` goes through, the first one first, when `name` is
what is read of a name so far -/
def components (before name : List Char) : List Char → List (List Char)
  | [] => component before name
  | c :: p =>
    if c = '/' then component before name ++ components (before ++ name ++ ['/']) [] p
    else components before (name ++ [c]) p

example : components [] [] "/a/../b//c/".toList =
    ["/a".toList, "/a/../b".toList, "/a/../b//c".toList] := by decide

/-- `mkdir(d, 0777)` for the directories of a list that are missing -/
def makeParents : List (List Char) → World → Outcome
  | [], w => (.ok (), w)
  | d :: l, w =>
    if (w.parents d).isSome then makeParents l w
    else if os.fails w.calls then (.error .createDirFailed, w.tick)
    else
      let mode := 0o777 &&& (0o777 ^^^ os.umask)
      makeParents l { w.tick with parents := Function.update w.parents d (some mode) }

/-- `create_directories(outdir)`: a call that looks what is there, and one for each directory that is
missing; a name on the way that is no directory is a call that fails -/
def createDirectories (outdir : List Char) (w : World) : Outcome :=
  if outdir = [] then (.ok (), w)
  else if os.fails w.calls then (.error .createDirFailed, w.tick)
  else makeParents os (components [] [] outdir) w.tick

/-- `mkdir(d, 0700)`; an entry of that name is no error -/
def makeLeaf (d : List Char) (w : World) : Outcome :=
  if os.fails w.calls then (.error .createDirFailed, w.tick)
  else
    match w.fs d with
    | some _ => (.ok (), w.tick)
    | none =>
      let mode := 0o700 &&& (0o777 ^^^ os.umask)
      (.ok (), { w.tick with fs := Function.update w.fs d (some (.dir mode fun _ => none)) })

def hostnameFile (r : VerifiedResult) : List UInt8 := asciiBytes (r.address.toString ++ ['\n'])

def secretFile (r : VerifiedResult) : List UInt8 :=
  makeHeader kSecretTag ++ r.secret.scalar.1 ++ r.secret.prfPrefix.1

def publicFile (r : VerifiedResult) : List UInt8 := makeHeader kPublicTag ++ r.pubkey.1

def writeTorKeys (outdir : List Char) (r : VerifiedResult) (w : World) : Outcome :=
  let d := r.address.view
  (createDirectories os outdir w)
    |>.andThen (makeLeaf os d)
    |>.andThen (writeFile0600 os d "hostname" (hostnameFile r))
    |>.andThen (writeFile0600 os d "hs_ed25519_secret_key" (secretFile r))
    |>.andThen (writeFile0600 os d "hs_ed25519_public_key" (publicFile r))

end

/-! ## what the writer leaves alone -/

section
variable {os : Os} {d e : List Char} {name : String} {w : World}

theorem Outcome.andThen_inv (P : World → Prop) {r : Outcome} {f : World → Outcome} (hr : P r.2)
    (hf : ∀ w, P w → P (f w).2) : P (r.andThen f).2 := by
  rw [Outcome.andThen]
  split
  · exact hf _ hr
  · exact hr

theorem writeTorKeys_inv (P : World → Prop) {outdir : List Char} {r : VerifiedResult}
    (h : P (createDirectories os outdir w).2)
    (hleaf : ∀ v, P v → P (makeLeaf os r.address.view v).2)
    (hfile : ∀ name data v, P v → P (writeFile0600 os r.address.view name data v).2) :
    P (writeTorKeys os outdir r w).2 := by
  refine Outcome.andThen_inv P ?_ (hfile _ _)
  refine Outcome.andThen_inv P ?_ (hfile _ _)
  refine Outcome.andThen_inv P ?_ (hfile _ _)
  exact Outcome.andThen_inv P h hleaf

theorem World.setFile_other (he : e ≠ d) (f : File) : (w.setFile d name f).fs e = w.fs e := by
  rw [World.setFile]
  split
  · exact Function.update_of_ne he _ _
  · rfl

theorem writeLoop_inv (P : World → Prop) (htick : ∀ v, P v → P v.tick)
    (hset : ∀ v f, P v → P (v.setFile d name f)) (mode : Nat) (done rest : List UInt8) (w : World)
    (h : P w) : P (writeLoop os d name mode done rest w).2 := by
  induction done, rest, w using writeLoop.induct os d name mode with
  | case1 done w =>
    rw [writeLoop, if_pos rfl]
    exact h
  | case2 done rest w hr n hn =>
    rw [writeLoop, if_neg hr]
    exact (congrArg (fun r : Outcome => P r.2) (if_pos hn)).mpr (htick w h)
  | case3 done rest w hr n hn ih =>
    rw [writeLoop, if_neg hr]
    exact (congrArg (fun r : Outcome => P r.2) (if_neg hn)).mpr (ih (hset _ _ (htick w h)))

theorem writeFile0600_inv (P : World → Prop) (htick : ∀ v, P v → P v.tick)
    (hset : ∀ v f, P v → P (v.setFile d name f)) (data : List UInt8) (w : World) (h : P w) :
    P (writeFile0600 os d name data w).2 := by
  rw [writeFile0600]
  split
  · exact htick w h
  · split
    · split
      · exact htick w h
      · exact writeLoop_inv P htick hset _ _ _ _ (hset _ _ (htick w h))
    · exact htick w h

theorem writeFile0600_frame (he : e ≠ d) (data : List UInt8) (w : World) :
    (writeFile0600 os d name data w).2.fs e = w.fs e :=
  writeFile0600_inv (fun v => v.fs e = w.fs e) (fun _ hv => hv)
    (fun _ f hv => (World.setFile_other he f).trans hv) data w rfl

theorem makeLeaf_frame (he : e ≠ d) (w : World) : (makeLeaf os d w).2.fs e = w.fs e := by
  rw [makeLeaf]
  split
  · rfl
  · split
    · rfl
    · exact Function.update_of_ne he _ _

/-- the directories of `m` that were missing, with the mode that the mask leaves -/
def addParents (os : Os) (m : List (List Char)) (parents : List Char → Option Nat)
    (e : List Char) : Option Nat :=
  (parents e).or (if e ∈ m then some (0o777 &&& (0o777 ^^^ os.umask)) else none)

theorem addParents_nil (parents : List Char → Option Nat) : addParents os [] parents = parents :=
  funext fun e => by rw [addParents, if_neg List.not_mem_nil, Option.or_none]

theorem addParents_there {l : List (List Char)} {parents : List Char → Option Nat}
    (hd : (parents d).isSome) : addParents os (d :: l) parents = addParents os l parents := by
  funext e
  unfold addParents
  by_cases he : e = d
  · obtain ⟨mode, hmode⟩ := Option.isSome_iff_exists.mp hd
    rw [he, hmode, Option.some_or, Option.some_or]
  · simp only [List.mem_cons, he, false_or]

theorem addParents_new {l : List (List Char)} {parents : List Char → Option Nat}
    (hd : parents d = none) :
    addParents os l (Function.update parents d (some (0o777 &&& (0o777 ^^^ os.umask)))) =
      addParents os (d :: l) parents := by
  funext e
  unfold addParents
  by_cases he : e = d
  · rw [he, Function.update_self, hd, if_pos List.mem_cons_self, Option.some_or, Option.none_or]
  · simp only [Function.update_of_ne he, List.mem_cons, he, false_or]

/-- the missing ones of a first part of the list are made; of all of it on success -/
theorem makeParents_left (os : Os) (l : List (List Char)) (w : World) :
    ∃ m, m <+: l ∧ (makeParents os l w).2.parents = addParents os m w.parents ∧
      (makeParents os l w).2.fs = w.fs ∧
      ((makeParents os l w).1 = .ok () ∧ m = l ∨
        (makeParents os l w).1 = .error .createDirFailed ∧ ¬os.Sound) := by
  induction l generalizing w with
  | nil => exact ⟨[], List.prefix_rfl, (addParents_nil _).symm, rfl, Or.inl ⟨rfl, rfl⟩⟩
  | cons d l ih =>
    rw [makeParents]
    split
    next hd =>
      obtain ⟨m, hm, hparents, hfs, hcode⟩ := ih w
      exact ⟨d :: m, List.cons_prefix_cons.mpr ⟨rfl, hm⟩,
        hparents.trans (addParents_there hd).symm, hfs,
        hcode.imp_left fun ⟨hok, e⟩ => ⟨hok, congrArg _ e⟩⟩
    next hd =>
      split
      next hf =>
        exact ⟨[], List.nil_prefix, (addParents_nil _).symm, rfl,
          Or.inr ⟨rfl, fun hs => absurd ((hs w.calls).1) (by rw [hf]; decide)⟩⟩
      · obtain ⟨m, hm, hparents, hfs, hcode⟩ := ih ⟨w.fs, Function.update w.parents d
          (some (0o777 &&& (0o777 ^^^ os.umask))), w.calls + 1⟩
        exact ⟨d :: m, List.cons_prefix_cons.mpr ⟨rfl, hm⟩,
          hparents.trans (addParents_new (Option.not_isSome_iff_eq_none.mp hd)), hfs,
          hcode.imp_left fun ⟨hok, e⟩ => ⟨hok, congrArg _ e⟩⟩

/-- **The directories on the way**: those of a first part of them that were missing are made, and
of all of them on success -/
theorem createDirectories_left (os : Os) (outdir : List Char) (w : World) :
    ∃ m, m <+: components [] [] outdir ∧
      (createDirectories os outdir w).2.parents = addParents os m w.parents ∧
      (createDirectories os outdir w).2.fs = w.fs ∧
      ((createDirectories os outdir w).1 = .ok () ∧ m = components [] [] outdir ∨
        (createDirectories os outdir w).1 = .error .createDirFailed ∧ ¬os.Sound) := by
  rw [createDirectories]
  split
  next hnil =>
    rw [hnil]
    have e : components [] [] [] = [] := rfl
    exact ⟨[], List.nil_prefix, (addParents_nil _).symm, rfl, Or.inl ⟨rfl, e.symm⟩⟩
  · split
    next hf =>
      exact ⟨[], List.nil_prefix, (addParents_nil _).symm, rfl,
        Or.inr ⟨rfl, fun hs => absurd (hs w.calls).1 (by rw [hf]; decide)⟩⟩
    · exact makeParents_left os _ w.tick

theorem createDirectories_fs (outdir : List Char) (w : World) :
    (createDirectories os outdir w).2.fs = w.fs := by
  obtain ⟨-, -, -, hfs, -⟩ := createDirectories_left os outdir w
  exact hfs

/-- the writer touches no directory but that of its address -/
theorem writeTorKeys_frame {r : VerifiedResult} (he : e ≠ r.address.view) (outdir : List Char)
    (w : World) : (writeTorKeys os outdir r w).2.fs e = w.fs e := by
  refine writeTorKeys_inv (fun v => v.fs e = w.fs e) ?_ (fun v hv => ?_) fun name data v hv => ?_
  · rw [createDirectories_fs]
  · exact (makeLeaf_frame he v).trans hv
  · exact (writeFile0600_frame he data v).trans hv

end

/-! ## when the writer succeeds -/

section
variable {os : Os} {d : List Char} {name : String} {w : World}

theorem World.setFile_dir {mode : Nat} {files : String → Option File}
    (hd : w.fs d = some (.dir mode files)) (name : String) (f : File) : (w.setFile d name f).fs d =
      some (.dir mode (Function.update files name (some f))) := by
  rw [World.setFile, hd]
  exact Function.update_self _ _ _

/-- what the loop leaves in the file: a prefix of the data, all of it on success -/
theorem writeLoop_dir (os : Os) {dmode : Nat} {files : String → Option File} (mode : Nat)
    (done rest : List UInt8) {w : World}
    (hd : w.fs d = some (.dir dmode (Function.update files name (some ⟨mode, done⟩)))) :
    ∃ k, (writeLoop os d name mode done rest w).2.fs d =
        some (.dir dmode (Function.update files name (some ⟨mode, done ++ rest.take k⟩))) ∧
      ((writeLoop os d name mode done rest w).1 = .ok () ↔ rest.take k = rest) ∧
      (os.Sound → (writeLoop os d name mode done rest w).1 = .ok ()) := by
  induction done, rest, w using writeLoop.induct os d name mode with
  | case1 done w =>
    rw [writeLoop, if_pos rfl]
    exact ⟨0, by rw [hd, List.take_nil, List.append_nil], iff_of_true rfl List.take_nil,
      fun _ => rfl⟩
  | case2 done rest w hr n hn =>
    have e : writeLoop os d name mode done rest w = (.error .writeFailed, w.tick) := by
      rw [writeLoop, if_neg hr]
      exact if_pos hn
    rw [e]
    refine ⟨0, by rw [List.take_zero, List.append_nil]; exact hd, iff_of_false nofun fun h => ?_,
      fun hs => ?_⟩
    · exact hr (h.symm.trans List.take_zero)
    obtain ⟨hf, hw⟩ := hs w.calls
    have hpos : 0 < rest.length := List.length_pos_iff.mpr hr
    have hmin : n = min (os.wrote w.calls) rest.length := by simp [n, hf]
    omega
  | case3 done rest w hr n hn ih =>
    have e : writeLoop os d name mode done rest w =
        writeLoop os d name mode (done ++ rest.take n) (rest.drop n)
          (w.tick.setFile d name ⟨mode, done ++ rest.take n⟩) := by
      rw [writeLoop, if_neg hr]
      exact if_neg hn
    have hset := World.setFile_dir (w := w.tick) hd name ⟨mode, done ++ rest.take n⟩
    rw [Function.update_idem] at hset
    obtain ⟨k, hk, hok, hsound⟩ := ih hset
    rw [e]
    refine ⟨n + k, ?_, hok.trans ?_, hsound⟩
    · rw [hk, List.append_assoc, List.take_add]
    · rw [List.take_add]
      constructor
      · intro h
        rw [h, List.take_append_drop]
      · intro h
        exact List.append_cancel_left (h.trans (List.take_append_drop n rest).symm)

theorem Outcome.andThen_eq_ok {r : Outcome} {f : World → Outcome} :
    (r.andThen f).1 = .ok () ↔ r.1 = .ok () ∧ (f r.2).1 = .ok () := by
  rw [Outcome.andThen]
  cases hr : r.1 with
  | ok u => exact (and_iff_right rfl).symm
  | error e => exact ⟨nofun, fun h => by cases h.1⟩

theorem Outcome.andThen_ok {r : Outcome} (hr : r.1 = .ok ()) (f : World → Outcome) :
    r.andThen f = f r.2 := by
  rw [Outcome.andThen, hr]

theorem writeFile0600_open {dmode : Nat} {files : String → Option File}
    (hf : ¬os.fails w.calls) (hd : w.fs d = some (.dir dmode files)) (hn : files name = none)
    (data : List UInt8) :
    writeFile0600 os d name data w = writeLoop os d name (0o600 &&& (0o777 ^^^ os.umask)) [] data
      (w.tick.setFile d name ⟨0o600 &&& (0o777 ^^^ os.umask), []⟩) := by
  rw [writeFile0600, if_neg hf, hd]
  dsimp only
  rw [hn]

theorem writeFile0600_ok (hs : os.Sound) {dmode : Nat} {files : String → Option File}
    (hd : w.fs d = some (.dir dmode files)) (name : String) (hn : files name = none)
    (data : List UInt8) : (writeFile0600 os d name data w).1 = .ok () ∧
      (writeFile0600 os d name data w).2.fs d = some (.dir dmode (Function.update files name
        (some ⟨0o600 &&& (0o777 ^^^ os.umask), data⟩))) := by
  obtain ⟨k, hk, hok, hsound⟩ := writeLoop_dir os _ [] data (World.setFile_dir
    (w := w.tick) hd name ⟨0o600 &&& (0o777 ^^^ os.umask), []⟩)
  rw [writeFile0600_open (by rw [(hs w.calls).1]; decide) hd hn]
  refine ⟨hsound hs, ?_⟩
  rw [hk, List.nil_append, hok.mp (hsound hs)]

/-- `O_EXCL` -/
theorem writeFile0600_exists {f : File} (hf : w.lookup d name = some f) (data : List UInt8) :
    writeFile0600 os d name data w = (.error .openFailed, w.tick) := by
  rw [World.lookup] at hf
  rw [writeFile0600]
  split
  · rfl
  · split at hf
    next mode files hd =>
      dsimp only
      rw [hf]
    · cases hf

theorem createDirectories_ok (hs : os.Sound) (outdir : List Char) :
    (createDirectories os outdir w).1 = .ok () := by
  obtain ⟨-, -, -, -, ⟨hok, -⟩ | ⟨-, hfail⟩⟩ := createDirectories_left os outdir w
  · exact hok
  · exact absurd hs hfail

theorem makeLeaf_ok (hs : os.Sound) (hd : w.fs d = none) : (makeLeaf os d w).1 = .ok () ∧
    (makeLeaf os d w).2.fs d = some (.dir (0o700 &&& (0o777 ^^^ os.umask)) fun _ => none) := by
  rw [makeLeaf, if_neg (by rw [(hs w.calls).1]; decide), hd]
  exact ⟨rfl, Function.update_self _ _ _⟩

def resultFiles (os : Os) (r : VerifiedResult) : String → Option File :=
  let file (data : List UInt8) : Option File := some ⟨0o600 &&& (0o777 ^^^ os.umask), data⟩
  Function.update (Function.update (Function.update (fun _ => none)
    "hostname" (file (hostnameFile r)))
    "hs_ed25519_secret_key" (file (secretFile r)))
    "hs_ed25519_public_key" (file (publicFile r))

/-- the writer succeeds when nothing is there and no call fails -/
theorem writeTorKeys_ok (hs : os.Sound) {r : VerifiedResult} (hd : w.fs r.address.view = none)
    (outdir : List Char) : (writeTorKeys os outdir r w).1 = .ok () ∧
      (writeTorKeys os outdir r w).2.fs r.address.view =
        some (.dir (0o700 &&& (0o777 ^^^ os.umask)) (resultFiles os r)) := by
  have hcreate := createDirectories_ok (w := w) hs outdir
  obtain ⟨hleaf, hdir⟩ := makeLeaf_ok (w := (createDirectories os outdir w).2) hs
    (by rw [createDirectories_fs]; exact hd)
  obtain ⟨h1, hd1⟩ := writeFile0600_ok hs hdir "hostname" rfl (hostnameFile r)
  obtain ⟨h2, hd2⟩ := writeFile0600_ok hs hd1 "hs_ed25519_secret_key" (by simp)
    (secretFile r)
  obtain ⟨h3, hd3⟩ := writeFile0600_ok hs hd2 "hs_ed25519_public_key" (by simp)
    (publicFile r)
  rw [writeTorKeys, Outcome.andThen_ok hcreate, Outcome.andThen_ok hleaf, Outcome.andThen_ok h1,
    Outcome.andThen_ok h2]
  exact ⟨h3, hd3⟩

/-! ## files that are there stay as they are -/

theorem World.lookup_setFile {e : List Char} {n : String} (hne : e ≠ d ∨ n ≠ name) (f : File) :
    (w.setFile d name f).lookup e n = w.lookup e n := by
  by_cases he : e = d
  · subst he
    have hn : n ≠ name := hne.resolve_left fun h => h rfl
    rw [World.lookup, World.lookup, World.setFile]
    cases hd : w.fs e with
    | none => simp only [hd]
    | some x =>
      cases x with
      | other => simp only [hd]
      | dir mode files => simp only [Function.update_self, Function.update_of_ne hn]
  · rw [World.lookup, World.lookup, World.setFile_other he]

theorem writeLoop_lookup {e : List Char} {n : String} (hne : e ≠ d ∨ n ≠ name) (mode : Nat)
    (done rest : List UInt8) (w : World) :
    (writeLoop os d name mode done rest w).2.lookup e n = w.lookup e n :=
  writeLoop_inv (fun v => v.lookup e n = w.lookup e n) (fun _ hv => hv)
    (fun _ f hv => (World.lookup_setFile hne f).trans hv) mode done rest w rfl

theorem writeFile0600_keeps {e : List Char} {n : String} {f : File} (h : w.lookup e n = some f)
    (data : List UInt8) : (writeFile0600 os d name data w).2.lookup e n = some f := by
  rw [writeFile0600]
  split
  · exact h
  · split
    next mode files hd =>
      split
      · exact h
      next hnone =>
        have hne : e ≠ d ∨ n ≠ name := by
          by_contra hc
          push Not at hc
          rw [hc.1, hc.2, World.lookup, hd] at h
          cases hnone.symm.trans h
        rw [writeLoop_lookup hne, World.lookup_setFile hne]
        exact h
    · exact h

theorem makeLeaf_keeps {e : List Char} {n : String} {f : File} (h : w.lookup e n = some f) :
    (makeLeaf os d w).2.lookup e n = some f := by
  rw [makeLeaf]
  split
  · exact h
  · split
    · exact h
    next hd =>
      have hne : e ≠ d := fun he => by
        rw [he, World.lookup, hd] at h
        cases h
      have hw : (Function.update w.fs d (some (Entry.dir (0o700 &&& (0o777 ^^^ os.umask))
          fun _ => none))) e = w.fs e := Function.update_of_ne hne _ _
      rw [World.lookup] at h ⊢
      dsimp only
      rw [hw]
      exact h

/-- the writer never changes a file that is there -/
theorem writeTorKeys_keeps {e : List Char} {n : String} {f : File} (h : w.lookup e n = some f)
    (outdir : List Char) (r : VerifiedResult) :
    (writeTorKeys os outdir r w).2.lookup e n = some f := by
  refine writeTorKeys_inv (fun v => v.lookup e n = some f) ?_ (fun v hv => makeLeaf_keeps hv)
    fun name data v hv => writeFile0600_keeps hv data
  rw [World.lookup, createDirectories_fs]
  exact h

theorem writeFile0600_content {data : List UInt8}
    (hok : (writeFile0600 os d name data w).1 = .ok ()) :
    (writeFile0600 os d name data w).2.lookup d name =
      some ⟨0o600 &&& (0o777 ^^^ os.umask), data⟩ := by
  rw [writeFile0600] at hok ⊢
  split at hok
  · cases hok
  next hfails =>
    split at hok
    next mode files hd =>
      split at hok
      · cases hok
      next hnone =>
        rw [if_neg hfails]
        obtain ⟨k, hk, hall, -⟩ := writeLoop_dir os _ [] data (World.setFile_dir
          (w := w.tick) hd name ⟨0o600 &&& (0o777 ^^^ os.umask), []⟩)
        rw [List.nil_append, hall.mp hok] at hk
        dsimp only
        rw [World.lookup, hk]
        exact Function.update_self _ _ _
    · cases hok

/-- success leaves the three files, complete -/
theorem writeTorKeys_files {outdir : List Char} {r : VerifiedResult}
    (hok : (writeTorKeys os outdir r w).1 = .ok ()) :
    let file (data : List UInt8) : Option File := some ⟨0o600 &&& (0o777 ^^^ os.umask), data⟩
    let w' := (writeTorKeys os outdir r w).2
    w'.lookup r.address.view "hostname" = file (hostnameFile r) ∧
      w'.lookup r.address.view "hs_ed25519_secret_key" = file (secretFile r) ∧
      w'.lookup r.address.view "hs_ed25519_public_key" = file (publicFile r) := by
  obtain ⟨h2, hpublic⟩ := Outcome.andThen_eq_ok.mp hok
  obtain ⟨h1, hsecret⟩ := Outcome.andThen_eq_ok.mp h2
  obtain ⟨-, hhost⟩ := Outcome.andThen_eq_ok.mp h1
  dsimp only
  rw [writeTorKeys, Outcome.andThen_ok h2]
  refine ⟨writeFile0600_keeps ?_ _, writeFile0600_keeps ?_ _, writeFile0600_content hpublic⟩
  · rw [Outcome.andThen_ok h1]
    refine writeFile0600_keeps ?_ _
    rw [Outcome.andThen_ok (Outcome.andThen_eq_ok.mp h1).1]
    exact writeFile0600_content hhost
  · rw [Outcome.andThen_ok h1]
    exact writeFile0600_content hsecret

theorem writeFile0600_new {data : List UInt8}
    (hok : (writeFile0600 os d name data w).1 = .ok ()) : w.lookup d name = none := by
  cases hf : w.lookup d name with
  | none => rfl
  | some f =>
    rw [writeFile0600_exists hf] at hok
    cases hok

theorem lookup_none_of_keeps {w' : World} {e : List Char} {n : String}
    (hkeeps : ∀ f, w.lookup e n = some f → w'.lookup e n = some f) (h : w'.lookup e n = none) :
    w.lookup e n = none := by
  cases hf : w.lookup e n with
  | none => rfl
  | some f => cases (hkeeps f hf).symm.trans h

/-- success says that the three files are new -/
theorem writeTorKeys_new {outdir : List Char} {r : VerifiedResult}
    (hok : (writeTorKeys os outdir r w).1 = .ok ()) :
    w.lookup r.address.view "hostname" = none ∧
      w.lookup r.address.view "hs_ed25519_secret_key" = none ∧
      w.lookup r.address.view "hs_ed25519_public_key" = none := by
  obtain ⟨h2, hpublic⟩ := Outcome.andThen_eq_ok.mp hok
  obtain ⟨h1, hsecret⟩ := Outcome.andThen_eq_ok.mp h2
  obtain ⟨hleaf, hhost⟩ := Outcome.andThen_eq_ok.mp h1
  -- what is there at first is there at each of the three calls
  have hdir : ∀ n f, w.lookup r.address.view n = some f →
      ((createDirectories os outdir w).andThen (makeLeaf os r.address.view)).2.lookup
        r.address.view n = some f := by
    intro n f hf
    refine Outcome.andThen_inv (fun v => v.lookup r.address.view n = some f) ?_
      fun v hv => makeLeaf_keeps hv
    rw [World.lookup, createDirectories_fs]
    exact hf
  refine ⟨lookup_none_of_keeps (hdir _) (writeFile0600_new hhost),
    lookup_none_of_keeps (fun f hf => ?_) (writeFile0600_new hsecret),
    lookup_none_of_keeps (fun f hf => ?_) (writeFile0600_new hpublic)⟩
  · rw [Outcome.andThen_ok hleaf]
    exact writeFile0600_keeps (hdir _ f hf) _
  · rw [Outcome.andThen_ok h1]
    refine writeFile0600_keeps ?_ _
    rw [Outcome.andThen_ok hleaf]
    exact writeFile0600_keeps (hdir _ f hf) _

theorem writeTorKeys_again {r : VerifiedResult} {f : File}
    (hf : w.lookup r.address.view "hostname" = some f) (outdir : List Char) :
    (writeTorKeys os outdir r w).1 ≠ .ok () := fun hok =>
  Option.some_ne_none f (hf.symm.trans (writeTorKeys_new hok).1)

/-! ## the call as a whole -/

theorem writeTorKeys_other {e : List Char} (h : w.fs e = some .other) (outdir : List Char)
    (r : VerifiedResult) : (writeTorKeys os outdir r w).2.fs e = some .other := by
  refine writeTorKeys_inv (fun v => v.fs e = some .other) ?_ (fun v hv => ?_)
    fun name data v hv => ?_
  · rw [createDirectories_fs]
    exact h
  · rw [makeLeaf]
    split
    · exact hv
    · split
      · exact hv
      next hd =>
        have hne : e ≠ r.address.view := fun he => by
          rw [he, hd] at hv
          cases hv
        exact (Function.update_of_ne hne _ _).trans hv
  · by_cases he : e = r.address.view
    · subst he
      rw [writeFile0600]
      split
      · exact hv
      · rw [hv]
        exact hv
    · exact (writeFile0600_frame he data v).trans hv

theorem secretFile_length (r : VerifiedResult) : (secretFile r).length = 96 := by
  have hheader : (makeHeader kSecretTag).length = 32 := rfl
  rw [secretFile, List.length_append, List.length_append, hheader, r.secret.scalar.2,
    r.secret.prfPrefix.2]

theorem publicFile_length (r : VerifiedResult) : (publicFile r).length = 64 := by
  have hheader : (makeHeader kPublicTag).length = 32 := rfl
  rw [publicFile, List.length_append, hheader, r.pubkey.2]

theorem hostnameFile_eq (r : VerifiedResult) :
    hostnameFile r = asciiBytes (r.address.view ++ ".onion\n".toList) := by
  rw [hostnameFile, OnionAddress.toString, List.append_assoc]
  rfl

/-- **The writer is exact**: whatever the calls do, what is there stays as it is, and success says
that the three files are new and hold the address and the tagged keys. -/
theorem writeTorKeys_exact (os : Os) (outdir : List Char) (r : VerifiedResult) (w : World) :
    let d := r.address.view
    let res := writeTorKeys os outdir r w
    let created (name : String) (data : List UInt8) : Prop := w.lookup d name = none ∧
      res.2.lookup d name = some ⟨0o600 &&& (0o777 ^^^ os.umask), data⟩
    let secretData := asciiBytes kSecretTag ++ List.replicate 3 0 ++ r.secret.scalar.1 ++
      r.secret.prfPrefix.1
    let publicData := asciiBytes kPublicTag ++ List.replicate 3 0 ++ r.pubkey.1
    (∀ e name f, w.lookup e name = some f → res.2.lookup e name = some f) ∧
    (∀ e, w.fs e = some .other → res.2.fs e = some .other) ∧
    (res.1 = .ok () →
      created "hostname" (asciiBytes (d ++ ".onion\n".toList)) ∧
      (created "hs_ed25519_secret_key" secretData ∧ secretData.length = 96) ∧
      (created "hs_ed25519_public_key" publicData ∧ publicData.length = 64)) := by
  intro d res created secretData publicData
  refine ⟨fun e name f h => writeTorKeys_keeps h outdir r,
    fun e h => writeTorKeys_other h outdir r, fun hok => ?_⟩
  obtain ⟨hhost, hsecret, hpublic⟩ := writeTorKeys_files hok
  obtain ⟨nhost, nsecret, npublic⟩ := writeTorKeys_new hok
  rw [hostnameFile_eq] at hhost
  exact ⟨⟨nhost, hhost⟩, ⟨⟨nsecret, hsecret⟩, secretFile_length r⟩, ⟨npublic, hpublic⟩,
    publicFile_length r⟩

/-- one byte at a time, into a directory that is not there -/
theorem writeTorKeys_exact_bytewise :
    let os : Os := ⟨0o077, fun _ => false, fun _ => 1⟩
    let r : VerifiedResult := ⟨⟨Bytes.ofNat 32 8, Bytes.ofNat 32 0⟩, Bytes.ofNat 32 1,
      ⟨List.replicate 56 'a', rfl⟩⟩
    let w : World := ⟨fun _ => none, fun _ => none, 0⟩
    (writeTorKeys os [] r w).2.lookup r.address.view "hostname" =
      some ⟨0o600, asciiBytes (List.replicate 56 'a' ++ ".onion\n".toList)⟩ := by
  intro os r w
  have hsound : os.Sound := fun _ => ⟨rfl, Nat.one_pos⟩
  have hmode : 0o600 &&& (0o777 ^^^ os.umask) = 0o600 := by decide
  have hhost := ((writeTorKeys_exact os [] r w).2.2 (writeTorKeys_ok hsound rfl []).1).1.2
  rwa [hmode] at hhost

end

end Onion
