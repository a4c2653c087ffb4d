import Onion.Cli.Main

/-!
# What a reported result leaves on the disk

Verification, the address codec, the matcher and the writer fit together: whatever an engine puts in
the queue, a result that `main` reports has a directory that speaks for itself.

* `SelfConsistent`      the files of a directory agree with a candidate and with each other;
* `writeTorKeys_consistent`   a verified result, written with success;
* `mainLoop_keeps`      later results change no file;
* `found_consistent`    every reported result, and a rejected candidate.
-/

namespace Onion
open Logged

/-- the text of a file, one character a byte -/
def asciiChars (b : List UInt8) : List Char := b.map fun x => Char.ofNat x.toNat

def World.content (w : World) (d : List Char) (name : String) : Option (List UInt8) :=
  (w.lookup d name).map File.content

/-- the directory `d` holds the candidate's key, the public key `pk` of it, and the address of that:
it starts with the prefix that the candidate names, and `d` is its body -/
structure SelfConsistent (base : Bytes 32 → Option (Bytes 32)) (prefixes : List (List Char))
    (c : MatchCandidate) (d : List Char) (w : World) (pk : Bytes 32) : Prop where
  pubkey : pubkeyFromScalar base c.secret.scalar = some pk
  secretKey : ∃ f, w.content d "hs_ed25519_secret_key" = some f ∧
    (f.drop 32).take 32 = c.secret.scalar.1 ∧ (f.drop 64).take 32 = c.secret.prfPrefix.1
  publicKey : ∃ f, w.content d "hs_ed25519_public_key" = some f ∧ (f.drop 32).take 32 = pk.1
  hostname : ∃ f, w.content d "hostname" = some f ∧ f.getLast? = some 10 ∧
    let address := asciiChars f.dropLast
    pubkeyFromOnionAddress address = .ok pk ∧
      (∃ pre, prefixes[c.patternIndex]? = some pre ∧ pre <+: address) ∧
      address = d ++ kSuffix ∧ d.length = 56

/-! ## the bytes of the files -/

theorem asciiChars_asciiBytes {s : List Char} (h : ∀ c ∈ s, c.toNat < 256) :
    asciiChars (asciiBytes s) = s := by
  induction s with
  | nil => rfl
  | cons c s ih =>
    have hb : (UInt8.ofNat c.toNat).toNat = c.toNat := by
      rw [UInt8.toNat_ofNat']
      exact Nat.mod_eq_of_lt (h c (by simp))
    show Char.ofNat (UInt8.ofNat c.toNat).toNat :: asciiChars (asciiBytes s) = c :: s
    rw [hb, Char.ofNat_toNat, ih fun x hx => h x (List.mem_cons_of_mem _ hx)]

theorem toString_ascii (pk : Bytes 32) :
    ∀ c ∈ (onionAddressFromPubkey pk).toString, c.toNat < 256 :=
  fun c hc => (toString_printable pk c hc).2.trans (by decide)

theorem secretFile_bytes (r : VerifiedResult) :
    ((secretFile r).drop 32).take 32 = r.secret.scalar.1 ∧
      ((secretFile r).drop 64).take 32 = r.secret.prfPrefix.1 := by
  have hheader : (makeHeader kSecretTag).length = 32 := rfl
  have hlen : (makeHeader kSecretTag ++ r.secret.scalar.1).length = 64 := by
    rw [List.length_append, hheader, r.secret.scalar.2]
  constructor
  · rw [secretFile, List.append_assoc, List.drop_left' hheader, List.take_left' r.secret.scalar.2]
  · rw [secretFile, List.drop_left' hlen]
    exact List.take_of_length_le r.secret.prfPrefix.2.le

theorem publicFile_bytes (r : VerifiedResult) : ((publicFile r).drop 32).take 32 = r.pubkey.1 := by
  have hheader : (makeHeader kPublicTag).length = 32 := rfl
  rw [publicFile, List.drop_left' hheader]
  exact List.take_of_length_le r.pubkey.2.le

theorem hostnameFile_text (pk : Bytes 32) (secret : ExpandedSecretKey) :
    let f := hostnameFile ⟨secret, pk, onionAddressFromPubkey pk⟩
    f.getLast? = some 10 ∧ asciiChars f.dropLast = (onionAddressFromPubkey pk).toString := by
  intro f
  have hf : f = asciiBytes (onionAddressFromPubkey pk).toString ++ [10] := List.map_append
  rw [hf, List.getLast?_concat, List.dropLast_concat]
  exact ⟨rfl, asciiChars_asciiBytes (toString_ascii pk)⟩

/-! ## one result -/

section
variable {base : Bytes 32 → Option (Bytes 32)} {os : Os} {outdir : List Char}
  {prefixes : List (List Char)} {patterns : List CompiledPattern} {count : Nat}
  {c : MatchCandidate} {v : VerifiedResult} {w w' : World} {s : MainState}

theorem World.content_eq {d : List Char} {name : String} {mode : Nat} {f : List UInt8}
    (h : w.lookup d name = some ⟨mode, f⟩) : w.content d name = some f := by
  rw [World.content, h]
  rfl

theorem writeTorKeys_consistent (hp : Compiled prefixes patterns)
    (hv : verify base c patterns = .ok v) (hw : (writeTorKeys os outdir v w).1 = .ok ()) :
    SelfConsistent base prefixes c v.address.view (writeTorKeys os outdir v w).2
      c.claimedPubkey := by
  obtain ⟨hbase, ⟨pat, hpat, -, hstarts⟩, rfl⟩ := verify_eq_ok.mp hv
  obtain ⟨pre, hpre, hc⟩ := hp.getElem? hpat
  obtain ⟨hhost, hsecret, hpublic⟩ := writeTorKeys_files hw
  obtain ⟨hlast, htext⟩ := hostnameFile_text c.claimedPubkey c.secret
  obtain ⟨-, -, -, -, hletters, -, -⟩ := compilePrefix_eq_ok hc
  refine ⟨hbase, ⟨_, World.content_eq hsecret, secretFile_bytes _⟩,
    ⟨_, World.content_eq hpublic, publicFile_bytes _⟩, ⟨_, World.content_eq hhost, hlast, ?_⟩⟩
  dsimp only
  rw [htext]
  refine ⟨pubkeyFromOnionAddress_eq_ok.mpr (Or.inr rfl), ⟨pre, hpre, ?_⟩, rfl,
    (onionAddressFromPubkey c.claimedPubkey).length_eq⟩
  rw [← hletters]
  exact hstarts.trans (List.prefix_append _ _)

theorem handle_found (h : .found v ∈ (handle base os outdir patterns c s).log) :
    verify base c patterns = .ok v ∧ (writeTorKeys os outdir v s.world).1 = .ok () := by
  rw [handle] at h
  cases hv : verify base c patterns with
  | error e =>
    rw [hv] at h
    cases h
  | ok r =>
    rw [hv] at h
    cases hw : (writeTorKeys os outdir r s.world).1 with
    | error e =>
      simp only [bind_log, hw, pure_log, List.append_nil] at h
      cases List.mem_singleton.mp h
    | ok u =>
      simp only [bind_log, hw, pure_log, List.append_nil] at h
      rcases List.mem_append.mp h with h | h
      · cases List.mem_singleton.mp h
      · cases List.mem_singleton.mp h
        exact ⟨rfl, hw⟩

theorem handle_reports (hv : verify base c patterns = .ok v)
    (hw : (writeTorKeys os outdir v s.world).1 = .ok ()) :
    .found v ∈ (handle base os outdir patterns c s).log := by
  rw [handle, hv]
  simp only [bind_log, hw, pure_log, List.append_nil]
  exact List.mem_append_right _ (List.mem_singleton.mpr rfl)

theorem handle_consistent (hp : Compiled prefixes patterns)
    (h : .found v ∈ (handle base os outdir patterns c s).log) :
    verify base c patterns = .ok v ∧ SelfConsistent base prefixes c v.address.view
      (handle base os outdir patterns c s).val.2.world c.claimedPubkey := by
  obtain ⟨hv, hw⟩ := handle_found h
  refine ⟨hv, ?_⟩
  rw [handle_ok hv hw]
  exact writeTorKeys_consistent hp hv hw

theorem handle_rejected (h : ∀ v, verify base c patterns ≠ .ok v) :
    (handle base os outdir patterns c s).val.2.world = s.world ∧
      (handle base os outdir patterns c s).log = [] := by
  rw [handle]
  cases hv : verify base c patterns with
  | error e => exact ⟨rfl, rfl⟩
  | ok v => exact absurd hv (h v)

/-! ## a run -/

theorem handle_keeps {d : List Char} {name : String} {f : File}
    (h : s.world.lookup d name = some f) :
    (handle base os outdir patterns c s).val.2.world.lookup d name = some f := by
  cases hv : verify base c patterns with
  | error e =>
    rw [(handle_rejected fun v hok => by rw [hv] at hok; cases hok).1]
    exact h
  | ok v =>
    by_cases hw : (writeTorKeys os outdir v s.world).1 = .ok ()
    · rw [handle_ok hv hw]
      exact writeTorKeys_keeps h outdir v
    · rw [handle_error hv hw]
      exact writeTorKeys_keeps h outdir v

theorem mainLoop_keeps {d : List Char} {name : String} {f : File} (turns : List Turn)
    (h : s.world.lookup d name = some f) :
    (mainLoop base os outdir patterns count turns s).val.world.lookup d name = some f := by
  induction turns generalizing s with
  | nil => exact h
  | cons turn turns ih =>
    rw [mainLoop]
    split
    · cases turn.popped with
      | none =>
        dsimp only
        split
        · exact h
        · exact ih h
      | some c =>
        have hc : (handle base os outdir patterns c s).val.2.world.lookup d name = some f :=
          handle_keeps h
        dsimp only
        rw [bind_val]
        split
        · exact ih hc
        · exact hc
    · exact h

theorem SelfConsistent.mono {d : List Char} {pk : Bytes 32}
    (h : SelfConsistent base prefixes c d w pk)
    (hw : ∀ name f, w.lookup d name = some f → w'.lookup d name = some f) :
    SelfConsistent base prefixes c d w' pk := by
  have hcontent : ∀ name f, w.content d name = some f → w'.content d name = some f := by
    intro name f hf
    rw [World.content, Option.map_eq_some_iff] at hf ⊢
    obtain ⟨file, hfile, rfl⟩ := hf
    exact ⟨file, hw name file hfile, rfl⟩
  obtain ⟨f, hf, hbytes⟩ := h.secretKey
  obtain ⟨g, hg, hpk⟩ := h.publicKey
  obtain ⟨t, ht, htext⟩ := h.hostname
  exact ⟨h.pubkey, ⟨f, hcontent _ f hf, hbytes⟩, ⟨g, hcontent _ g hg, hpk⟩,
    ⟨t, hcontent _ t ht, htext⟩⟩

theorem mainLoop_consistent (hp : Compiled prefixes patterns) (turns : List Turn)
    (h : .found v ∈ (mainLoop base os outdir patterns count turns s).log) :
    ∃ c ∈ turns.filterMap Turn.popped, verify base c patterns = .ok v ∧
      SelfConsistent base prefixes c v.address.view
        (mainLoop base os outdir patterns count turns s).val.world c.claimedPubkey := by
  induction turns generalizing s with
  | nil => cases h
  | cons turn turns ih =>
    rw [mainLoop] at h ⊢
    split at h
    next hgo =>
      rw [if_pos hgo]
      cases hpop : turn.popped with
      | none =>
        rw [hpop] at h
        rw [List.filterMap_cons_none hpop]
        dsimp only at h ⊢
        split at h
        · cases h
        next hdone =>
          rw [if_neg hdone]
          exact ih h
      | some c =>
        rw [hpop] at h
        rw [List.filterMap_cons_some hpop]
        dsimp only at h ⊢
        rw [bind_val]
        rcases List.mem_append.mp h with h | h
        · -- this one: what comes later keeps its files
          obtain ⟨hv, hself⟩ := handle_consistent hp h
          refine ⟨c, List.mem_cons_self, hv, hself.mono fun name f hf => ?_⟩
          split
          · exact mainLoop_keeps turns hf
          · exact hf
        · dsimp only at h
          split at h
          next hlive =>
            rw [if_pos hlive]
            obtain ⟨c', hc', hrest⟩ := ih h
            exact ⟨c', List.mem_cons_of_mem _ hc', hrest⟩
          · cases h
    · cases h

/-- **A reported result is self-consistent**, at the end of every run, whatever the engine put in
the queue and whatever the system calls did; a candidate that verification rejects leaves the disk
alone. -/
theorem found_consistent (base : Bytes 32 → Option (Bytes 32)) (os : Os) (outdir : List Char)
    (count : Nat) (hp : compilePrefixes prefixes = some patterns) (turns : List Turn)
    (s : MainState) :
    (∀ v, .found v ∈ (mainLoop base os outdir patterns count turns s).log →
      ∃ c ∈ turns.filterMap Turn.popped, verify base c patterns = .ok v ∧
        ∃ pk, SelfConsistent base prefixes c v.address.view
          (mainLoop base os outdir patterns count turns s).val.world pk) ∧
    ∀ c s, (∀ v, verify base c patterns ≠ .ok v) →
      (handle base os outdir patterns c s).val.2.world = s.world ∧
        (handle base os outdir patterns c s).log = [] := by
  refine ⟨fun v h => ?_, fun c s h => handle_rejected h⟩
  obtain ⟨c, hc, hv, hself⟩ := mainLoop_consistent (compilePrefixes_eq_some.mp hp) turns h
  exact ⟨c, hc, hv, c.claimedPubkey, hself⟩

end

def zero32 : Bytes 32 := Bytes.ofNat 32 0

/-- the key of 32 zeros for the scalar zero, whose address starts with `a` -/
def zeroCandidate : MatchCandidate := ⟨⟨zero32, zero32⟩, zero32, 0⟩

/-- an empty disk, and calls that succeed -/
def freshState : MainState := ⟨0, 0, ⟨fun _ => none, fun _ => none, 0⟩⟩

def soundOs : Os := ⟨0, fun _ => false, fun _ => 1⟩

theorem soundOs_sound : soundOs.Sound := fun _ => ⟨rfl, Nat.one_pos⟩

theorem zero_verified : verify (fun _ => some zero32) zeroCandidate letterPatterns =
    .ok ⟨zeroCandidate.secret, zero32, onionAddressFromPubkey zero32⟩ := by
  obtain ⟨pat, hpat, hc⟩ := letters_compiled.pattern (show letters[0]? = some ['a'] from rfl)
  have hm : matchesPubkey pat zero32 = true := by
    have h : ∀ pat ∈ letterPatterns[0]?, matchesPubkey pat zero32 = true := by decide
    exact h pat hpat
  have hstarts : pat.prefix_ <+: (onionAddressFromPubkey zero32).view := by
    obtain ⟨-, -, -, -, hletters, -, -⟩ := compilePrefix_eq_ok hc
    rw [hletters, ← compilePrefix_matches hc]
    exact hm
  exact verify_eq_ok.mpr ⟨rfl, ⟨pat, hpat, hm, hstarts⟩, rfl⟩

/-- a run that reports a result -/
theorem found_consistent_zero :
    let run := mainLoop (fun _ => some zero32) soundOs [] letterPatterns 1
      [⟨false, some zeroCandidate, false⟩] freshState
    ∃ v, .found v ∈ run.log ∧ ∃ pk,
      SelfConsistent (fun _ => some zero32) letters zeroCandidate v.address.view run.val.world pk := by
  intro run
  have hw := (writeTorKeys_ok soundOs_sound (w := freshState.world)
    (r := ⟨zeroCandidate.secret, zero32, onionAddressFromPubkey zero32⟩) rfl []).1
  have hfound : .found ⟨zeroCandidate.secret, zero32, onionAddressFromPubkey zero32⟩ ∈ run.log := by
    show _ ∈ (mainLoop _ _ _ _ _ _ _).log
    rw [mainLoop, if_pos ⟨Or.inr Nat.zero_lt_one, Bool.false_ne_true⟩]
    exact List.mem_append_left _ (handle_reports zero_verified hw)
  obtain ⟨c, hc, -, hself⟩ := (found_consistent (fun _ => some zero32) soundOs [] 1
    (compilePrefixes_eq_some.mpr letters_compiled) [⟨false, some zeroCandidate, false⟩]
    freshState).1 _ hfound
  rw [List.mem_singleton.mp hc] at hself
  exact ⟨_, hfound, hself⟩

end Onion
