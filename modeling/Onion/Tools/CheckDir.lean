import Onion.Tools.Oracle
import Onion.Crypto.Sha3Fips
import Onion.Cli.Report

/-!
# The oracle accepts what the writer writes

* `checkFiles_eq_ok`      the directories that pass, exactly;
* `onionAddress_eq`       the two address encoders agree;
* `readText_line`         a printable line is read back, whatever the locale;
* `oracle_accepts`        the keys agree byte for byte, and the files are accepted.
-/

namespace Onion.VerifyOnion

/-! ## what is accepted -/

theorem and_seven (a : Nat) : a &&& 7 = 0 ↔ 8 ∣ a := by
  rw [show (7 : Nat) = 2^3 - 1 from rfl, Nat.and_two_pow_sub_one_eq_mod]
  exact (Nat.dvd_iff_mod_eq_zero).symm

theorem checkFiles_eq_ok {secret pub : List UInt8} {hostname : List Char} :
    checkFiles secret pub hostname = .ok () ↔
      (secret.length = 96 ∧ secret.take 32 = secretTag) ∧
      (pub.length = 64 ∧ pub.take 32 = publicTag) ∧
      8 ∣ le ((secret.take 64).drop 32) ∧
      encodepoint (scalarmult B (le ((secret.take 64).drop 32))) = pub.drop 32 ∧
      onionAddress (encodepoint (scalarmult B (le ((secret.take 64).drop 32)))) = hostname := by
  rw [checkFiles, ← and_seven]
  dsimp only
  generalize le ((secret.take 64).drop 32) = a
  by_cases h1 : secret.length = 96 ∧ secret.take 32 = secretTag
  · rw [if_neg (by tauto)]
    by_cases h2 : pub.length = 64 ∧ pub.take 32 = publicTag
    · rw [if_neg (by tauto)]
      by_cases h3 : a &&& 7 = 0
      · rw [if_neg (not_not.mpr h3)]
        by_cases h4 : encodepoint (scalarmult B a) = pub.drop 32
        · rw [if_neg (not_not.mpr h4)]
          by_cases h5 : onionAddress (encodepoint (scalarmult B a)) = hostname
          · rw [if_neg (not_not.mpr h5)]
            exact iff_of_true rfl ⟨h1, h2, h3, h4, h5⟩
          · rw [if_pos h5]
            exact ⟨nofun, fun h => absurd h.2.2.2.2 h5⟩
        · rw [if_pos h4]
          exact ⟨nofun, fun h => absurd h.2.2.2.1 h4⟩
      · rw [if_pos h3]
        exact ⟨nofun, fun h => absurd h.2.2.1 h3⟩
    · rw [if_pos (by tauto)]
      exact ⟨nofun, fun h => absurd h.2.1 h2⟩
  · rw [if_pos (by tauto)]
    exact ⟨nofun, fun h => absurd h.1 h1⟩

/-! ## the address -/

theorem checksum_eq (pk : Bytes 32) : [(checksum pk).1, (checksum pk).2] =
    (Fips202.sha3_256 (asciiBytes ".onion checksum".toList ++ pk.1 ++ [0x03])).take 2 := by
  have h := Sha3_256.finalize_eq (((Sha3_256.new_absorbs.update kChecksumTag).update pk.1).update
    [kVersion])
  rw [List.nil_append] at h
  have htag : asciiBytes ".onion checksum".toList ++ pk.1 ++ [0x03] =
      kChecksumTag ++ pk.1 ++ [kVersion] := rfl
  rw [htag, ← h, checksum]
  generalize Sha3_256.finalize _ = digest
  obtain ⟨b, hb⟩ := digest
  match b, hb with
  | x :: y :: b, hb => rfl

theorem onionAddress_eq (pk : Bytes 32) :
    onionAddress pk.1 = (onionAddressFromPubkey pk).toString := by
  have hblob : pk.1 ++ [(checksum pk).1, (checksum pk).2] ++ [0x03] = addressBlob pk := by
    rw [addressBlob, List.append_assoc]
    rfl
  have hlen : (base32Encode (addressBlob pk)).length = 56 :=
    base32Encode_length_56 (addressBlob_length pk)
  unfold onionAddress
  rw [← checksum_eq]
  dsimp only
  rw [hblob, b32encode_lower, hlen]
  show (base32Encode (addressBlob pk) ++ []) ++ kSuffix = _
  rw [List.append_nil]
  rfl

/-! ## the text of a line -/

theorem not_space {c : Char} (h : Printable c) : isspace c = false := by
  obtain ⟨h1, h2⟩ := h
  simp only [isspace, Bool.or_eq_false_iff, Bool.and_eq_false_iff, decide_eq_false_iff_not]
  omega

section
variable {s : List Char}

theorem universalNewlines_eq (h : '\r' ∉ s) : universalNewlines s = s := by
  induction s with
  | nil => rfl
  | cons c s ih =>
    obtain ⟨hc, hs⟩ := not_or.mp (mt List.mem_cons.mpr h)
    rw [universalNewlines, if_neg (Ne.symm hc), ih hs]
    rintro t rfl -
    exact hc rfl

/-- a line loses its end -/
theorem strip_line (h : ∀ c ∈ s, isspace c = false) : strip (s ++ ['\n']) = s := by
  have hfront : (s ++ ['\n']).dropWhile isspace = s ++ ['\n'] ∨ s = [] := by
    cases s with
    | nil => exact Or.inr rfl
    | cons c s =>
      left
      rw [List.cons_append, List.dropWhile_cons, h c (by simp)]
      rfl
  rcases hfront with hfront | rfl
  · rw [strip, hfront, List.rdropWhile_concat_pos _ _ _ (by decide), List.rdropWhile_eq_self_iff]
    intro hne
    rw [h _ (List.getLast_mem hne)]
    decide
  · decide

/-- a printable line is read back -/
theorem readText_line (hs : ∀ c ∈ s, Printable c) (enc : Encoding)
    {dir : String → Option (List UInt8)} {name : String}
    (hdir : dir name = some (asciiBytes (s ++ ['\n']))) :
    readText enc dir name = .ok (s ++ ['\n']) := by
  have hascii : ∀ c ∈ s ++ ['\n'], c.toNat < 128 := by
    intro c hc
    rcases List.mem_append.mp hc with hc | hc
    · exact (hs c hc).2.trans (by decide)
    · rw [List.mem_singleton.mp hc]
      decide
  have hret : '\r' ∉ s ++ ['\n'] := by
    intro hc
    rcases List.mem_append.mp hc with hc | hc
    · exact absurd (hs _ hc).1 (by decide)
    · exact absurd (List.mem_singleton.mp hc) (by decide)
  simp [readText, readBytes, hdir, enc.ascii _ hascii, universalNewlines_eq hret, bind, Except.bind]

end

/-! ## the files of a result -/

section
variable {r : VerifiedResult}

theorem secretFile_accepted (r : VerifiedResult) : (secretFile r).length = 96 ∧
    (secretFile r).take 32 = secretTag ∧ ((secretFile r).take 64).drop 32 = r.secret.scalar.1 := by
  have hheader : (makeHeader kSecretTag).length = 32 := rfl
  have htag : makeHeader kSecretTag = secretTag := rfl
  refine ⟨secretFile_length r, ?_, ?_⟩
  · rw [secretFile, List.append_assoc, List.take_left' hheader, htag]
  · rw [List.drop_take]
    exact (secretFile_bytes r).1

theorem publicFile_accepted (r : VerifiedResult) : (publicFile r).length = 64 ∧
    (publicFile r).take 32 = publicTag ∧ (publicFile r).drop 32 = r.pubkey.1 := by
  have hheader : (makeHeader kPublicTag).length = 32 := rfl
  have htag : makeHeader kPublicTag = publicTag := rfl
  refine ⟨publicFile_length r, ?_, ?_⟩
  · rw [publicFile, List.take_left' hheader, htag]
  · rw [publicFile, List.drop_left' hheader]

/-- a directory that holds the files of a result -/
theorem checkDir_files {dir : String → Option (List UInt8)} (enc : Encoding)
    (hhost : dir "hostname" = some (hostnameFile r))
    (hsecret : dir "hs_ed25519_secret_key" = some (secretFile r))
    (hpublic : dir "hs_ed25519_public_key" = some (publicFile r))
    (haddr : r.address = onionAddressFromPubkey r.pubkey)
    (h8 : 8 ∣ le r.secret.scalar.1)
    (hkey : r.pubkey.1 = encodepoint (scalarmult B (le r.secret.scalar.1))) :
    checkDir enc dir = .ok r.address.toString := by
  obtain ⟨hslen, hstag, hscalar⟩ := secretFile_accepted r
  obtain ⟨hplen, hptag, hpub⟩ := publicFile_accepted r
  have hprint : ∀ c ∈ r.address.toString, Printable c := by
    rw [haddr]
    exact toString_printable r.pubkey
  have htext := readText_line hprint enc hhost
  have hstrip : strip (r.address.toString ++ ['\n']) = r.address.toString :=
    strip_line fun c hc => not_space (hprint c hc)
  have hcheck : checkFiles (secretFile r) (publicFile r) r.address.toString = .ok () := by
    rw [checkFiles_eq_ok, hscalar, ← hkey, hpub, onionAddress_eq, haddr]
    exact ⟨⟨hslen, hstag⟩, ⟨hplen, hptag⟩, h8, rfl, rfl⟩
  simp [checkDir, readBytes, hsecret, hpublic, htext, hstrip, hcheck, bind, Except.bind, pure,
    Except.pure]

end

/-- **The oracle agrees**: for a scalar with bit 255 clear `ge_encode(ge_scalarmult_base(s))` is the
oracle's encoding of its multiple of `B`, and if the scalar is a multiple of 8 the oracle accepts
the files that the writer leaves for it. -/
theorem oracle_accepts {s : Bytes 32} (hs : s.toNat.testBit 255 = false) :
    let pk := (geScalarmultBase s >>= geEncode).val
    pk.1 = encodepoint (scalarmult B (le s.1)) ∧
    (8 ∣ s.toNat → ∀ (prfPrefix : Bytes 32) (os : Os) (outdir : List Char) (w : World)
      (enc : Encoding),
      let r : VerifiedResult := ⟨⟨s, prfPrefix⟩, pk, onionAddressFromPubkey pk⟩
      let written := writeTorKeys os outdir r w
      written.1 = .ok () →
        checkDir enc (written.2.content r.address.view) = .ok r.address.toString) := by
  intro pk
  have hpk : pk.1 = encodepoint (scalarmult B (le s.1)) := encodepoint_scalarmult hs
  refine ⟨hpk, ?_⟩
  intro h8 prfPrefix os outdir w enc r written hok
  obtain ⟨hhost, hsecret, hpublic⟩ := writeTorKeys_files hok
  exact checkDir_files enc (World.content_eq hhost) (World.content_eq hsecret)
    (World.content_eq hpublic) rfl h8 hpk

/-- the scalar 8, written one byte at a time -/
theorem oracle_accepts_eight :
    let s := Bytes.ofNat 32 8
    let pk := (geScalarmultBase s >>= geEncode).val
    let r : VerifiedResult := ⟨⟨s, zero32⟩, pk, onionAddressFromPubkey pk⟩
    let w := (writeTorKeys soundOs [] r freshState.world).2
    pk.1 = encodepoint (scalarmult B (le s.1)) ∧
      checkDir utf8 (w.content r.address.view) = .ok r.address.toString := by
  intro s pk r w
  obtain ⟨hkey, haccept⟩ := oracle_accepts (s := s) (by decide)
  refine ⟨hkey, haccept (by decide) zero32 soundOs [] freshState.world utf8 ?_⟩
  exact (writeTorKeys_ok soundOs_sound rfl []).1

end Onion.VerifyOnion
