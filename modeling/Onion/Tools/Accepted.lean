import Onion.Tools.CheckDir
import Onion.Cli.Distinct

/-!
# What the oracle accepts

`check_dir` on any directory, whoever wrote it.

* `Holds`            a directory holds the files of a consistent result;
* `checkDir_holds`   these are the directories that the oracle accepts;
* `holds_unique`     a host name stands for one public key, and for one scalar modulo the order;
* `accepts_exactly`  both, for any two directories.
-/

namespace Onion.VerifyOnion

/-- the two key files of a result, and a text that is its host name between white space -/
structure Holds (enc : Encoding) (dir : String → Option (List UInt8)) (r : VerifiedResult) :
    Prop where
  secret : dir "hs_ed25519_secret_key" = some (secretFile r)
  pub : dir "hs_ed25519_public_key" = some (publicFile r)
  hostname : ∃ text, readText enc dir "hostname" = .ok text ∧ strip text = r.address.toString
  cofactor : 8 ∣ r.secret.scalar.toNat
  key : r.pubkey = encodePoint (r.secret.scalar.toNat • basePoint)
  address : r.address = onionAddressFromPubkey r.pubkey

section
variable {enc : Encoding} {dir : String → Option (List UInt8)} {host : List Char}

theorem readBytes_eq_ok {name : String} {b : List UInt8} :
    readBytes dir name = .ok b ↔ dir name = some b := by
  rw [readBytes]
  cases dir name with
  | none => simp
  | some c => simp

theorem checkDir_eq_ok : checkDir enc dir = .ok host ↔ ∃ secret pub text,
    dir "hs_ed25519_secret_key" = some secret ∧ dir "hs_ed25519_public_key" = some pub ∧
      readText enc dir "hostname" = .ok text ∧ host = strip text ∧
      checkFiles secret pub (strip text) = .ok () := by
  rw [checkDir]
  simp only [bind, Except.bind, pure, Except.pure, ← readBytes_eq_ok]
  cases readBytes dir "hs_ed25519_secret_key" with
  | error e => simp
  | ok secret =>
    cases readBytes dir "hs_ed25519_public_key" with
    | error e => simp
    | ok pub =>
      cases readText enc dir "hostname" with
      | error e => simp
      | ok text =>
        cases hc : checkFiles secret pub (strip text) with
        | error e => simp [hc]
        | ok u => simp [hc, eq_comm]

/-- the oracle's encoding of a multiple of the base point -/
theorem encodepoint_smul (a : Nat) :
    encodepoint (scalarmult B a) = (encodePoint (a • basePoint)).1 :=
  encodepoint_eq (scalarmult_stands a B_stands)

/-- 96 bytes under the secret header, as a scalar and a prefix -/
theorem secretFile_of {secret : List UInt8} (hlen : secret.length = 96)
    (htag : secret.take 32 = secretTag) : ∃ scalar prfPrefix : Bytes 32,
      secret = makeHeader kSecretTag ++ scalar.1 ++ prfPrefix.1 ∧
        (secret.take 64).drop 32 = scalar.1 := by
  have hscalar : ((secret.take 64).drop 32).length = 32 := by
    rw [List.length_drop, List.length_take, hlen]
    rfl
  have hprf : (secret.drop 64).length = 32 := by
    rw [List.length_drop, hlen]
  refine ⟨⟨_, hscalar⟩, ⟨_, hprf⟩, ?_, rfl⟩
  have hhead : (secret.take 64).take 32 = makeHeader kSecretTag := by
    rw [List.take_take]
    exact htag
  show secret = makeHeader kSecretTag ++ (secret.take 64).drop 32 ++ secret.drop 64
  rw [← hhead, List.take_append_drop, List.take_append_drop]

theorem checkDir_holds :
    checkDir enc dir = .ok host ↔ ∃ r, Holds enc dir r ∧ host = r.address.toString := by
  rw [checkDir_eq_ok]
  constructor
  · rintro ⟨secret, pub, text, hsecret, hpub, htext, rfl, hcheck⟩
    obtain ⟨⟨hslen, hstag⟩, ⟨hplen, hptag⟩, h8, hkey, haddr⟩ := checkFiles_eq_ok.mp hcheck
    obtain ⟨scalar, prfPrefix, rfl, hscalar⟩ := secretFile_of hslen hstag
    rw [hscalar] at h8 hkey haddr
    rw [encodepoint_smul] at hkey haddr
    have hpubkey : pub = makeHeader kPublicTag ++ (encodePoint (le scalar.1 • basePoint)).1 := by
      rw [hkey, show makeHeader kPublicTag = pub.take 32 from hptag.symm, List.take_append_drop]
    rw [onionAddress_eq] at haddr
    exact ⟨⟨⟨scalar, prfPrefix⟩, encodePoint (le scalar.1 • basePoint), onionAddressFromPubkey _⟩,
      ⟨hsecret, hpub.trans (congrArg some hpubkey), ⟨text, htext, haddr.symm⟩, h8, rfl, rfl⟩,
      haddr.symm⟩
  · rintro ⟨r, hr, rfl⟩
    obtain ⟨text, htext, hstrip⟩ := hr.hostname
    obtain ⟨hslen, hstag, hscalar⟩ := secretFile_accepted r
    obtain ⟨hplen, hptag, hpub⟩ := publicFile_accepted r
    refine ⟨_, _, text, hr.secret, hr.pub, htext, hstrip.symm, ?_⟩
    have hkey : (encodePoint (le r.secret.scalar.1 • basePoint)).1 = r.pubkey.1 :=
      congrArg Subtype.val hr.key.symm
    rw [checkFiles_eq_ok, hscalar, encodepoint_smul, hkey, hpub, onionAddress_eq, hstrip, hr.address]
    exact ⟨⟨hslen, hstag⟩, ⟨hplen, hptag⟩, hr.cofactor, rfl, rfl⟩

end

/-- the text of an address gives the key -/
theorem toString_inj {pk pk' : Bytes 32}
    (h : (onionAddressFromPubkey pk).toString = (onionAddressFromPubkey pk').toString) : pk = pk' := by
  have hdec : ∀ key : Bytes 32,
      pubkeyFromOnionAddress (onionAddressFromPubkey key).toString = .ok key := fun key =>
    pubkeyFromOnionAddress_eq_ok.mpr (Or.inr rfl)
  have h1 := hdec pk
  rw [h, hdec pk'] at h1
  exact (Except.ok.inj h1).symm

/-- what is accepted under one host name -/
theorem holds_unique {enc enc' : Encoding} {dir dir' : String → Option (List UInt8)}
    {r r' : VerifiedResult} (hr : Holds enc dir r) (hr' : Holds enc' dir' r')
    (hhost : r.address.toString = r'.address.toString) : r.pubkey = r'.pubkey ∧
      r.secret.scalar.toNat ≡ r'.secret.scalar.toNat [MOD 8 * kOrder] := by
  have hkeys : r.pubkey = r'.pubkey := by
    rw [hr.address, hr'.address] at hhost
    exact toString_inj hhost
  have hpoints := hr.key.symm.trans (hkeys.trans hr'.key)
  have hmod : r.secret.scalar.toNat ≡ r'.secret.scalar.toNat [MOD kOrder] :=
    smul_basePoint_eq_iff.mp (encodePoint_inj.mp hpoints)
  have hzero := Nat.modEq_zero_iff_dvd.mpr hr.cofactor
  have hzero' := Nat.modEq_zero_iff_dvd.mpr hr'.cofactor
  have hcop : Nat.Coprime 8 kOrder := by decide
  exact ⟨hkeys, (Nat.modEq_and_modEq_iff_modEq_mul hcop).mp ⟨hzero.trans hzero'.symm, hmod⟩⟩

/-- **What the oracle accepts**: the directories that hold the files of a consistent result, whoever
wrote them, and nothing else; the host name that it prints decodes to the public key.  Two
directories that it accepts under one host name have the same public key file, and scalars that
agree modulo eight times the order of the base point. -/
theorem accepts_exactly (enc enc' : Encoding) (dir dir' : String → Option (List UInt8))
    (host : List Char) :
    (checkDir enc dir = .ok host ↔ ∃ r, Holds enc dir r ∧ host = r.address.toString ∧
      pubkeyFromOnionAddress host = .ok r.pubkey) ∧
    (checkDir enc dir = .ok host → checkDir enc' dir' = .ok host →
      dir "hs_ed25519_public_key" = dir' "hs_ed25519_public_key" ∧
      ∃ r r', Holds enc dir r ∧ Holds enc' dir' r' ∧
        r.secret.scalar.toNat ≡ r'.secret.scalar.toNat [MOD 8 * kOrder]) := by
  constructor
  · rw [checkDir_holds]
    constructor
    · rintro ⟨r, hr, rfl⟩
      refine ⟨r, hr, rfl, ?_⟩
      rw [hr.address]
      exact pubkeyFromOnionAddress_eq_ok.mpr (Or.inr rfl)
    · rintro ⟨r, hr, rfl, -⟩
      exact ⟨r, hr, rfl⟩
  · intro h h'
    obtain ⟨r, hr, rfl⟩ := checkDir_holds.mp h
    obtain ⟨r', hr', hhost⟩ := checkDir_holds.mp h'
    obtain ⟨hkeys, hmod⟩ := holds_unique hr hr' hhost
    refine ⟨?_, r, r', hr, hr', hmod⟩
    rw [hr.pub, hr'.pub, publicFile, publicFile, hkeys]

def eight : VerifiedResult :=
  ⟨⟨Bytes.ofNat 32 8, zero32⟩, encodePoint (8 • basePoint),
    onionAddressFromPubkey (encodePoint (8 • basePoint))⟩

def eightDir (name : String) : Option (List UInt8) :=
  if name = "hs_ed25519_secret_key" then some (secretFile eight)
  else if name = "hs_ed25519_public_key" then some (publicFile eight)
  else if name = "hostname" then some (hostnameFile eight)
  else none

theorem accepts_exactly_eight : checkDir utf8 eightDir = .ok eight.address.toString := by
  have hprint : ∀ c ∈ eight.address.toString, Printable c := toString_printable _
  have h8 : eight.secret.scalar.toNat = 8 := by decide
  refine (accepts_exactly utf8 utf8 eightDir eightDir _).1.mpr ⟨eight, ?_, rfl, ?_⟩
  · refine ⟨rfl, rfl, ⟨_, readText_line hprint utf8 rfl, ?_⟩, ?_, ?_, rfl⟩
    · exact strip_line fun c hc => not_space (hprint c hc)
    · rw [h8]
    · rw [h8]
      rfl
  · exact pubkeyFromOnionAddress_eq_ok.mpr (Or.inr rfl)

end Onion.VerifyOnion
