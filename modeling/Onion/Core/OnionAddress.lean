import Onion.Core.Base32
import Onion.Crypto.Sha3

/-!
# `onion_address.cpp`: the version 3 onion address of a public key

* `onionAddressFromPubkey_spells`   the body spells key, checksum and version;
* `address_decoder`                 the decoder accepts the two spellings of an address and no other
                                    string.
-/

namespace Onion

inductive AddressError where
  | badLength
  | badBase32
  | badVersion
  | badChecksum
deriving DecidableEq

/-- the 56 characters of the body -/
structure OnionAddress where
  chars : List Char
  length_eq : chars.length = 56

def kSuffix : List Char := ".onion".toList

namespace OnionAddress

/-- `to_string`: with the suffix -/
def toString (a : OnionAddress) : List Char := a.chars ++ kSuffix

/-- `view`: without it -/
def view (a : OnionAddress) : List Char := a.chars

end OnionAddress

def kChecksumTag : List UInt8 := ".onion checksum".toList.map fun c => UInt8.ofNat c.toNat

def kVersion : UInt8 := 0x03

def checksum (pubkey : Bytes 32) : UInt8 × UInt8 :=
  let h := ((Sha3_256.new.update kChecksumTag).update pubkey.1).update [kVersion]
  let digest := h.finalize
  (digest.get 0, digest.get 1)

/-- the 35 bytes that are encoded -/
def addressBlob (pubkey : Bytes 32) : List UInt8 :=
  pubkey.1 ++ [(checksum pubkey).1, (checksum pubkey).2, kVersion]

theorem addressBlob_length (pubkey : Bytes 32) : (addressBlob pubkey).length = 35 := by
  rw [addressBlob, List.length_append, pubkey.2]
  rfl

theorem base32Encode_length_56 {b : List UInt8} (h : b.length = 35) :
    (base32Encode b).length = 56 := by
  obtain ⟨k, hk, henc⟩ := base32Encode_spells b
  have hl := henc.length_eq
  rw [List.length_append, byteBits_length, List.length_replicate, h] at hl
  omega

def onionAddressFromPubkey (pubkey : Bytes 32) : OnionAddress :=
  ⟨base32Encode (addressBlob pubkey), base32Encode_length_56 (addressBlob_length pubkey)⟩

/-- version and checksum, against the key in the first 32 bytes -/
def checkBlob (decoded : List UInt8) (pubkey : Bytes 32) : Except AddressError (Bytes 32) :=
  if decoded.getD 34 0 ≠ kVersion then .error .badVersion
  else if decoded.getD 32 0 ≠ (checksum pubkey).1 ∨ decoded.getD 33 0 ≠ (checksum pubkey).2 then
    .error .badChecksum
  else .ok pubkey

def pubkeyFromBlob (decoded : List UInt8) : Except AddressError (Bytes 32) :=
  if h : decoded.length = 35 then
    checkBlob decoded (Bytes.ofList (decoded.take 32) (by rw [List.length_take, h]; rfl))
  else .error .badBase32

def pubkeyFromOnionAddress (address : List Char) : Except AddressError (Bytes 32) :=
  let address := if kSuffix <:+ address then address.take (address.length - 6) else address
  if address.length ≠ 56 then .error .badLength
  else
    match base32Decode address with
    | .error _ => .error .badBase32
    | .ok decoded => pubkeyFromBlob decoded

/-! ## the decoder -/

/-- the body spells the key, then 24 more bits -/
theorem onionAddressFromPubkey_spells (pubkey : Bytes 32) :
    Spells (onionAddressFromPubkey pubkey).view
      (byteBits pubkey.1 ++ byteBits [(checksum pubkey).1, (checksum pubkey).2, kVersion]) := by
  obtain ⟨k, hk, henc⟩ := base32Encode_spells (addressBlob pubkey)
  have hl := henc.length_eq
  rw [List.length_append, byteBits_length, List.length_replicate, addressBlob_length] at hl
  obtain rfl : k = 0 := by omega
  rw [List.replicate_zero, List.append_nil, addressBlob, byteBits_append] at henc
  exact henc

/-- visible ASCII -/
def Printable (c : Char) : Prop := 0x20 < c.toNat ∧ c.toNat < 0x7f

instance (c : Char) : Decidable (Printable c) := inferInstanceAs (Decidable (_ ∧ _))

theorem toString_printable (pubkey : Bytes 32) :
    ∀ c ∈ (onionAddressFromPubkey pubkey).toString, Printable c := by
  have hletters : (kBase32Alphabet.all fun c => Printable c) = true := by decide
  have hsuffix : (kSuffix.all fun c => Printable c) = true := by decide
  intro c hc
  rcases List.mem_append.mp hc with hc | hc
  · exact of_decide_eq_true (List.all_eq_true.mp hletters c
      ((onionAddressFromPubkey_spells pubkey).alphabet c hc))
  · exact of_decide_eq_true (List.all_eq_true.mp hsuffix c hc)

theorem checkBlob_eq_ok {decoded : List UInt8} {pubkey pk : Bytes 32} :
    checkBlob decoded pubkey = .ok pk ↔ pubkey = pk ∧ decoded.getD 32 0 = (checksum pubkey).1 ∧
      decoded.getD 33 0 = (checksum pubkey).2 ∧ decoded.getD 34 0 = kVersion := by
  rw [checkBlob]
  by_cases hver : decoded.getD 34 0 = kVersion
  · rw [if_neg (not_not.mpr hver)]
    by_cases hchk : decoded.getD 32 0 = (checksum pubkey).1 ∧
        decoded.getD 33 0 = (checksum pubkey).2
    · rw [if_neg (by rw [not_or, not_not, not_not]; exact hchk)]
      exact ⟨fun h => ⟨Except.ok.inj h, hchk.1, hchk.2, hver⟩, fun h => congrArg _ h.1⟩
    · rw [if_pos (by rwa [not_and_or] at hchk)]
      exact ⟨nofun, fun h => absurd ⟨h.2.1, h.2.2.1⟩ hchk⟩
  · rw [if_pos hver]
    exact ⟨nofun, fun h => absurd h.2.2.2 hver⟩

theorem drop_32 {decoded : List UInt8} (h : decoded.length = 35) :
    decoded.drop 32 = [decoded.getD 32 0, decoded.getD 33 0, decoded.getD 34 0] := by
  refine List.ext_getElem (by rw [List.length_drop, h]; rfl) fun i h1 h2 => ?_
  have hi : i < 3 := h2
  rw [List.getElem_drop]
  interval_cases i <;> simp [List.getD_eq_getElem?_getD, h]

theorem pubkeyFromBlob_eq_ok {decoded : List UInt8} {pubkey : Bytes 32} :
    pubkeyFromBlob decoded = .ok pubkey ↔ decoded = addressBlob pubkey := by
  by_cases hlen : decoded.length = 35
  · rw [pubkeyFromBlob, dif_pos hlen, checkBlob_eq_ok]
    constructor
    · rintro ⟨rfl, h32, h33, h34⟩
      rw [addressBlob, ← h32, ← h33, ← h34, ← drop_32 hlen]
      exact (List.take_append_drop 32 decoded).symm
    · intro h
      have hpk : decoded.take 32 = pubkey.1 := by rw [h]; exact List.take_left' pubkey.2
      have hd : decoded.drop 32 = [(checksum pubkey).1, (checksum pubkey).2, kVersion] := by
        rw [h]
        exact List.drop_left' pubkey.2
      rw [drop_32 hlen] at hd
      simp only [List.cons.injEq, and_true] at hd
      rw [Bytes.ofList_eq hpk]
      exact ⟨rfl, hd⟩
  · rw [pubkeyFromBlob, dif_neg hlen]
    constructor
    · intro h
      cases h
    · rintro rfl
      exact absurd (addressBlob_length pubkey) hlen

theorem view_no_suffix (pubkey : Bytes 32) : ¬ kSuffix <:+ (onionAddressFromPubkey pubkey).view := by
  intro h
  have hdot : '.' ∈ (onionAddressFromPubkey pubkey).view := h.subset (by decide)
  exact absurd ((onionAddressFromPubkey_spells pubkey).alphabet _ hdot) (by decide)

theorem pubkeyFromOnionAddress_eq_ok {s : List Char} {pk : Bytes 32} :
    pubkeyFromOnionAddress s = .ok pk ↔
      s = (onionAddressFromPubkey pk).view ∨ s = (onionAddressFromPubkey pk).view ++ kSuffix := by
  have hbody : ∀ t : List Char, (if t.length ≠ 56 then .error .badLength else
      match base32Decode t with
      | .error _ => .error .badBase32
      | .ok decoded => pubkeyFromBlob decoded : Except AddressError (Bytes 32)) = .ok pk ↔
      t = (onionAddressFromPubkey pk).view := by
    intro t
    by_cases hlen : t.length = 56
    · rw [if_neg (not_not.mpr hlen)]
      show _ ↔ t = base32Encode (addressBlob pk)
      rw [← base32Decode_eq_ok]
      cases base32Decode t with
      | error e => exact ⟨nofun, nofun⟩
      | ok decoded =>
        show pubkeyFromBlob decoded = _ ↔ _
        rw [pubkeyFromBlob_eq_ok]
        exact ⟨fun h => congrArg _ h, fun h => Except.ok.inj h⟩
    · rw [if_pos hlen]
      refine ⟨nofun, ?_⟩
      rintro rfl
      exact absurd (onionAddressFromPubkey pk).length_eq hlen
  by_cases hs : kSuffix <:+ s
  · obtain ⟨t, rfl⟩ := hs
    have htake : (t ++ kSuffix).take ((t ++ kSuffix).length - 6) = t := by
      rw [List.length_append]
      exact List.take_left' rfl
    rw [pubkeyFromOnionAddress, if_pos (List.suffix_append t kSuffix), htake, hbody,
      List.append_left_inj]
    constructor
    · exact Or.inr
    · rintro (h | h)
      · exact absurd (h ▸ List.suffix_append t kSuffix) (view_no_suffix pk)
      · exact h
  · rw [pubkeyFromOnionAddress, if_neg hs, hbody]
    constructor
    · exact Or.inl
    · rintro (h | h)
      · exact h
      · exact absurd (h ▸ List.suffix_append _ kSuffix) hs

theorem onionAddressFromPubkey_inj {pk pk' : Bytes 32} :
    onionAddressFromPubkey pk = onionAddressFromPubkey pk' ↔ pk = pk' := by
  refine ⟨fun h => ?_, congrArg _⟩
  have h1 := pubkeyFromOnionAddress_eq_ok.mpr (Or.inl (rfl : (onionAddressFromPubkey pk).view = _))
  have h2 := pubkeyFromOnionAddress_eq_ok.mpr (Or.inl (rfl : (onionAddressFromPubkey pk').view = _))
  rw [h, h2] at h1
  exact (Except.ok.inj h1).symm

/-- **The decoder accepts exactly the addresses**, with or without the suffix -/
theorem address_decoder (s : List Char) :
    (∀ pk, pubkeyFromOnionAddress s = .ok pk ↔
      s = (onionAddressFromPubkey pk).view ∨ s = (onionAddressFromPubkey pk).view ++ kSuffix) ∧
    ((∀ pk, s ≠ (onionAddressFromPubkey pk).view ∧ s ≠ (onionAddressFromPubkey pk).view ++ kSuffix) →
      ∃ e, pubkeyFromOnionAddress s = .error e) := by
  refine ⟨fun pk => pubkeyFromOnionAddress_eq_ok, fun h => ?_⟩
  cases hr : pubkeyFromOnionAddress s with
  | error e => exact ⟨e, rfl⟩
  | ok pk =>
    rcases pubkeyFromOnionAddress_eq_ok.mp hr with e | e
    · exact absurd e (h pk).1
    · exact absurd e (h pk).2

end Onion
