import Onion.Engine.Engine

/-!
# `verifier.cpp`: the check between the engines and the disk
-/

namespace Onion

inductive VerifyError where
  | pubkeyMismatch
  | badPatternIndex
  | patternMismatch
  | addressPrefixMismatch
deriving DecidableEq

structure VerifiedResult where
  secret : ExpandedSecretKey
  pubkey : Bytes 32
  address : OnionAddress

/-- derive the key again, and check the match again -/
def verify (baseNoclamp : Bytes 32 → Option (Bytes 32)) (candidate : MatchCandidate)
    (patterns : List CompiledPattern) : Except VerifyError VerifiedResult :=
  match pubkeyFromScalar baseNoclamp candidate.secret.scalar with
  | none => .error .pubkeyMismatch
  | some pk =>
    if pk ≠ candidate.claimedPubkey then .error .pubkeyMismatch
    else
      match patterns[candidate.patternIndex]? with
      | none => .error .badPatternIndex
      | some pattern =>
        if ¬ matchesPubkey pattern pk then .error .patternMismatch
        else
          let address := onionAddressFromPubkey pk
          if ¬ pattern.prefix_ <+: address.view then .error .addressPrefixMismatch
          else .ok ⟨candidate.secret, pk, address⟩

/-- what verification accepts, and what it returns -/
theorem verify_eq_ok {base : Bytes 32 → Option (Bytes 32)} {c : MatchCandidate}
    {patterns : List CompiledPattern} {r : VerifiedResult} : verify base c patterns = .ok r ↔
      base c.secret.scalar = some c.claimedPubkey ∧
      (∃ pat, patterns[c.patternIndex]? = some pat ∧ matchesPubkey pat c.claimedPubkey = true ∧
        pat.prefix_ <+: (onionAddressFromPubkey c.claimedPubkey).view) ∧
      r = ⟨c.secret, c.claimedPubkey, onionAddressFromPubkey c.claimedPubkey⟩ := by
  rw [verify, pubkeyFromScalar]
  cases hb : base c.secret.scalar with
  | none => exact ⟨nofun, nofun⟩
  | some pk =>
    dsimp only
    by_cases hpk : pk = c.claimedPubkey
    · subst hpk
      rw [if_neg (not_not.mpr rfl)]
      cases hp : patterns[c.patternIndex]? with
      | none => exact ⟨nofun, fun ⟨_, ⟨_, h, _⟩, _⟩ => by cases h⟩
      | some pat =>
        dsimp only
        by_cases hm : matchesPubkey pat c.claimedPubkey = true
        · by_cases ha : pat.prefix_ <+: (onionAddressFromPubkey c.claimedPubkey).view
          · rw [if_neg (not_not.mpr hm), if_neg (not_not.mpr ha)]
            constructor
            · intro h
              exact ⟨rfl, ⟨pat, rfl, hm, ha⟩, (Except.ok.inj h).symm⟩
            · rintro ⟨-, -, rfl⟩
              rfl
          · rw [if_neg (not_not.mpr hm), if_pos ha]
            refine ⟨nofun, fun ⟨_, ⟨_, h, _, h'⟩, _⟩ => ?_⟩
            cases h
            exact absurd h' ha
        · rw [if_pos hm]
          refine ⟨nofun, fun ⟨_, ⟨_, h, h', _⟩, _⟩ => ?_⟩
          cases h
          exact absurd h' hm
    · rw [if_pos hpk]
      refine ⟨nofun, fun ⟨h, _⟩ => ?_⟩
      exact absurd (Option.some.inj h) hpk

end Onion
