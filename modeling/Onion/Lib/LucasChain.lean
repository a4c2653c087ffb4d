import Onion.Lib.PowMod

/-!
# Chains of Lucas certificates

Certificates in a list, each over the primes before it, that are checked by one evaluation.

* `LucasEntry.check`      the checks of one certificate, over a list of primes;
* `LucasEntry.chain`      and of a list of them, each number a prime for the next;
* `LucasEntry.chain_prime`   the numbers of a checked chain are prime.
-/

/-- a number below `2^bits`, a witness, and the factors of its predecessor -/
structure LucasEntry where
  p : ℕ
  bits : ℕ
  witness : ℕ
  factors : List ℕ

namespace LucasEntry

/-- the certificate is one, if its factors are prime -/
def check (primes : List ℕ) (c : LucasEntry) : Bool :=
  c.factors.all (fun q => primes.contains q) && c.factors.prod + 1 == c.p && decide (c.p < 2^c.bits)
    && powMod c.p c.bits 1 c.witness (c.p - 1) % c.p == 1 % c.p
    && c.factors.all fun q => powMod c.p c.bits 1 c.witness ((c.p - 1) / q) % c.p != 1 % c.p

/-- each certificate is over the primes so far -/
def chain : List ℕ → List LucasEntry → Bool
  | _, [] => true
  | primes, c :: cs => c.check primes && chain (c.p :: primes) cs

theorem check_prime {primes : List ℕ} (hprimes : ∀ q ∈ primes, q.Prime) {c : LucasEntry}
    (h : c.check primes = true) : c.p.Prime := by
  simp only [check, Bool.and_eq_true, List.all_eq_true, List.contains_iff_mem, beq_iff_eq,
    decide_eq_true_eq, bne_iff_ne] at h
  obtain ⟨⟨⟨⟨hfactors, hprod⟩, hbound⟩, hfull⟩, hpart⟩ := h
  exact Lucas.isPrime c.bits c.witness c.factors
    ⟨fun q hq => hprimes q (hfactors q hq), hprod, hbound, hfull, hpart⟩

/-- **The numbers of a chain are prime**, over primes. -/
theorem chain_prime {primes : List ℕ} (hprimes : ∀ q ∈ primes, q.Prime) {cs : List LucasEntry}
    (h : chain primes cs = true) {c : LucasEntry} (hc : c ∈ cs) : c.p.Prime := by
  induction cs generalizing primes with
  | nil => cases hc
  | cons c' cs ih =>
    rw [chain, Bool.and_eq_true] at h
    have hp := check_prime hprimes h.1
    rcases List.mem_cons.mp hc with rfl | hc
    · exact hp
    · refine ih (fun q hq => ?_) h.2 hc
      rcases List.mem_cons.mp hq with rfl | hq
      · exact hp
      · exact hprimes q hq

end LucasEntry
