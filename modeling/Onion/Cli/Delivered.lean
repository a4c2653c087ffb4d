import Onion.Cli.Alarm
import Onion.Tools.CheckDir

/-!
# What a run has delivered

At every moment of every run the results that `main` has counted are on the disk, each in its own
directory and complete, whatever the system calls do.

* `OnDisk`              the three files of a result;
* `Delivered`           the results of the candidates that were handled;
* `Session.Progress`    how many there are, and when `main` stops;
* `Process.delivered`   both, in every run of the process;
* `Process.delivered_accepted`   the oracle accepts every directory.
-/

namespace Onion
open Logged

/-- the files of a result, complete -/
structure OnDisk (os : Os) (v : VerifiedResult) (w : World) : Prop where
  hostname : w.lookup v.address.view "hostname" =
    some ⟨0o600 &&& (0o777 ^^^ os.umask), hostnameFile v⟩
  secretKey : w.lookup v.address.view "hs_ed25519_secret_key" =
    some ⟨0o600 &&& (0o777 ^^^ os.umask), secretFile v⟩
  publicKey : w.lookup v.address.view "hs_ed25519_public_key" =
    some ⟨0o600 &&& (0o777 ^^^ os.umask), publicFile v⟩

theorem OnDisk.mono {os : Os} {v : VerifiedResult} {w w' : World} (h : OnDisk os v w)
    (hw : ∀ d name f, w.lookup d name = some f → w'.lookup d name = some f) : OnDisk os v w' :=
  ⟨hw _ _ _ h.hostname, hw _ _ _ h.secretKey, hw _ _ _ h.publicKey⟩

/-- the results `vs` of the handled candidates, counted and on the disk -/
structure Delivered (base : Bytes 32 → Option (Bytes 32)) (os : Os)
    (patterns : List CompiledPattern) (handled : List MatchCandidate) (s : MainState)
    (vs : List VerifiedResult) : Prop where
  found : s.found = vs.length % 2^64
  judged : Judged base patterns handled s.exitCode vs
  onDisk : ∀ v ∈ vs, OnDisk os v s.world
  distinct : (vs.map VerifiedResult.address).Nodup

section
variable {base : Bytes 32 → Option (Bytes 32)} {os : Os} {outdir : List Char}
  {patterns : List CompiledPattern} {handled : List MatchCandidate} {s : MainState}
  {vs : List VerifiedResult} {c : MatchCandidate} {v : VerifiedResult}

theorem Delivered.start (w : World) : Delivered base os patterns [] ⟨0, 0, w⟩ [] where
  found := rfl
  judged := .all List.Forall₂.nil (show 0 ≠ 2 by decide) (show 0 ≠ 3 by decide)
  onDisk _ hv := by cases hv
  distinct := List.nodup_nil

theorem Delivered.stop (h : Delivered base os patterns handled s vs) {e : Nat} {w : World}
    (hj : Judged base patterns (handled ++ [c]) e vs)
    (hw : ∀ d name f, s.world.lookup d name = some f → w.lookup d name = some f) :
    Delivered base os patterns (handled ++ [c]) { s with exitCode := e, world := w } vs :=
  ⟨h.found, hj, fun v hv => (h.onDisk v hv).mono hw, h.distinct⟩

theorem Delivered.report (h : Delivered base os patterns handled s vs) (h0 : s.exitCode = 0)
    (hv : verify base c patterns = .ok v) (hw : (writeTorKeys os outdir v s.world).1 = .ok ()) :
    Delivered base os patterns (handled ++ [c]) { s with
      found := (s.found + 1) % 2^64, world := (writeTorKeys os outdir v s.world).2 }
      (vs ++ [v]) := by
  have hkeeps : ∀ d name f, s.world.lookup d name = some f →
      (writeTorKeys os outdir v s.world).2.lookup d name = some f :=
    fun d name f hf => writeTorKeys_keeps hf outdir v
  obtain ⟨hhost, hsecret, hpublic⟩ := writeTorKeys_files hw
  have hj := h.judged
  rw [h0] at hj
  refine ⟨?_, h0.symm ▸ hj.snoc hv, fun x hx => ?_, ?_⟩
  · show (s.found + 1) % 2^64 = _
    rw [h.found, List.length_append, List.length_singleton, Nat.mod_add_mod]
  · rcases List.mem_append.mp hx with hx | hx
    · exact (h.onDisk x hx).mono hkeeps
    · rw [List.mem_singleton.mp hx]
      exact ⟨hhost, hsecret, hpublic⟩
  · -- an address that is there cannot be written again
    have hnew : v.address ∉ vs.map VerifiedResult.address := by
      intro hmem
      obtain ⟨x, hx, e⟩ := List.mem_map.mp hmem
      have hthere := (h.onDisk x hx).hostname
      rw [e] at hthere
      exact writeTorKeys_again hthere outdir hw
    rw [List.map_append, List.map_singleton, ← List.concat_eq_append]
    exact h.distinct.concat hnew

theorem handle_delivered (outdir : List Char) (c : MatchCandidate)
    (h : Delivered base os patterns handled s vs) (h0 : s.exitCode = 0) :
    let r := (handle base os outdir patterns c s).val
    ∃ vs', Delivered base os patterns (handled ++ [c]) r.2 vs' ∧
      (r.1 = true ∧ vs'.length = vs.length + 1 ∧ r.2.exitCode = 0 ∨
        r.1 = false ∧ vs' = vs ∧ (r.2.exitCode = 2 ∨ r.2.exitCode = 3)) := by
  intro r
  have hj := h.judged
  rw [h0] at hj
  cases hv : verify base c patterns with
  | error e =>
    rw [show r = _ from handle_reject hv]
    have hreject : ∀ v, ¬ Gives base patterns c v := fun v hok => by cases hv.symm.trans hok
    exact ⟨vs, h.stop (hj.rejected hreject) fun _ _ _ hf => hf, Or.inr ⟨rfl, rfl, Or.inl rfl⟩⟩
  | ok v =>
    by_cases hw : (writeTorKeys os outdir v s.world).1 = .ok ()
    · rw [show r = _ from handle_ok hv hw]
      exact ⟨vs ++ [v], h.report h0 hv hw, Or.inl ⟨rfl, by rw [List.length_append]; rfl, h0⟩⟩
    · rw [show r = _ from handle_error hv hw]
      refine ⟨vs, h.stop (hj.unwritten hv) fun _ _ _ hf => ?_, Or.inr ⟨rfl, rfl, Or.inr rfl⟩⟩
      exact writeTorKeys_keeps hf outdir v

end

/-- the oracle encodes the key that libsodium gives -/
theorem VerifyOnion.pubkey_oracle {base : Bytes 32 → Option (Bytes 32)} (hrfc : Rfc8032 base)
    {s pk : Bytes 32} (hlt : s.toNat < 2^255) (hk : base s = some pk) :
    pk.1 = encodepoint (scalarmult B (le s.1)) := by
  rw [hrfc s, Nat.mod_eq_of_lt hlt] at hk
  split at hk
  · cases hk
  · rw [← Option.some.inj hk]
    exact (encodepoint_eq (scalarmult_stands _ B_stands)).symm

/-- the oracle accepts the files of a clamped scalar and its key -/
theorem OnDisk.accepted {os : Os} {v : VerifiedResult} {w : World} (h : OnDisk os v w)
    {base : Bytes 32 → Option (Bytes 32)} (hrfc : Rfc8032 base) (hclamped : Clamped v.secret.scalar)
    (hk : base v.secret.scalar = some v.pubkey) (haddr : v.address = onionAddressFromPubkey v.pubkey)
    (enc : VerifyOnion.Encoding) : VerifyOnion.checkDir enc (w.content v.address.view) =
      .ok v.address.toString := by
  obtain ⟨h8, -, hlt⟩ := clamped_iff.mp hclamped
  exact VerifyOnion.checkDir_files enc (World.content_eq h.hostname) (World.content_eq h.secretKey)
    (World.content_eq h.publicKey) haddr h8 (VerifyOnion.pubkey_oracle hrfc hlt hk)

/-! ## a session -/

namespace Session

/-- no more than `count` results, fewer in a round, and all of them when `main` is through -/
structure Progress (count : Nat) (s : Session) (vs : List VerifiedResult) : Prop where
  code : s.main.exitCode ∈ [0, 2, 3, 4]
  bound : count ≠ 0 → vs.length ≤ count
  round : count ≠ 0 → s.pc ≠ .head → s.pc ≠ .left → vs.length < count
  through : s.pc = .left → s.main.exitCode = 0 → (∀ turn ∈ s.turns, turn.interrupted = false) →
    count ≠ 0 ∧ vs.length = count

section
variable {base : Bytes 32 → Option (Bytes 32)} {os : Os} {outdir : List Char}
  {patterns : List CompiledPattern} {count : Nat} {s s' : Session} {e : SessionEvent}
  {vs : List VerifiedResult}

theorem found_lt_iff (hcount : count < 2^64) (hfound : s.main.found = vs.length % 2^64)
    (hle : vs.length ≤ count) : s.main.found < count ↔ vs.length < count := by
  rw [hfound, Nat.mod_eq_of_lt (hle.trans_lt hcount)]

theorem Progress.at_head (hcode : s.main.exitCode ∈ [0, 2, 3, 4])
    (hbound : count ≠ 0 → vs.length ≤ count) (hpc : s.pc = .head) : s.Progress count vs where
  code := hcode
  bound := hbound
  round _ hne _ := absurd hpc hne
  through hleft := by cases hpc.symm.trans hleft

theorem Progress.inside (hcode : s.main.exitCode ∈ [0, 2, 3, 4])
    (hround : count ≠ 0 → vs.length < count) (hpc : s.pc ≠ .left) : s.Progress count vs where
  code := hcode
  bound h0 := (hround h0).le
  round h0 _ _ := hround h0
  through hleft := absurd hleft hpc

theorem Progress.stopped (hcode : s.main.exitCode ∈ [2, 3, 4])
    (hbound : count ≠ 0 → vs.length ≤ count) (hpc : s.pc = .left) : s.Progress count vs where
  code := List.mem_cons_of_mem 0 hcode
  bound := hbound
  round _ _ hne := absurd hpc hne
  through _ h0 := by
    rw [h0] at hcode
    exact absurd hcode (by decide)

theorem step_delivered (hcount : count < 2^64) (hexit : s.ExitCode)
    (h : ∃ vs, Delivered base os patterns s.handled s.main vs ∧ s.Progress count vs)
    (hstep : step base os outdir patterns count s e = some s') :
    ∃ vs, Delivered base os patterns s'.handled s'.main vs ∧ s'.Progress count vs := by
  obtain ⟨vs, hd, hp⟩ := h
  have heffect := step_cases hstep
  unfold handled at hd ⊢
  cases e with
  | push c =>
    obtain ⟨-, rfl⟩ := heffect
    exact ⟨vs, hd, hp.code, hp.bound, hp.round, hp.through⟩
  | finish =>
    obtain ⟨-, rfl⟩ := heffect
    exact ⟨vs, hd, hp.code, hp.bound, hp.round, hp.through⟩
  | store =>
    obtain ⟨-, rfl⟩ := heffect
    exact ⟨vs, hd, hp.code, hp.bound, hp.round, hp.through⟩
  | head interrupted =>
    obtain ⟨hpc, ⟨hgo, rfl⟩ | ⟨hgo, rfl⟩⟩ := heffect
    · refine ⟨vs, hd, .inside hp.code (fun h0 => ?_) nofun⟩
      exact (found_lt_iff hcount hd.found (hp.bound h0)).mp (hgo.1.resolve_left h0)
    · refine ⟨vs, ?_, hp.code, hp.bound, fun _ _ hne => absurd rfl hne, fun _ _ hturns => ?_⟩
      · rw [handled_snoc, Option.toList_none, List.append_nil]
        exact hd
      · have hnot : interrupted = false := hturns _ (List.mem_append_right _ List.mem_cons_self)
        rw [hnot, not_and_not_right] at hgo
        obtain ⟨h0, hge⟩ := not_or.mp fun hor => Bool.false_ne_true (hgo hor)
        rw [found_lt_iff hcount hd.found (hp.bound h0)] at hge
        exact ⟨h0, Nat.le_antisymm (hp.bound h0) (Nat.le_of_not_lt hge)⟩
  | pop =>
    obtain ⟨hpc, c, queue, -, rfl⟩ := heffect
    exact ⟨vs, hd, .inside hp.code (fun h0 => hp.round h0 (by simp [hpc]) (by simp [hpc])) nofun⟩
  | timeout =>
    obtain ⟨hpc, -, rfl⟩ := heffect
    exact ⟨vs, hd, .inside hp.code (fun h0 => hp.round h0 (by simp [hpc]) (by simp [hpc])) nofun⟩
  | handle =>
    obtain ⟨c, hpc, rfl⟩ := heffect
    have h0 : s.main.exitCode = 0 := hexit.zero (by simp [hpc])
    have hlt : count ≠ 0 → vs.length < count := fun hne =>
      hp.round hne (by simp [hpc]) (by simp [hpc])
    obtain ⟨vs', hd', hcase⟩ := handle_delivered outdir c hd h0
    rw [handled_snoc]
    refine ⟨vs', hd', ?_⟩
    rcases hcase with ⟨hlive, hlen, hzero⟩ | ⟨hdead, rfl, h23⟩
    · refine .at_head ?_ (fun hne => hlen ▸ hlt hne) (if_pos hlive)
      rw [show _ = 0 from hzero]
      exact List.mem_cons_self
    · refine .stopped ?_ (fun hne => (hlt hne).le) (if_neg (by rw [hdead]; exact Bool.false_ne_true))
      rcases h23 with h2 | h3
      · rw [show _ = 2 from h2]
        decide
      · rw [show _ = 3 from h3]
        decide
  | load =>
    obtain ⟨hpc, ⟨-, rfl⟩ | ⟨-, rfl⟩⟩ := heffect
    · have h0 : s.main.exitCode = 0 := hexit.zero (by simp [hpc])
      rw [handled_snoc, Option.toList_none, List.append_nil]
      refine ⟨vs, ⟨hd.found, ?_, hd.onDisk, hd.distinct⟩, .stopped ?_ hp.bound rfl⟩
      · have hj := hd.judged
        rw [h0] at hj
        dsimp only
        rw [h0]
        exact .all (hj.passed (by decide) (by decide)) (by decide) (by decide)
      · rw [h0]
        show 4 ∈ [2, 3, 4]
        decide
    · rw [handled_snoc, Option.toList_none, List.append_nil]
      exact ⟨vs, hd, .at_head hp.code hp.bound rfl⟩

theorem start_progress (count : Nat) (w : World) : (start w).Progress count [] where
  code := List.mem_cons_self
  bound _ := Nat.zero_le _
  round _ hne _ := absurd rfl hne
  through hleft := by cases hleft

end

end Session

/-! ## the process -/

namespace Process

section
variable {base : Bytes 32 → Option (Bytes 32)} {os : Os} {outdir : List Char}
  {patterns : List CompiledPattern} {count workers : Nat} {program : Nat → List Push} {w : World}
  {es : List ProcessEvent} {s : Process}

theorem run_delivered (hcount : count < 2^64) (hn : ∀ t, workers ≤ t → program t = [])
    (h : Trace.run (step base os outdir patterns count workers) (start program w) es = some s) :
    ∃ vs, Delivered base os patterns (s.turns.filterMap Turn.popped) s.main vs ∧
      s.session.Progress count vs := by
  have hI := Trace.run_inv
    (I := fun t : Session => t.ExitCode ∧
      ∃ vs, Delivered base os patterns t.handled t.main vs ∧ t.Progress count vs)
    (fun hs hstep => ⟨Session.step_exitCode hs.1 hstep,
      Session.step_delivered hcount hs.1 hs.2 hstep⟩)
    (run_session hn h)
    ⟨(Session.start_drained w).exitCode, [], Delivered.start w, Session.start_progress count w⟩
  exact hI.2

/-- **What `main` has counted is on the disk**, in every state of every run: one complete directory
for each candidate that was handled, except for one that stopped `main`; the addresses are distinct,
there are no more than `count`, and exit code 0 without an interrupt means `count` of them. -/
theorem delivered (base : Bytes 32 → Option (Bytes 32)) (os : Os) (outdir : List Char)
    (patterns : List CompiledPattern) (count : Nat) (hcount : count < 2^64) (workers : Nat)
    (program : Nat → List Push) (hn : ∀ t, workers ≤ t → program t = []) (w : World)
    (es : List ProcessEvent) (s : Process)
    (h : Trace.run (step base os outdir patterns count workers) (start program w) es = some s) :
    ∃ vs, Delivered base os patterns (s.turns.filterMap Turn.popped) s.main vs ∧
      (count ≠ 0 → vs.length ≤ count) ∧
      (s.pc = .left → s.main.exitCode = 0 → (∀ turn ∈ s.turns, turn.interrupted = false) →
        count ≠ 0 ∧ vs.length = count) := by
  obtain ⟨vs, hd, hp⟩ := run_delivered hcount hn h
  refine ⟨vs, hd, hp.bound, fun hleft => hp.through ?_⟩
  show s.loopPc = .left
  rw [loopPc, hleft]

/-- **The oracle accepts what a run leaves**: while the engines push clamped scalars, each counted
result is that of a candidate which a worker pushed and `main` handled, its address starts with one
of the prefixes, and `verify_onion.py` accepts its directory. -/
theorem delivered_accepted (base : Bytes 32 → Option (Bytes 32)) (hrfc : Rfc8032 base) (os : Os)
    (outdir : List Char) (prefixes : List (List Char)) (patterns : List CompiledPattern)
    (hp : compilePrefixes prefixes = some patterns) (count : Nat) (hcount : count < 2^64)
    (workers : Nat) (program : Nat → List Push) (hn : ∀ t, workers ≤ t → program t = [])
    (hclamped : ∀ t < workers, ∀ p ∈ program t, Clamped p.cand.secret.scalar) (w : World)
    (es : List ProcessEvent) (s : Process)
    (h : Trace.run (step base os outdir patterns count workers) (start program w) es = some s) :
    ∃ vs, Delivered base os patterns (s.turns.filterMap Turn.popped) s.main vs ∧
      ∀ v ∈ vs, (∃ x ∈ s.queue.pushed, (x.1 < workers ∧ x.2 ∈ program x.1) ∧
          x.2.cand ∈ s.turns.filterMap Turn.popped ∧ Gives base patterns x.2.cand v) ∧
        (∃ pre ∈ prefixes, pre <+: v.address.view) ∧
        ∀ enc, VerifyOnion.checkDir enc (s.main.world.content v.address.view) =
          .ok v.address.toString := by
  obtain ⟨vs, hd, -⟩ := run_delivered hcount hn h
  refine ⟨vs, hd, fun v hv => ?_⟩
  obtain ⟨c, hc, hgive⟩ := hd.judged.mem hv
  obtain ⟨x, hx, rfl⟩ := List.mem_map.mp ((popped_first hn h).subset hc)
  obtain ⟨ht, hpush⟩ := pushed_mem hn h hx
  have hresult := hgive
  obtain ⟨hk, ⟨pat, hpat, -, hstarts⟩, rfl⟩ := verify_eq_ok.mp hresult
  obtain ⟨pre, hpre, hcompiled⟩ := (compilePrefixes_eq_some.mp hp).getElem? hpat
  obtain ⟨-, -, -, -, hletters, -, -⟩ := compilePrefix_eq_ok hcompiled
  exact ⟨⟨x, hx, ⟨ht, hpush⟩, hc, hgive⟩, ⟨pre, List.mem_of_getElem? hpre, hletters ▸ hstarts⟩,
    (hd.onDisk _ hv).accepted hrfc (hclamped x.1 ht x.2 hpush) hk rfl⟩

end

/-- `main` sleeps until the candidate comes, and reports it -/
theorem delivered_late :
    ∃ s, Trace.run (step (fun _ => some zero32) soundOs [] letterPatterns 1 1)
        (start lateProgram freshState.world) alarmRun = some s ∧
      ∃ vs, Delivered (fun _ => some zero32) soundOs letterPatterns
          (s.turns.filterMap Turn.popped) s.main vs ∧
        (1 ≠ 0 → vs.length ≤ 1) ∧
        (s.pc = .left → s.main.exitCode = 0 → (∀ turn ∈ s.turns, turn.interrupted = false) →
          1 ≠ 0 ∧ vs.length = 1) :=
  ⟨_, rfl, delivered _ soundOs [] letterPatterns 1 (by decide) 1 lateProgram lateProgram_beyond
    freshState.world alarmRun _ rfl⟩

def searchWorker : Nat → List Push :=
  programs 1 fun t => pushes (IncrementalCpuEngine.worker (spacedHost t) searchConfig 3)

theorem mem_searchWorker {t : Nat} {p : Push} (ht : t < 1) (hp : p ∈ searchWorker t) :
    p.index < 4 ∧ p.cand.secret.scalar = scalarAdd8i (baseScalar (spacedHost t) p.draw) p.index ∧
      ∃ v, Gives rfcBase searchPatterns p.cand v := by
  rw [searchWorker, programs, if_pos ht] at hp
  have hx : p.hit ∈ hits (IncrementalCpuEngine.worker (spacedHost t) searchConfig 3) := by
    rw [← pushes_hit]
    exact List.mem_map_of_mem hp
  obtain ⟨e, -, -, hi, hs, hm⟩ := (mem_worker_hits laneWalks).mp hx
  have hindex : p.index < 4 := hi.trans_le (searchConfig.completed_le e.2)
  have h61 : p.index < 2^61 := hindex.trans (by norm_num)
  exact ⟨hindex, hs, verify_matched rfcBase_rfc8032 search_compiled hm hs
    (spaced_range (ht.trans Nat.one_lt_two) h61) h61⟩

theorem searchWorker_clamped (t : Nat) (ht : t < 1) (p : Push) (hp : p ∈ searchWorker t) :
    Clamped p.cand.secret.scalar := by
  obtain ⟨hi, hs, -⟩ := mem_searchWorker ht hp
  rw [hs, clamped_iff, scalarAdd8i_exact _ (hi.trans (by norm_num)), baseScalar_spaced
    (ht.trans Nat.one_lt_two), Bytes.toNat_ofNat, kOrder]
  omega

/-- the first match of the search is written -/
theorem searchWorker_found (outdir : List Char) :
    ∃ s, Trace.run (step rfcBase soundOs outdir searchPatterns 1 1)
        (start searchWorker freshState.world) alarmRun = some s ∧ s.main.found = 1 := by
  obtain ⟨p, rest, hp⟩ : ∃ p rest, pushes (worker laneOps (spacedHost 0) searchConfig 3) =
      p :: rest := spaced_worker_pushes laneWalks (by decide) rfl Nat.two_pos (by decide)
  have hprogram : searchWorker 0 = p :: rest := hp
  have hmem : p ∈ searchWorker 0 := by
    rw [hprogram]
    exact List.mem_cons_self
  obtain ⟨s, hrun, hmain, -, -⟩ := alarmRun_handles rfcBase soundOs outdir searchPatterns
    (Or.inr Nat.one_pos) 1 hprogram freshState.world
  obtain ⟨-, -, v, hv⟩ := mem_searchWorker Nat.one_pos hmem
  have hw := (writeTorKeys_ok (w := freshState.world) (r := v) soundOs_sound rfl outdir).1
  refine ⟨s, hrun, ?_⟩
  rw [hmain]
  exact congrArg (fun r => r.2.found) (handle_ok (s := freshState) hv hw)

/-- and the oracle accepts it -/
theorem delivered_accepted_first :
    ∃ s, Trace.run (step rfcBase soundOs [] searchPatterns 1 1)
        (start searchWorker freshState.world) alarmRun = some s ∧ s.main.found = 1 ∧
      ∃ vs, Delivered rfcBase soundOs searchPatterns (s.turns.filterMap Turn.popped) s.main vs ∧
        ∀ v ∈ vs, (∃ x ∈ s.queue.pushed, (x.1 < 1 ∧ x.2 ∈ searchWorker x.1) ∧
            x.2.cand ∈ s.turns.filterMap Turn.popped ∧ Gives rfcBase searchPatterns x.2.cand v) ∧
          (∃ pre ∈ searchLetters, pre <+: v.address.view) ∧
          ∀ enc, VerifyOnion.checkDir enc (s.main.world.content v.address.view) =
            .ok v.address.toString := by
  obtain ⟨s, hrun, hfound⟩ := searchWorker_found []
  exact ⟨s, hrun, hfound, delivered_accepted rfcBase rfcBase_rfc8032 soundOs [] searchLetters
    searchPatterns (compilePrefixes_eq_some.mpr search_compiled) 1 (by decide) 1 searchWorker
    (programs_beyond _) searchWorker_clamped freshState.world alarmRun s hrun⟩

end Process

end Onion
