import Onion.Cli.Healthy
import Onion.Engine.StatsBoard

/-!
# `main`, from the command line

`main` compiles the prefixes, selects an engine by name and starts its workers.

* `Options`, `Machine`   what the command line says, and what the build and the machine bring;
* `startUp`              up to the start of the engine: an exit code, or a search;
* `workers`, `program`   the threads of the engine, and what they push;
* `main_serves`          a search, whatever its engine is.
-/

namespace Onion
open Logged

/-- the options of `main` -/
structure Options where
  prefixes : List (List Char)
  outdir : List Char
  /-- `-t`, if it was given -/
  threads : Option Nat
  count : Nat
  engineName : String
  simdMode : String
  /-- `--bench` with a positive number of seconds -/
  bench : Bool
  batch : Nat
  count_lt : count < 2^64
  batch_lt : batch < 2^64

/-- `ONION_CUDA_THREADS` and `ONION_CUDA_BLOCK`, as `atoi` reads them -/
structure CudaEnv where
  threads : Option Int
  block : Option Int
  threads_lt : ∀ v ∈ threads, v < 2^31

structure CudaKnobs where
  threads : Nat
  block : Nat

/-- the knobs after `init`: the 32-bit field doubles the default, and what the environment says comes
last, if it is positive -/
def CudaKnobs.init (field : FieldBackend) (env : CudaEnv) (knobs : CudaKnobs) : CudaKnobs :=
  let threads := if field = .words32 ∧ knobs.threads = 2^14 then 2^15 else knobs.threads
  { threads := ((env.threads.filter (0 < ·)).map Int.toNat).getD threads
    block := ((env.block.filter (0 < ·)).map Int.toNat).getD knobs.block }

/-- `main` leaves the knobs as they are -/
def defaultKnobs : CudaKnobs := ⟨2^14, 128⟩

/-- the GPU of a build with CUDA: `ONION_CUDA_FIELD32` and `ONION_CUDA_M`, the environment, and the
device -/
structure Gpu where
  field : FieldBackend
  inv : BatchInversion
  kStepsPerThread : Nat
  steps_lt : kStepsPerThread < 2^31
  env : CudaEnv
  ok : Nat → Bool
  order : Nat → List (Nat × Nat)
  order_perm : ∀ n, (order n).Perm (candidates (defaultKnobs.init field env).threads kStepsPerThread)
  state : CudaState kPipelineDepth

/-- the build, and what the workers draw and when they see the stop -/
structure Machine where
  hardwareConcurrency : Nat
  /-- `ONION_CUDA` -/
  gpu : Option Gpu
  host : Nat → Host
  polls : Nat → Nat

namespace Gpu
variable (g : Gpu) (patterns : List CompiledPattern)

def knobs : CudaKnobs := defaultKnobs.init g.field g.env

theorem threads_lt : g.knobs.threads < 2^31 := by
  have hdefault : (if g.field = .words32 ∧ defaultKnobs.threads = 2^14 then 2^15 else
      defaultKnobs.threads) < 2^31 := by split <;> decide
  rw [knobs, CudaKnobs.init]
  dsimp only
  cases henv : g.env.threads.filter (0 < ·) with
  | none => exact hdefault
  | some v =>
    obtain ⟨hv, -⟩ := Option.filter_eq_some_iff.mp henv
    have hlt := g.env.threads_lt v hv
    show v.toNat < 2^31
    omega

def config : CudaConfig :=
  ⟨patterns, g.knobs.threads, g.knobs.block, g.kStepsPerThread, g.threads_lt, g.steps_lt⟩

/-- a run of the GPU engine -/
def engine (h : Host) : Worker (CudaState kPipelineDepth) :=
  CudaEngine.run h (g.config patterns)
    (g.field.device g.inv g.knobs.threads g.kStepsPerThread g.ok g.order g.order_perm) g.state

/-- all that it pushes is computed within the range of its field -/
def Clean (h : Host) : Prop := ∀ p ∈ pushes (g.engine patterns h),
  g.field.clean g.inv h (g.config patterns) p.draw p.index = true

end Gpu

/-! ## up to the start of the engine -/

def workerThreads (m : Machine) (o : Options) : Nat :=
  let threads := max 1 (o.threads.getD (max 1 (m.hardwareConcurrency / 2)))
  if o.engineName = "cpu+gpu" ∧ o.threads = none ∧ 0 < m.hardwareConcurrency then
    m.hardwareConcurrency
  else threads

def useX4 (o : Options) : Bool :=
  o.engineName ≠ "naive" ∧ o.engineName ≠ "cuda" ∧ o.engineName ≠ "cpu+gpu" ∧ o.simdMode = "on"

/-- the engine, unless it needs a CUDA build -/
def selectEngine (m : Machine) (o : Options) : Option EngineName :=
  if o.engineName = "cpu+gpu" then m.gpu.map fun _ => .cpuGpu
  else if o.engineName = "cuda" then m.gpu.map fun _ => .cuda
  else if o.engineName = "naive" then some .naive
  else if useX4 o then some .incrementalX4
  else some .incremental

inductive StartUp where
  /-- `main` returns -/
  | exit (code : Nat)
  /-- `main` starts the engine and enters its loop -/
  | search (patterns : List CompiledPattern) (engine : EngineName)

/-- the prefixes first, and the engine after them; `--bench` leaves the results in the queue -/
def startUp (m : Machine) (o : Options) : StartUp :=
  match compilePrefixes o.prefixes with
  | none => .exit 1
  | some patterns =>
    match selectEngine m o with
    | none => .exit 1
    | some engine => if o.bench then .exit 0 else .search patterns engine

/-! ## the threads of an engine -/

def EngineName.workers (engine : EngineName) (threads : Nat) : Nat := (writers engine threads).length

/-- the slot of the board that the GPU engine writes -/
def statsSlot (engine : EngineName) (threads : Nat) : Nat :=
  if engine = .cpuGpu then threads else 0

/-- the candidates of the longest walk -/
def Machine.span (m : Machine) : Nat :=
  max (2^22) ((m.gpu.map fun g => g.knobs.threads * g.kStepsPerThread).getD 0)

/-- the configuration of the incremental engines -/
def Options.config (o : Options) (patterns : List CompiledPattern) : EngineConfig :=
  ⟨patterns, o.batch, 2^22, o.batch_lt, by norm_num⟩

/-- what thread `t` of the engine pushes -/
def Machine.program (m : Machine) (o : Options) (patterns : List CompiledPattern) :
    EngineName → Nat → List Push
  | .naive, t => pushes (NaiveCpuEngine.worker (m.host t) patterns (m.polls t))
  | .incremental, t =>
    pushes (IncrementalCpuEngine.worker (m.host t) (o.config patterns) (m.polls t))
  | .incrementalX4, t =>
    pushes (IncrementalCpuEngineX4.worker (m.host t) (o.config patterns) (m.polls t))
  | .cuda, t => (m.gpu.map fun g => pushes (g.engine patterns (m.host t))).getD []
  | .cpuGpu, t =>
    let threads := workerThreads m o
    compositeWorker threads
      (fun t => pushes (IncrementalCpuEngine.worker (m.host t) (o.config patterns) (m.polls t)))
      ((m.gpu.map fun g => pushes (g.engine patterns (m.host threads))).getD []) t

/-! ## what is refused -/

theorem selectEngine_eq_none {m : Machine} {o : Options} : selectEngine m o = none ↔
    m.gpu = none ∧ (o.engineName = "cuda" ∨ o.engineName = "cpu+gpu") := by
  rw [selectEngine]
  by_cases h1 : o.engineName = "cpu+gpu"
  · rw [if_pos h1, Option.map_eq_none_iff]
    exact ⟨fun h => ⟨h, Or.inr h1⟩, And.left⟩
  rw [if_neg h1]
  by_cases h2 : o.engineName = "cuda"
  · rw [if_pos h2, Option.map_eq_none_iff]
    exact ⟨fun h => ⟨h, Or.inl h2⟩, And.left⟩
  rw [if_neg h2]
  refine iff_of_false ?_ fun h => h.2.elim h2 h1
  split
  · exact Option.some_ne_none _
  · split <;> exact Option.some_ne_none _

theorem selectEngine_gpu {m : Machine} {o : Options} {engine : EngineName}
    (h : selectEngine m o = some engine) (hgpu : engine = .cuda ∨ engine = .cpuGpu) :
    ∃ g, m.gpu = some g := by
  by_contra hnone
  have hnone : m.gpu = none := Option.eq_none_iff_forall_ne_some.mpr fun g hg => hnone ⟨g, hg⟩
  rw [selectEngine, hnone] at h
  simp only [Option.map_none] at h
  split at h
  · cases h
  · split at h
    · cases h
    · split at h
      · cases h
        rcases hgpu with he | he <;> cases he
      · split at h
        all_goals
          cases h
          rcases hgpu with he | he <;> cases he

theorem compilePrefixes_eq_none {prefixes : List (List Char)} : compilePrefixes prefixes = none ↔
    ∃ pre ∈ prefixes,
      ¬(1 ≤ pre.length ∧ pre.length ≤ 49 ∧ ∀ c ∈ pre, c ∈ kBase32Alphabet) := by
  induction prefixes with
  | nil => simp [compilePrefixes]
  | cons pre prefixes ih =>
    simp only [List.mem_cons, exists_eq_or_imp]
    rw [compilePrefixes, ← ih, ← compilePrefix_isOk]
    cases hc : compilePrefix pre with
    | error e => simp
    | ok p => simp

/-! ## the threads of a search -/

section
variable {m : Machine} {o : Options} {patterns : List CompiledPattern} {engine : EngineName}

theorem mem_writers_gpu (threads : Nat) {t : Nat} (ht : t < EngineName.workers .cuda threads) :
    t = 0 :=
  Nat.lt_one_iff.mp ht

theorem workers_cpuGpu (threads : Nat) : EngineName.workers .cpuGpu threads = threads + 1 := by
  rw [EngineName.workers, writers, List.length_append, List.length_range, List.length_singleton]

theorem program_engine (hs : selectEngine m o = some engine)
    (hclean : ∀ g ∈ m.gpu, g.Clean patterns (m.host (statsSlot engine (workerThreads m o)))) {t : Nat}
    (ht : t < engine.workers (workerThreads m o)) :
    EnginePushes (m.host t) patterns (m.program o patterns engine t) := by
  cases engine with
  | naive => exact .naive _
  | incremental => exact .incremental (o.config patterns) rfl _
  | incrementalX4 => exact .incrementalX4 (o.config patterns) rfl _
  | cuda =>
    obtain ⟨g, hg⟩ := selectEngine_gpu hs (Or.inl rfl)
    obtain rfl : t = 0 := mem_writers_gpu _ ht
    have hc := hclean g hg
    rw [Machine.program, hg]
    exact .cuda (g.config patterns) rfl g.field g.inv g.ok g.order g.order_perm g.state hc
  | cpuGpu =>
    obtain ⟨g, hg⟩ := selectEngine_gpu hs (Or.inr rfl)
    rw [workers_cpuGpu] at ht
    have hc := hclean g hg
    rw [Machine.program, hg, compositeWorker]
    split
    · exact .incremental (o.config patterns) rfl _
    · obtain rfl : t = workerThreads m o := by omega
      exact .cuda (g.config patterns) rfl g.field g.inv g.ok g.order g.order_perm g.state hc

theorem incremental_index {lanes : Nat} {S O : Type} {ops : LaneOps lanes S O} (wk : Walks ops)
    {h : Host} {polls : Nat} {p : Push} (hp : p ∈ pushes (worker ops h (o.config patterns) polls)) :
    p.index < 2^22 := by
  have hx := List.mem_map_of_mem (f := Push.hit) hp
  rw [pushes_hit] at hx
  obtain ⟨e, -, -, hi, -, -⟩ := (mem_worker_hits wk).mp hx
  exact Nat.lt_of_lt_of_le hi ((o.config patterns).completed_le e.2)

theorem Gpu.index {g : Gpu} {h : Host} {p : Push} (hp : p ∈ pushes (g.engine patterns h)) :
    p.index < g.knobs.threads * g.kStepsPerThread := by
  have hx := List.mem_map_of_mem (f := Push.hit) hp
  rw [pushes_hit] at hx
  exact (CudaEngine.run_sound kPipelineDepth_ne _ hx).2.1

theorem program_index {t : Nat} {p : Push} (hp : p ∈ m.program o patterns engine t) :
    p.index < m.span := by
  have hcpu : ∀ {i : Nat}, i < 2^22 → i < m.span := fun hi => lt_of_lt_of_le hi (le_max_left _ _)
  have hgpu : ∀ {u : Nat}, p ∈ (m.gpu.map fun g => pushes (g.engine patterns (m.host u))).getD [] →
      p.index < m.span := by
    intro u hp
    cases hg : m.gpu with
    | none =>
      rw [hg] at hp
      cases hp
    | some g =>
      rw [hg] at hp
      refine lt_of_lt_of_le (Gpu.index hp) ?_
      rw [Machine.span, hg]
      exact le_max_right _ _
  cases engine with
  | naive =>
    have hx := List.mem_map_of_mem (f := Push.hit) hp
    rw [Machine.program, pushes_hit] at hx
    obtain ⟨-, hi, -⟩ := NaiveCpuEngine.mem_worker_hits.mp hx
    have hi : p.index = 0 := hi
    rw [hi]
    exact hcpu (Nat.two_pow_pos 22)
  | incremental => exact hcpu (incremental_index laneWalks hp)
  | incrementalX4 => exact hcpu (incremental_index laneWalksX4 hp)
  | cuda => exact hgpu hp
  | cpuGpu =>
    rw [Machine.program] at hp
    rcases mem_compositeWorker hp with ⟨-, hp⟩ | ⟨-, hp⟩
    · exact hcpu (incremental_index laneWalks hp)
    · exact hgpu hp

end

/-- **`main`, from the command line.**  It returns 1 without a search exactly for a prefix that is
not 1 to 49 letters of the alphabet, or for a GPU engine in a build without CUDA.  Otherwise it
searches with the engine of that name, and whatever the engine and however its threads run: on a
system without faults and with no entry in the way, with no draw so high that a walk leaves the
scalars, either two walks have met, or the exit code is 0 or 4 and every candidate that was popped
is a result that the oracle accepts. -/
theorem main_serves (m : Machine) (base : Bytes 32 → Option (Bytes 32)) (hrfc : Rfc8032 base)
    (hbase : ∀ t, (m.host t).baseNoclamp = base) (hspan : m.span ≤ 2^61)
    (hdraw : ∀ t draw, (baseScalar (m.host t) draw).toNat + 8 * m.span ≤ 2^255) (o : Options) :
    (startUp m o = .exit 1 ↔
      (∃ pre ∈ o.prefixes,
        ¬(1 ≤ pre.length ∧ pre.length ≤ 49 ∧ ∀ c ∈ pre, c ∈ kBase32Alphabet)) ∨
      m.gpu = none ∧ (o.engineName = "cuda" ∨ o.engineName = "cpu+gpu")) ∧
    ∀ patterns engine, startUp m o = .search patterns engine →
      let workers := engine.workers (workerThreads m o)
      let program := programs workers (m.program o patterns engine)
      PrefixFree o.prefixes →
      (∀ g ∈ m.gpu, g.Clean patterns (m.host (statsSlot engine (workerThreads m o)))) →
      ∀ os : Os, os.Sound →
      ∀ w : World, (∀ t < workers, ∀ p ∈ program t, w.fs p.cand.address.view = none) →
      ∀ es s, Trace.run (Process.step base os o.outdir patterns o.count workers)
          (Process.start program w) es = some s →
        s.main.exitCode = 3 ∧ Meet workers program ∨
          (s.main.exitCode = 0 ∨ s.main.exitCode = 4) ∧
            ∃ vs, Process.Achieved base patterns o.count s vs := by
  constructor
  · rw [← compilePrefixes_eq_none, ← selectEngine_eq_none, startUp]
    cases compilePrefixes o.prefixes with
    | none => simp
    | some patterns =>
      cases selectEngine m o with
      | none => simp
      | some engine =>
        cases o.bench with
        | true => simp
        | false => simp
  · intro patterns engine hstart workers program hfree hclean os hos w hthere es s hrun
    obtain ⟨hp, hs⟩ : compilePrefixes o.prefixes = some patterns ∧ selectEngine m o = some engine := by
      rw [startUp] at hstart
      cases hp : compilePrefixes o.prefixes with
      | none =>
        rw [hp] at hstart
        cases hstart
      | some ps =>
        rw [hp] at hstart
        cases hs : selectEngine m o with
        | none =>
          rw [hs] at hstart
          cases hstart
        | some e =>
          rw [hs] at hstart
          cases hb : o.bench with
          | true =>
            simp [hb] at hstart
          | false =>
            simp only [hb, Bool.false_eq_true, if_false, StartUp.search.injEq] at hstart
            exact ⟨congrArg some hstart.1, congrArg some hstart.2⟩
    have hthread : ∀ t < workers, program t = m.program o patterns engine t := fun t ht => if_pos ht
    refine Process.healthy base hrfc m.host hbase o.prefixes patterns hp hfree workers program
      (programs_beyond _) (fun t ht => ?_) (fun t ht p hmem => ?_) os hos w hthere o.outdir o.count
      o.count_lt es s hrun
    · rw [hthread t ht]
      exact program_engine hs hclean ht
    · rw [hthread t ht] at hmem
      have hi := program_index hmem
      have hd := hdraw t p.draw
      exact ⟨by omega, by omega⟩

theorem searchEnv_lt : ∀ v ∈ (some 2 : Option Int), v < 2^31 := by decide

/-- `ONION_CUDA_THREADS=2` -/
def searchEnv : CudaEnv := ⟨some 2, none, searchEnv_lt⟩

theorem searchOrder_perm (_ : Nat) :
    (candidates 2 2).Perm (candidates (defaultKnobs.init .limbs51 searchEnv).threads 2) :=
  .refl _

/-- a build with CUDA, on two threads; the workers see two hosts -/
def searchMachine : Machine where
  hardwareConcurrency := 4
  gpu := some {
    field := .limbs51
    inv := .fusedCombo
    kStepsPerThread := 2
    steps_lt := searchGpu.steps_lt
    env := searchEnv
    ok := fun _ => true
    order := fun _ => candidates 2 2
    order_perm := searchOrder_perm
    state := startCuda 9 }
  host t := spacedHost (min t 1)
  polls _ := 3

theorem searchCount_lt : 1 < 2^64 := by decide

/-- `-t 1 --engine cpu+gpu --batch 2` -/
def searchOptions : Options where
  prefixes := searchLetters
  outdir := []
  threads := some 1
  count := 1
  engineName := "cpu+gpu"
  simdMode := "auto"
  bench := false
  batch := 2
  count_lt := searchCount_lt
  batch_lt := searchConfig.batch_lt

theorem main_serves_spaced :
    let program := programs 2 (searchMachine.program searchOptions searchPatterns .cpuGpu)
    startUp searchMachine searchOptions = .search searchPatterns .cpuGpu ∧
    ∃ s, Trace.run (Process.step rfcBase soundOs [] searchPatterns 1 2)
        (Process.start program freshState.world) Process.alarmRun = some s ∧
      s.turns.filterMap Turn.popped ≠ [] ∧
      (s.main.exitCode = 3 ∧ Meet 2 program ∨ (s.main.exitCode = 0 ∨ s.main.exitCode = 4) ∧
        ∃ vs, Process.Achieved rfcBase searchPatterns 1 s vs) := by
  intro program
  have hstart : startUp searchMachine searchOptions = .search searchPatterns .cpuGpu := by
    rw [startUp, show compilePrefixes searchOptions.prefixes = some searchPatterns from
      compilePrefixes_eq_some.mpr search_compiled]
    rfl
  have hdraw : ∀ t draw, (baseScalar (searchMachine.host t) draw).toNat + 8 * searchMachine.span ≤
      2^255 := by
    intro t draw
    have hspan : searchMachine.span = 2^22 := by decide
    have hrange : (baseScalar (searchMachine.host t) draw).toNat + 8 * 2^22 < 2^255 :=
      spaced_range (Nat.lt_succ_of_le (Nat.min_le_right t 1)) (by norm_num)
    rw [hspan]
    exact hrange.le
  obtain ⟨-, hserves⟩ := main_serves searchMachine rfcBase rfcBase_rfc8032 (fun _ => rfl)
    (by decide) hdraw searchOptions
  obtain ⟨p, rest, hp⟩ : ∃ p rest, pushes (worker laneOps (spacedHost 0)
      (searchOptions.config searchPatterns) 3) = p :: rest :=
    spaced_worker_pushes laneWalks (by decide) rfl Nat.two_pos (by decide)
  have hprogram : program 0 = p :: rest := hp
  obtain ⟨s, hrun, -, hturns, -⟩ := Process.alarmRun_handles rfcBase soundOs [] searchPatterns
    (Or.inr Nat.one_pos) 2 hprogram freshState.world
  refine ⟨hstart, s, hrun, by rw [hturns]; exact List.cons_ne_nil _ _, ?_⟩
  refine hserves searchPatterns .cpuGpu hstart search_free (fun g hg => ?_) soundOs soundOs_sound
    freshState.world (fun _ _ _ _ => rfl) Process.alarmRun s hrun
  obtain rfl := Option.some.inj hg
  exact fun _ _ => rfl

end Onion
