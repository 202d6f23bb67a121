/-
# System.JobDrain -- a job of the accelerator, from the launch to its end

Behind the launch core 0 computes and the engine drains the results.  What the pair
needs for that is promised only while the engine is at work, so it is followed with
inputs that are calm from the moment it is not (`calmedAt`): that run has a drain with
an end, up to this end the engine is at work, and so the pair of the accelerator does
the same.
-/
import MiniMac.Accel.ResultDrain
import MiniMac.System.JobFill

namespace MiniMac.System

open MiniMac.Theory MiniMac.Accel
open MiniMac.Accel.AxiStreamDma (Channel)

set_option autoImplicit false

variable {rows cols : ℕ} {Cell : Type}

/-! ## Core 0 and the engine as a pair -/

section Pair

variable (s₀ : MacSubsystem.State rows cols 8) (ins : ℕ → MacSubsystem.Inputs)

def pairAt (t : ℕ) : MacDma.State rows cols 8 := ⟨coreAt s₀ ins t, dmaAt s₀ ins t⟩

/-- What the pair sees.  The memory counts as willing where nothing is asked of it. -/
def pairInputsAt (t : ℕ) : MacDma.Inputs where
  startI := (regsAt s₀ ins t).startO
  abortI := false
  wgtBaseI := (regsAt s₀ ins t).wgtBaseO
  actBaseI := (regsAt s₀ ins t).actBaseO
  resBaseI := (regsAt s₀ ins t).resBaseO
  dmaLenWgtI := (regsAt s₀ ins t).dmaLenWgtO
  dmaLenActI := (regsAt s₀ ins t).dmaLenActO
  coreStartI := launchAt s₀ ins t
  regMI := (regsAt s₀ ins t).dimMO
  regNI := (regsAt s₀ ins t).dimNO
  unknown := (ins t).unknown
  memGnt := (ins t).mGntI || !(dmaAt s₀ ins t).mReqO
  memRvalid := (ins t).mRvalidI
  memRdata := (ins t).mRdataI

variable {s₀ ins}

theorem granted_pair {t : ℕ} (grants : (ins t).mGntI = true → (dmaAt s₀ ins t).mReqO = true) :
    MacDma.granted (pairAt s₀ ins t) (pairInputsAt s₀ ins t) = (ins t).mGntI := by
  rw [MacDma.granted, pairAt, pairInputsAt]
  cases gnt : (ins t).mGntI with
  | false => simp
  | true => simp [grants gnt]

theorem pairAt_succ {t : ℕ} (grants : (ins t).mGntI = true → (dmaAt s₀ ins t).mReqO = true) :
    pairAt s₀ ins (t + 1) = MacDma.step (pairAt s₀ ins t) (pairInputsAt s₀ ins t) := by
  have engine : MacDma.dmaInputs (pairAt s₀ ins t) (pairInputsAt s₀ ins t) =
      dmaInputsAt s₀ ins t := by
    rw [MacDma.dmaInputs, granted_pair grants]
    rfl
  rw [MacDma.step, engine]
  rfl

theorem memWrite_pair {t : ℕ} (grants : (ins t).mGntI = true → (dmaAt s₀ ins t).mReqO = true) :
    MacDma.memWrite (pairAt s₀ ins t) (pairInputsAt s₀ ins t) = memWriteAt s₀ ins t := by
  rw [MacDma.memWrite, granted_pair grants, memWriteAt]
  cases gnt : (ins t).mGntI with
  | false => simp
  | true => simp [grants gnt, pairAt]

end Pair

/-- The engine waits for results. -/
structure EngineWaits (dma : AxiStreamDma.State) : Prop where
  phase : dma.state = .runArray
  down : dma.mReqO = false
  notReady : dma.sAxisResTready = false

theorem EngineWaits.step {dma : AxiStreamDma.State} {i : AxiStreamDma.Inputs}
    (at_ : EngineWaits dma) (noAbort : i.abortI = false) (silent : i.sAxisResTvalid = false) :
    EngineWaits (AxiStreamDma.step dma i) := by
  rw [AxiStreamDma.step_runArray noAbort at_.phase, if_neg (by simp [silent])]
  exact ⟨at_.phase, rfl, rfl⟩

/-! ## A run that becomes calm -/

section Calm

variable (s₀ : MacSubsystem.State rows cols 8) (ins : ℕ → MacSubsystem.Inputs) (job : JobConfig)
variable (b : ℕ)

instance (t : ℕ) : Decidable (Busy s₀ ins b t) :=
  decidable_of_iff (∀ u, u ≤ t → b < u → (dmaAt s₀ ins u).state ≠ .idle)
    (forall_congr' fun _ => forall_comm)

/-- The job is held, and memory is willing. -/
def calm : MacDma.Inputs where
  startI := false
  abortI := false
  wgtBaseI := job.wgtBase
  actBaseI := job.actBase
  resBaseI := job.resBase
  dmaLenWgtI := BitVec.ofNat 32 (4 * job.wgtWords)
  dmaLenActI := BitVec.ofNat 32 (4 * job.actWords)
  coreStartI := false
  regMI := BitVec.ofNat 8 job.m
  regNI := BitVec.ofNat 8 job.n
  unknown := 0
  memGnt := true
  memRvalid := false
  memRdata := 0

def calmedInputs (t : ℕ) : MacDma.Inputs :=
  if Busy s₀ ins b t then pairInputsAt s₀ ins t else calm job

/-- The pair from reset on, under inputs that are calm once the engine is idle. -/
def calmedAt (t : ℕ) : MacDma.State rows cols 8 :=
  MacDma.after (MacDma.reset ⟨s₀.core0, s₀.dma⟩) (calmedInputs s₀ ins job b) t

/-- What core 0 sees in it. -/
def calmedCoreInputs (t : ℕ) : MacCoreAxi.Inputs :=
  MacDma.coreInputs (calmedAt s₀ ins job b t) (calmedInputs s₀ ins job b t)

theorem calmedAt_core (t : ℕ) : (calmedAt s₀ ins job b t).core =
    MacCoreAxi.after s₀.core0 (calmedCoreInputs s₀ ins job b) t :=
  Clocked.eq_run (x := fun u => (calmedAt s₀ ins job b u).core) rfl (fun _ => rfl) t

/-- From any cycle on it is a run of the pair. -/
theorem calmedAt_add (d t : ℕ) : calmedAt s₀ ins job b (d + t) =
    MacDma.after (calmedAt s₀ ins job b d) (fun u => calmedInputs s₀ ins job b (d + u)) t :=
  Clocked.eq_run (x := fun u => calmedAt s₀ ins job b (d + u)) rfl (fun _ => rfl) t

variable {s₀ ins b}

theorem Busy.earlier {t u : ℕ} (busy : Busy s₀ ins b t) (upto : u ≤ t) : Busy s₀ ins b u :=
  fun v low high => busy v low (by omega)

/-- While the engine is at work the two runs agree. -/
theorem calmedAt_eq (grants : ∀ t, (ins t).mGntI = true → (dmaAt s₀ ins t).mReqO = true) {t : ℕ}
    (busy : ∀ u < t, Busy s₀ ins b u) : calmedAt s₀ ins job b t = pairAt s₀ ins t := by
  have actual : pairAt s₀ ins t =
      MacDma.after (MacDma.reset ⟨s₀.core0, s₀.dma⟩) (pairInputsAt s₀ ins) t :=
    Clocked.eq_run rfl (fun u => pairAt_succ (grants u)) t
  rw [actual]
  exact Clocked.run_congr fun u low => if_pos (busy u low)

end Calm

/-- The cycle in which core 0 enters its result stream, after a fill that ends in cycle `f`. -/
abbrev streamsAt (f : ℕ) (job : JobConfig) : ℕ := f + 1 + 2 + (job.m + job.n + job.n)

namespace JobRun

variable [DecidableEq Cell] {latency : ℕ} {inside : BitVec 32 → Prop} {cell : BitVec 32 → Cell}
variable {mem : ℕ → Cell → BitVec 32} {s₀ : MacSubsystem.State rows cols 8}
variable {ins : ℕ → MacSubsystem.Inputs} {weights activations : List (BitVec 32)}
variable {job : JobConfig} {b f : ℕ}
variable (run : JobRun latency inside cell mem s₀ ins weights activations job b)
variable (fill : Filled s₀ ins job b f)

include run

theorem grants (t : ℕ) : (ins t).mGntI = true → (dmaAt s₀ ins t).mReqO = true :=
  run.memory.served.grants t

theorem calmedAt_succ {t : ℕ} (busy : Busy s₀ ins b t) :
    calmedAt s₀ ins job b (t + 1) = pairAt s₀ ins (t + 1) :=
  calmedAt_eq job run.grants fun _ low => busy.earlier (Nat.le_of_lt_succ low)

include fill

theorem calmedAt_fill (t : ℕ) (upto : t ≤ f + 2) :
    calmedAt s₀ ins job b t = pairAt s₀ ins t :=
  calmedAt_eq job run.grants fun _ low => fill.busy (by omega)

/-- Behind the launch the inputs are quiet for good. -/
theorem calmed_quiet (t : ℕ) (late : f + 1 < t) :
    MacDma.Quiet job.n job.resBase (calmedInputs s₀ ins job b t) ∧
      (calmedInputs s₀ ins job b t).regMI = BitVec.ofNat 8 job.m := by
  have long := fill.long
  by_cases busy : Busy s₀ ins b t
  · obtain ⟨noStart, config⟩ := run.held t (by omega) busy
    have noLaunch : launchAt s₀ ins t = false :=
      eq_false_of_ne_true ((run.launch_iff fill (by omega) busy).not.mpr late.ne')
    rw [calmedInputs, if_pos busy]
    exact ⟨⟨noStart, rfl, noLaunch, config.dimN, config.resBase⟩, config.dimM⟩
  · rw [calmedInputs, if_neg busy]
    exact ⟨⟨rfl, rfl, rfl, rfl, rfl⟩, rfl⟩

/-- In the cycle of the launch only the launch stirs. -/
theorem calmed_launch :
    (calmedInputs s₀ ins job b (f + 1)).startI = false ∧
      (calmedInputs s₀ ins job b (f + 1)).abortI = false ∧
      (calmedInputs s₀ ins job b (f + 1)).coreStartI = true := by
  have long := fill.long
  have busy := fill.busy (le_refl (f + 1))
  rw [calmedInputs, if_pos busy]
  exact ⟨run.noStart (by omega) busy, rfl, run.launch fill⟩

/-- The engine fills no more, and the operand streams are silent. -/
theorem calmed_past (t : ℕ) (late : f + 1 ≤ t) :
    (calmedAt s₀ ins job b t).dma.state.fills = false ∧
      ∀ ch : Channel, ch.beat (calmedAt s₀ ins job b t).dma = none := by
  refine Clocked.invariant_from (P := fun _ (s : MacDma.State rows cols 8) =>
    s.dma.state.fills = false ∧ ∀ ch : Channel, ch.beat s.dma = none) ?_ ?_ t late
  · show (calmedAt s₀ ins job b (f + 1)).dma.state.fills = false ∧
      ∀ ch : Channel, ch.beat (calmedAt s₀ ins job b (f + 1)).dma = none
    rw [run.calmedAt_fill fill (f + 1) (by omega)]
    refine ⟨?_, fun ch => run.steady.silent_of_done fill.spans (fill.done ch)⟩
    show (dmaAt s₀ ins (f + 1)).state.fills = false
    rw [fill.phase]
    rfl
  · intro u low at_
    rcases Nat.eq_or_lt_of_le low with rfl | later
    · obtain ⟨noStart, noAbort, -⟩ := run.calmed_launch fill
      exact AxiStreamDma.step_past at_.1 noAbort noStart
    · obtain ⟨quiet, -⟩ := run.calmed_quiet fill u later
      exact AxiStreamDma.step_past at_.1 quiet.noAbort quiet.noStart

/-! ## The core's part -/

/-- Core 0 takes the job with the launch. -/
theorem scheduled :
    MacCoreAxi.Scheduled s₀.core0 (calmedCoreInputs s₀ ins job b) (f + 1) job.m job.n := by
  have fits := run.fits
  have long := fill.long
  exact {
    idle := by
      rw [← calmedAt_core, run.calmedAt_fill fill (f + 1) (by omega)]
      exact run.core_idle fill (f + 1) (by omega) (le_refl _)
    launch := (run.calmed_launch fill).2.2
    m_pos := fits.m_pos
    m_lt := fits.m_lt
    n_pos := fits.n_pos
    n_lt := fits.n_lt
    dims := fun t low _ => by
      obtain ⟨quiet, dimM⟩ := run.calmed_quiet fill t low
      exact ⟨dimM, quiet.dim⟩ }

/-- It finds an array at rest. -/
theorem jobAt (settled : Settled s₀ ins b) :
    MacCoreAxi.JobAt s₀.core0 (calmedCoreInputs s₀ ins job b) (f + 1) job.m job.n := by
  have long := fill.long
  have scheduled := run.scheduled fill
  exact {
    idle := scheduled.idle
    launch := scheduled.launch
    m_pos := scheduled.m_pos
    m_lt := scheduled.m_lt
    n_pos := scheduled.n_pos
    n_lt := scheduled.n_lt
    n_le := run.fits.n_le
    dims := scheduled.dims
    still := fun t low _ => by
      obtain ⟨-, silent⟩ := run.calmed_past fill t low
      have wgt := silent .wgt
      have act := silent .act
      simp only [Channel.beat, ite_eq_right_iff, reduceCtorEq, imp_false,
        Bool.not_eq_true] at wgt act
      exact ⟨wgt, act⟩
    settled := fun t before recent => by
      rw [← calmedAt_core, run.calmedAt_fill fill t (by omega)]
      exact settled (f + 1) (by omega) (fill.busy (le_refl _)) (run.launch fill) t before recent }

/-- Until then the engine waits. -/
theorem calmed_waiting : ∀ t, f + 1 ≤ t → t ≤ streamsAt f job →
    EngineWaits (calmedAt s₀ ins job b t).dma := by
  have streams : streamsAt f job = f + 1 + 2 + (job.m + job.n + job.n) := rfl
  have long := fill.long
  refine Clocked.invariant_between
    (P := fun _ (s : MacDma.State rows cols 8) => EngineWaits s.dma) ?_ ?_
  · show EngineWaits (calmedAt s₀ ins job b (f + 1)).dma
    rw [run.calmedAt_fill fill (f + 1) (by omega)]
    exact ⟨fill.phase, fill.down, fill.notReady⟩
  · intro t low high at_
    obtain ⟨u, rfl⟩ : ∃ u, t = u + 1 := ⟨t - 1, by omega⟩
    have notStreaming : (MacCoreAxi.after s₀.core0 (calmedCoreInputs s₀ ins job b) u).state ≠
        .streamOut := by
      rcases Nat.lt_or_ge u (f + 1) with early | late
      · have idle : (pairAt s₀ ins u).core.state = .idle :=
          run.core_idle fill u (by omega) (by omega)
        rw [← calmedAt_core, run.calmedAt_fill fill u (by omega), idle]
        decide
      · exact (run.scheduled fill).not_streaming u late (by omega)
    have silent : (calmedAt s₀ ins job b (u + 1)).core.mAxisResTvalid = false := by
      rw [calmedAt_core, MacCoreAxi.after_succ, MacCoreAxi.step_tvalid]
      exact decide_eq_false notStreaming
    have noAbort : (calmedInputs s₀ ins job b (u + 1)).abortI = false := by
      rcases Nat.eq_or_lt_of_le low with launch | later
      · rw [← launch]
        exact (run.calmed_launch fill).2.1
      · exact (run.calmed_quiet fill (u + 1) later).1.noAbort
    exact at_.step noAbort silent

/-- **The drain of the job**, from the cycle in which core 0 enters its stream. -/
theorem drain : MacDma.Drain (calmedAt s₀ ins job b (streamsAt f job))
    (fun u => calmedInputs s₀ ins job b (streamsAt f job + u)) job.n job.resBase := by
  have fits := run.fits
  have streams : streamsAt f job = f + 1 + 2 + (job.m + job.n + job.n) := rfl
  have waits := run.calmed_waiting fill (streamsAt f job) (by omega) (le_refl _)
  obtain ⟨streaming, count, silent, -⟩ := (run.scheduled fill).streamOut_phase
  rw [← calmedAt_core] at streaming count silent
  exact {
    pos := fits.n_pos
    fits := fits.n_le
    small := fits.n_lt
    start := {
      core := ⟨streaming.trans (if_pos fits.n_pos).symm, fun _ => count, rfl⟩
      silent := silent
      phase := waits.phase
      notReady := waits.notReady
      noRequest := waits.down }
    quiet := fun u => (run.calmed_quiet fill _ (by omega)).1 }

/-- In an array at rest the result words of the job are what the drain writes. -/
theorem resWord_eq (settled : Settled s₀ ins b) {k : ℕ} (within : k < job.n) :
    MacDma.resWord (calmedAt s₀ ins job b (streamsAt f job)).core.resBuf k =
      (Ledger.fetch cell ⟨mem (b + 1), weights, activations⟩ job).result rows cols job k := by
  have inside : k < cols := Nat.lt_of_lt_of_le within run.fits.n_le
  obtain ⟨wgt, act⟩ := run.operands fill
  have column := (run.jobAt fill settled).resBuf_eq ⟨k, inside⟩ within
  rw [← calmedAt_core, ← calmedAt_core, run.calmedAt_fill fill (f + 1) (by omega)] at column
  have core : (pairAt s₀ ins (f + 1)).core =
      MacCoreAxi.after s₀.core0 (coreInputsAt s₀ ins) (f + 1) := coreAt_eq s₀ ins (f + 1)
  rw [MacDma.resWord, dif_pos inside, column, Ledger.result, dif_pos inside, core, Ledger.sum]
  congr 2
  · funext r c
    rw [MacCoreAxi.wgtBuf_eq, wgt]
    rfl
  · funext r
    rw [MacCoreAxi.actBuf_eq, act]
    rfl

end JobRun

end MiniMac.System
