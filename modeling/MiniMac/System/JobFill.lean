/-
# System.JobFill -- a job of the accelerator, from its start to the launch

The whole accelerator over a memory that answers reads after a fixed latency and
takes a write in its first cycle.  While a job is under way its registers are held
and no start pulse comes; what happens between jobs is left open.  The start opens
the fill, the fill ends with the operands behind those of the earlier jobs, and its
last cycle launches core 0, once.
-/
import MiniMac.Accel.FillStreams
import MiniMac.Accel.MacSubsystem
import MiniMac.Accel.JobTermination
import MiniMac.System.JobLedger

namespace MiniMac.System

open MiniMac.Theory MiniMac.Accel
open MiniMac.Accel.AxiStreamDma (Channel Served Filling readTaken)

set_option autoImplicit false

variable {rows cols : ℕ} {Cell : Type}

/-! ## The parts of a run -/

section Parts

variable (s₀ : MacSubsystem.State rows cols 8) (ins : ℕ → MacSubsystem.Inputs)

def dmaAt (t : ℕ) : AxiStreamDma.State := (MacSubsystem.after s₀ ins t).dma

def dmaInputsAt (t : ℕ) : AxiStreamDma.Inputs :=
  MacSubsystem.dmaInputs (MacSubsystem.after s₀ ins t) (ins t)

def regsAt (t : ℕ) : MacCfgRegs.State := (MacSubsystem.after s₀ ins t).multicore.regs

def regsInputsAt (t : ℕ) : MacCfgRegs.Inputs :=
  MacMulticore.regsInputs (MacSubsystem.after s₀ ins t).multicore
    (MacSubsystem.multicoreInputs (MacSubsystem.after s₀ ins t) (ins t))

def coreAt (t : ℕ) : MacCoreAxi.State rows cols 8 := (MacSubsystem.after s₀ ins t).core0

def launchAt (t : ℕ) : Bool := MacSubsystem.coreStart0 (MacSubsystem.after s₀ ins t) (ins t)

def coreInputsAt (t : ℕ) : MacCoreAxi.Inputs :=
  MacSubsystem.coreInputs (MacSubsystem.after s₀ ins t) (ins t) (launchAt s₀ ins t)
    (dmaAt s₀ ins t).sAxisResTready

/-- Core 0 in the accelerator runs as a core on its own. -/
theorem coreAt_eq (t : ℕ) :
    coreAt s₀ ins t = MacCoreAxi.after s₀.core0 (coreInputsAt s₀ ins) t :=
  Clocked.eq_run (x := coreAt s₀ ins) rfl (fun _ => rfl) t

/-- The inputs of a job launch the enabled cores. -/
def coreLaunchAt (t : ℕ) : Bool :=
  MacMulticore.coreLaunch (MacSubsystem.after s₀ ins t).multicore
    (MacSubsystem.multicoreInputs (MacSubsystem.after s₀ ins t) (ins t))

theorem coreLaunchAt_eq (t : ℕ) : coreLaunchAt s₀ ins t =
    ((dmaAt s₀ ins t).wgtDoneO && (dmaAt s₀ ins t).actDoneO &&
      !(MacSubsystem.after s₀ ins t).multicore.coreLaunchedR && !(regsAt s₀ ins t).startO) := rfl

theorem launchAt_eq (t : ℕ) : launchAt s₀ ins t =
    (coreLaunchAt s₀ ins t && (regsAt s₀ ins t).coreEnO.getLsbD 0 &&
      !(MacSubsystem.after s₀ ins t).multicore.coreDoneR.getLsbD 0) := rfl

/-- Core 0 is launched with the others or not at all. -/
theorem launchAt_none {t : ℕ} (none : coreLaunchAt s₀ ins t = false) :
    launchAt s₀ ins t = false := by
  rw [launchAt_eq, none]
  rfl

theorem coreLaunchedR_succ (t : ℕ) : (MacSubsystem.after s₀ ins (t + 1)).multicore.coreLaunchedR =
    if (regsAt s₀ ins t).startO then false
    else if (dmaAt s₀ ins t).wgtDoneO && (dmaAt s₀ ins t).actDoneO &&
        !(MacSubsystem.after s₀ ins t).multicore.coreLaunchedR then true
    else (MacSubsystem.after s₀ ins t).multicore.coreLaunchedR := rfl

/-- The done pulses side by side. -/
theorem done_bits : ∀ a b c d : Bool,
    let done := BitVec.ofBool d ++ BitVec.ofBool c ++ BitVec.ofBool b ++ BitVec.ofBool a
    done.getLsbD 0 = a ∧ done.getLsbD 1 = b ∧ done.getLsbD 2 = c ∧ done.getLsbD 3 = d := by
  decide

/-- A write the memory takes. -/
def memWriteAt (t : ℕ) : Option (BitVec 32 × BitVec 32) :=
  if (dmaAt s₀ ins t).mReqO && (ins t).mGntI && (dmaAt s₀ ins t).mWeO then
    some ((dmaAt s₀ ins t).mAddrO, (dmaAt s₀ ins t).mWdataO)
  else none

/-- A write as a memory of cells performs it. -/
def storeAt (cell : BitVec 32 → Cell) (w : BitVec 32 × BitVec 32) : Write Cell (BitVec 32) :=
  Write.store (cell w.1) w.2

/-- The accelerator runs on a memory, which holds `mem t` in cycle `t`.  At the addresses
inside it answers a granted read with what it held at the grant, grants what keeps being asked
for, and, while the engine is at work, takes a write at once and no writes but the engine's. -/
structure OnMemory [DecidableEq Cell] (latency : ℕ) (inside : BitVec 32 → Prop)
    (cell : BitVec 32 → Cell) (mem : ℕ → Cell → BitVec 32) : Prop where
  served : Served latency (dmaAt s₀ ins) (dmaInputsAt s₀ ins)
  granted : ∀ t, (∀ u, t ≤ u → (dmaAt s₀ ins u).mReqO = true ∧ inside (dmaAt s₀ ins u).mAddrO) →
    ∃ u, t ≤ u ∧ (ins u).mGntI = true
  contents : ∀ g, readTaken (dmaAt s₀ ins g) (dmaInputsAt s₀ ins g) = true →
    inside (dmaAt s₀ ins g).mAddrO →
    (ins (g + latency)).mRdataI = mem g (cell (dmaAt s₀ ins g).mAddrO)
  prompt : ∀ t, (dmaAt s₀ ins t).state ≠ .idle → (dmaAt s₀ ins t).mReqO = true →
    (dmaAt s₀ ins t).mWeO = true → inside (dmaAt s₀ ins t).mAddrO → (ins t).mGntI = true
  stores : ∀ t, (dmaAt s₀ ins t).state ≠ .idle →
    (∀ w, memWriteAt s₀ ins t = some w → inside w.1) →
    mem (t + 1) = replay (mem t) ((memWriteAt s₀ ins t).map (storeAt cell)).toList

/-- Between two jobs: the engine and core 0 are idle, and these operands have come in. -/
structure Rest (weights activations : List (BitVec 32)) (t : ℕ) : Prop where
  engine : (dmaAt s₀ ins t).state = .idle
  core : (coreAt s₀ ins t).state = .idle
  silent : ∀ ch : Channel, ch.beat (dmaAt s₀ ins t) = none
  /-- Inputs that are in have launched the cores. -/
  launched : (dmaAt s₀ ins t).wgtDoneO = true → (dmaAt s₀ ins t).actDoneO = true →
    (MacSubsystem.after s₀ ins t).multicore.coreLaunchedR = true
  weights : MacCoreAxi.wgtBeats (coreInputsAt s₀ ins) t = weights
  activations : MacCoreAxi.actBeats (coreInputsAt s₀ ins) t = activations

/-- The accelerator rests after reset. -/
theorem rest_reset : Rest s₀ ins [] [] 0 where
  engine := rfl
  core := rfl
  silent ch := by cases ch <;> rfl
  launched up := by cases up
  weights := rfl
  activations := rfl

end Parts

/-! ## One job -/

/-- The registers ask for the job, and core 0 is enabled. -/
structure Configured (job : JobConfig) (regs : MacCfgRegs.State) : Prop where
  wgtBase : regs.wgtBaseO = job.wgtBase
  actBase : regs.actBaseO = job.actBase
  resBase : regs.resBaseO = job.resBase
  lenWgt : regs.dmaLenWgtO = BitVec.ofNat 32 (4 * job.wgtWords)
  lenAct : regs.dmaLenActO = BitVec.ofNat 32 (4 * job.actWords)
  dimM : regs.dimMO = BitVec.ofNat 8 job.m
  dimN : regs.dimNO = BitVec.ofNat 8 job.n
  enabled : regs.coreEnO.getLsbD 0 = true

/-- What a job may ask for. -/
structure JobConfig.Fits (cols : ℕ) (inside : BitVec 32 → Prop) (job : JobConfig) : Prop where
  wgtWords : job.wgtWords < 2 ^ 30
  actWords : job.actWords < 2 ^ 30
  m_pos : 0 < job.m
  m_lt : job.m < 256
  n_pos : 0 < job.n
  n_lt : job.n < 256
  n_le : job.n ≤ cols
  wgtInside : ∀ k < job.wgtWords, inside (wordAddr job.wgtBase k)
  actInside : ∀ k < job.actWords, inside (wordAddr job.actBase k)
  resInside : ∀ k < job.n, inside (wordAddr job.resBase k)

/-- The ranges of a job as the stream engine knows them. -/
def JobConfig.ranges (job : JobConfig) : AxiStreamDma.Job where
  base
    | .wgt => job.wgtBase
    | .act => job.actBase
  len
    | .wgt => BitVec.ofNat 32 (4 * job.wgtWords)
    | .act => BitVec.ofNat 32 (4 * job.actWords)

/-- From the start in cycle `b` up to cycle `t` the engine is at work. -/
def Busy (s₀ : MacSubsystem.State rows cols 8) (ins : ℕ → MacSubsystem.Inputs) (b t : ℕ) : Prop :=
  ∀ u, b < u → u ≤ t → (dmaAt s₀ ins u).state ≠ .idle

/-- When the job that started in cycle `b` is launched, the rows of the job before have left the
array: core 0 has not fed it for a cycle a row. -/
def Settled (s₀ : MacSubsystem.State rows cols 8) (ins : ℕ → MacSubsystem.Inputs) (b : ℕ) : Prop :=
  ∀ l, b ≤ l → Busy s₀ ins b l → launchAt s₀ ins l = true →
    ∀ t < l, l + 2 ≤ t + rows → (coreAt s₀ ins t).state ≠ .feed

/-- A job is started in cycle `b` at rest; until the engine is idle again its registers
are held and no start pulse comes. -/
structure JobRun [DecidableEq Cell] (latency : ℕ) (inside : BitVec 32 → Prop)
    (cell : BitVec 32 → Cell) (mem : ℕ → Cell → BitVec 32) (s₀ : MacSubsystem.State rows cols 8)
    (ins : ℕ → MacSubsystem.Inputs) (weights activations : List (BitVec 32)) (job : JobConfig)
    (b : ℕ) : Prop where
  memory : OnMemory s₀ ins latency inside cell mem
  fits : job.Fits cols inside
  rest : Rest s₀ ins weights activations b
  start : (regsAt s₀ ins b).startO = true
  config : Configured job (regsAt s₀ ins b)
  held : ∀ t, b < t → Busy s₀ ins b t →
    (regsAt s₀ ins t).startO = false ∧ Configured job (regsAt s₀ ins t)

/-- The fill of the job that started in cycle `b` ends in cycle `f`: in the cycle after it
both done flags are up, and the engine waits for results. -/
structure Filled (s₀ : MacSubsystem.State rows cols 8) (ins : ℕ → MacSubsystem.Inputs)
    (job : JobConfig) (b f : ℕ) : Prop where
  long : b + 2 + job.wgtWords + job.actWords ≤ f
  fills : ∀ u, b < u → u ≤ f → (dmaAt s₀ ins u).state.fills = true
  spans : job.ranges.Over (dmaAt s₀ ins) (dmaInputsAt s₀ ins) b (f + 1)
  notDone : ∀ u, b < u → u ≤ f → (dmaAt s₀ ins u).actDoneO = false
  done : ∀ ch : Channel, ch.done (dmaAt s₀ ins (f + 1)) = true
  phase : (dmaAt s₀ ins (f + 1)).state = .runArray
  down : (dmaAt s₀ ins (f + 1)).mReqO = false
  notReady : (dmaAt s₀ ins (f + 1)).sAxisResTready = false

theorem Filled.busy {s₀ : MacSubsystem.State rows cols 8} {ins : ℕ → MacSubsystem.Inputs}
    {job : JobConfig} {b f : ℕ} (fill : Filled s₀ ins job b f) {u : ℕ} (upto : u ≤ f + 1) :
    Busy s₀ ins b u := by
  intro v low high idle
  rcases Nat.lt_or_ge f v with last | filling
  · obtain rfl : v = f + 1 := by omega
    rw [fill.phase] at idle
    cases idle
  · have fills := fill.fills v low filling
    rw [idle] at fills
    cases fills

namespace JobRun

variable [DecidableEq Cell] {latency : ℕ} {inside : BitVec 32 → Prop} {cell : BitVec 32 → Cell}
variable {mem : ℕ → Cell → BitVec 32} {s₀ : MacSubsystem.State rows cols 8}
variable {ins : ℕ → MacSubsystem.Inputs} {weights activations : List (BitVec 32)}
variable {job : JobConfig} {b : ℕ}
variable (run : JobRun latency inside cell mem s₀ ins weights activations job b)

include run

/-! ## The fill -/

theorem steady : AxiStreamDma.Steady (dmaAt s₀ ins) (dmaInputsAt s₀ ins) :=
  run.memory.served.steady

theorem noStart {t : ℕ} (later : b < t) (busy : Busy s₀ ins b t) :
    (regsAt s₀ ins t).startO = false :=
  (run.held t later busy).1

theorem responds : AxiStreamDma.RespondsTo inside (dmaAt s₀ ins) (dmaInputsAt s₀ ins) where
  toSteady := run.steady
  grants := run.memory.served.grants
  granted := run.memory.granted
  answered g taken :=
    ⟨g + latency, Nat.lt_add_of_pos_right run.memory.served.positive,
      (run.memory.served.answers.delayed g).trans taken⟩

/-- The fill comes to its end. -/
theorem filled : ∃ f, Filled s₀ ins job b f := by
  have steady := run.steady
  have fits := run.fits
  have wgtWords : (BitVec.ofNat 32 (4 * job.wgtWords)).toNat = 4 * job.wgtWords := by
    rw [BitVec.toNat_ofNat, Nat.mod_eq_of_lt (by have := fits.wgtWords; omega)]
  have actWords : (BitVec.ofNat 32 (4 * job.actWords)).toNat = 4 * job.actWords := by
    rw [BitVec.toNat_ofNat, Nat.mod_eq_of_lt (by have := fits.actWords; omega)]
  obtain ⟨wgt, wgtFills, wgtDown⟩ := steady.wgt_opens run.rest.engine run.start
  have lenWgt : (dmaInputsAt s₀ ins b).dmaLenWgtI = BitVec.ofNat 32 (4 * job.wgtWords) :=
    run.config.lenWgt
  have wgtBase : (dmaInputsAt s₀ ins b).wgtBaseI = job.wgtBase := run.config.wgtBase
  rw [lenWgt, wgtBase] at wgt
  obtain ⟨e, wgtEnds⟩ := run.responds.endsAt wgt wgtFills wgtDown wgtWords fits.wgtInside
  have config (u : ℕ) (later : b < u) (filling : Filling (dmaAt s₀ ins) .wgt (b + 1) u) :
      Configured job (regsAt s₀ ins u) := by
    refine (run.held u later fun v low high => ?_).2
    rcases filling v low high with phase | phase <;> rw [phase] <;> decide
  obtain ⟨act, actFills, actDown⟩ := steady.act_opens wgtEnds.phase wgtEnds.none
  have lenAct : (dmaInputsAt s₀ ins e).dmaLenActI = BitVec.ofNat 32 (4 * job.actWords) :=
    (config e wgtEnds.later wgtEnds.filling).lenAct
  have actBase : (dmaInputsAt s₀ ins e).actBaseI = job.actBase :=
    (config e wgtEnds.later wgtEnds.filling).actBase
  rw [lenAct, actBase] at act
  obtain ⟨f, actEnds⟩ := run.responds.endsAt act actFills actDown actWords fits.actInside
  have behind := wgtEnds.later
  have last := actEnds.later
  have fills (u : ℕ) (later : b < u) (upto : u ≤ f) : (dmaAt s₀ ins u).state.fills = true := by
    rcases AxiStreamDma.fills_until wgtEnds actEnds upto with filling | phase | phase
    · rcases filling u later (le_refl u) with phase | phase <;> simp [phase]
    · rw [phase]
      rfl
    · rw [phase]
      rfl
  have own (u : ℕ) (later : b < u) (before : u < f + 1)
      (phase : (dmaAt s₀ ins u).state = .fillWgt) : Configured job (regsAt s₀ ins u) :=
    config u later (AxiStreamDma.fills_weights wgtEnds actEnds before phase)
  have spans : job.ranges.Over (dmaAt s₀ ins) (dmaInputsAt s₀ ins) b (f + 1) := {
    later := by omega
    idle := run.rest.engine
    start := run.start
    wgtBase := run.config.wgtBase
    lenWgt := lenWgt
    actBase := fun u later before phase _ => (own u later before phase).actBase
    lenAct := fun u later before phase _ => (own u later before phase).lenAct
    noStart := fun u later before idle => by
      have busy := fills u later (Nat.le_of_lt_succ before)
      rw [idle] at busy
      cases busy }
  have ends := (steady.next f).trans
    (AxiStreamDma.step_actDone (steady.noAbort f) actEnds.phase actEnds.none)
  have wgtLong : job.wgtWords ≤ e - (b + 1) := by
    have count := wgtEnds.beats
    have most := Clocked.window_length_le (fun u => Channel.wgt.beat (dmaAt s₀ ins u))
      (b + 1 + 1) (e - (b + 1))
    rw [wgtWords] at count
    simp only [AxiStreamDma.beats] at count
    omega
  have actLong : job.actWords ≤ f - (e + 1) := by
    have count := actEnds.beats
    have most := Clocked.window_length_le (fun u => Channel.act.beat (dmaAt s₀ ins u))
      (e + 1 + 1) (f - (e + 1))
    rw [actWords] at count
    simp only [AxiStreamDma.beats] at count
    omega
  refine ⟨f, ⟨by omega, fills, spans, ?_, steady.flags_up wgtEnds actEnds, ?_, ?_, ?_⟩⟩
  · intro u later upto
    have busy := fills u later upto
    cases steady.job_stage (spans.earlier later (by omega)) with
    | wgt loop notDone silent => exact notDone .act
    | act loop notDone whole => exact notDone
    | past phase whole => exact absurd (phase.symm.trans busy) Bool.false_ne_true
  · rw [ends]
  · rw [ends]
    rfl
  · rw [ends]
    rfl

/-! ## What the fill brings in -/

variable {f : ℕ} (fill : Filled s₀ ins job b f)

include fill

/-- The fill writes nothing. -/
theorem memWrite_fill (u : ℕ) (later : b < u) (upto : u ≤ f + 1) : memWriteAt s₀ ins u = none := by
  have steady := run.steady
  obtain ⟨v, rfl⟩ : ∃ v, u = v + 1 := ⟨u - 1, by omega⟩
  have reads : (dmaAt s₀ ins (v + 1)).mReqO = true → (dmaAt s₀ ins (v + 1)).mWeO = false := by
    rcases Nat.eq_or_lt_of_le (Nat.le_of_lt_succ later) with rfl | past
    · rw [steady.next, AxiStreamDma.step_start (steady.noAbort b) run.rest.engine run.start]
      exact fun up => absurd up (by simp [AxiStreamDma.defaults])
    · rw [steady.next]
      exact AxiStreamDma.step_reads (steady.noAbort v) (fill.fills v past (by omega))
  cases up : (dmaAt s₀ ins (v + 1)).mReqO with
  | false => simp [memWriteAt, up]
  | true => simp [memWriteAt, up, reads up]

/-- So memory stays as it is. -/
theorem mem_fill (u : ℕ) (later : b < u) (upto : u ≤ f + 1) : mem u = mem (b + 1) := by
  induction u, later using Nat.le_induction with
  | base => rfl
  | succ u later ih =>
      have none := run.memWrite_fill fill u later (by omega)
      have busy : (dmaAt s₀ ins u).state ≠ .idle := by
        intro idle
        have fills := fill.fills u later (by omega)
        rw [idle] at fills
        cases fills
      rw [run.memory.stores u busy (by simp [none]), none, ← ih (by omega)]
      rfl

/-- A channel streams the words of its range as they were at the start. -/
theorem streamed (ch : Channel) {n : ℕ} (len : (job.ranges.len ch).toNat = 4 * n)
    (within : ∀ k < n, inside (wordAddr (job.ranges.base ch) k)) :
    AxiStreamDma.beats (dmaAt s₀ ins) ch b (f + 1) =
      wordsFrom cell (mem (b + 1)) (job.ranges.base ch) n := by
  have served := run.memory.served
  have count := (run.steady.job_stage fill.spans).whole_of_done ch (fill.done ch)
  rw [len] at count
  apply List.ext_getElem
  · rw [wordsFrom_length]
    omega
  · intro k low high
    rw [wordsFrom_length] at high
    obtain ⟨t, after, before, beat, position⟩ :=
      Clocked.window_position (List.getElem?_eq_getElem low)
    obtain ⟨v, rfl⟩ : ∃ v, t = v + 1 := ⟨t - 1, by omega⟩
    rw [Nat.add_sub_add_right] at position
    have later : b < v := by
      rcases Nat.eq_or_lt_of_le (Nat.le_of_succ_le_succ after) with rfl | later
      · -- the start is followed by no beat
        have silent : ch.beat (dmaAt s₀ ins (b + 1)) = none :=
          run.steady.silent (run.rest.engine ▸ AxiStreamDma.Channel.idle_ne_wait)
        exact absurd (silent.symm.trans beat) (by simp)
      · exact later
    obtain ⟨g, answer, own, -, taken, place, data⟩ :=
      served.beat_fetched (fill.spans.earlier later (by omega)) beat
    have place' : (dmaAt s₀ ins g).mAddrO = wordAddr (job.ranges.base ch) k := by
      rw [place, AxiStreamDma.beats, position]
    have word := run.memory.contents g taken (by rw [place']; exact within k high)
    simp only [wordsFrom, List.getElem_map, List.getElem_range]
    rw [← data, answer, ← run.mem_fill fill g own (by omega), ← place']
    exact word

/-- The operands of a job stand behind those of the earlier jobs. -/
theorem arrived (ch : Channel) :
    Clocked.window (fun u => ch.beat (dmaAt s₀ ins u)) 0 (f + 1) =
      Clocked.window (fun u => ch.beat (dmaAt s₀ ins u)) 0 b ++
        AxiStreamDma.beats (dmaAt s₀ ins) ch b (f + 1) := by
  have long := fill.long
  have last := run.steady.silent_of_done fill.spans (fill.done ch)
  have first := run.rest.silent ch
  rw [AxiStreamDma.beats_succ _ ch (by omega), last, AxiStreamDma.beats,
    show f + 1 = b + 1 + (f - b) by omega, Clocked.window_add, Clocked.window_add, Nat.zero_add,
    Nat.zero_add, Option.toList_none, List.append_nil]
  simp [Clocked.window, first]

/-- What core 0 has seen when the fill is over. -/
theorem operands :
    MacCoreAxi.wgtBeats (coreInputsAt s₀ ins) (f + 1) =
        weights ++ wordsFrom cell (mem (b + 1)) job.wgtBase job.wgtWords ∧
      MacCoreAxi.actBeats (coreInputsAt s₀ ins) (f + 1) =
        activations ++ wordsFrom cell (mem (b + 1)) job.actBase job.actWords := by
  have fits := run.fits
  have wgt := run.streamed fill .wgt (n := job.wgtWords) ?_ fits.wgtInside
  have act := run.streamed fill .act (n := job.actWords) ?_ fits.actInside
  · constructor
    · rw [← run.rest.weights]
      exact (run.arrived fill .wgt).trans (congrArg _ wgt)
    · rw [← run.rest.activations]
      exact (run.arrived fill .act).trans (congrArg _ act)
  · exact (BitVec.toNat_ofNat ..).trans (Nat.mod_eq_of_lt (by have := fits.actWords; omega))
  · exact (BitVec.toNat_ofNat ..).trans (Nat.mod_eq_of_lt (by have := fits.wgtWords; omega))

/-! ## The launch -/

/-- Nothing is launched before the inputs are in. -/
theorem notLaunched (u : ℕ) (later : b < u) (upto : u ≤ f + 1) :
    (MacSubsystem.after s₀ ins u).multicore.coreLaunchedR = false := by
  induction u, later using Nat.le_induction with
  | base => rw [Nat.succ_eq_add_one, coreLaunchedR_succ, run.start, if_pos rfl]
  | succ u later ih =>
      rw [coreLaunchedR_succ, run.noStart later (fill.busy (by omega)),
        fill.notDone u later (by omega), ih (by omega)]
      simp

theorem noLaunch (u : ℕ) (from_ : b ≤ u) (upto : u ≤ f) : coreLaunchAt s₀ ins u = false := by
  rw [coreLaunchAt_eq]
  rcases Nat.eq_or_lt_of_le from_ with rfl | later
  · simp [run.start]
  · simp [fill.notDone u later upto]

/-- Core 0 waits for the launch. -/
theorem core_idle (u : ℕ) (from_ : b ≤ u) (upto : u ≤ f + 1) : (coreAt s₀ ins u).state = .idle := by
  rw [coreAt_eq]
  refine MacCoreAxi.idle_until s₀.core0 (coreInputsAt s₀ ins) (a := b) (b := f + 1) ?_ ?_ u from_
    upto
  · rw [← coreAt_eq]
    exact run.rest.core
  · intro v low high
    exact launchAt_none s₀ ins (run.noLaunch fill v low (Nat.le_of_lt_succ high))

/-- The launch comes with the inputs. -/
theorem coreLaunch : coreLaunchAt s₀ ins (f + 1) = true := by
  have long := fill.long
  have wgt : (dmaAt s₀ ins (f + 1)).wgtDoneO = true := fill.done .wgt
  have act : (dmaAt s₀ ins (f + 1)).actDoneO = true := fill.done .act
  rw [coreLaunchAt_eq, wgt, act, run.notLaunched fill _ (by omega) (le_refl _),
    run.noStart (by omega) (fill.busy (le_refl _))]
  rfl

theorem launch : launchAt s₀ ins (f + 1) = true := by
  have long := fill.long
  obtain ⟨v, rfl⟩ : ∃ v, f = v + 1 := ⟨f - 1, by omega⟩
  have busy := fill.busy (le_refl (v + 1 + 1))
  have enabled := (run.held (v + 1 + 1) (by omega) busy).2.enabled
  -- core 0 was idle, so no done pulse of it is on record
  have silent : (coreAt s₀ ins (v + 1)).coreDoneO = false := by
    rw [coreAt_eq, MacCoreAxi.after_succ, MacCoreAxi.step_coreDoneO, ← coreAt_eq,
      if_pos (run.core_idle fill v (by omega) (by omega))]
  have record : (MacSubsystem.after s₀ ins (v + 1 + 1)).multicore.coreDoneR.getLsbD 0 = false := by
    have next : (MacSubsystem.after s₀ ins (v + 1 + 1)).multicore.coreDoneR =
        if (regsAt s₀ ins (v + 1)).startO then 0
        else (MacSubsystem.multicoreInputs (MacSubsystem.after s₀ ins (v + 1))
          (ins (v + 1))).coreDone := rfl
    have bit : (MacSubsystem.multicoreInputs (MacSubsystem.after s₀ ins (v + 1))
        (ins (v + 1))).coreDone.getLsbD 0 = (coreAt s₀ ins (v + 1)).coreDoneO :=
      (done_bits _ _ _ _).1
    rw [next]
    split
    · rfl
    · rw [bit, silent]
  rw [launchAt_eq, run.coreLaunch fill, enabled, record]
  rfl

/-- After it the launch is remembered. -/
theorem launched (t : ℕ) (late : f + 1 ≤ t) :
    Busy s₀ ins b t → (MacSubsystem.after s₀ ins (t + 1)).multicore.coreLaunchedR = true := by
  have long := fill.long
  have wgt : (dmaAt s₀ ins (f + 1)).wgtDoneO = true := fill.done .wgt
  have act : (dmaAt s₀ ins (f + 1)).actDoneO = true := fill.done .act
  induction t, late using Nat.le_induction with
  | base =>
      intro busy
      rw [coreLaunchedR_succ, run.noStart (by omega) busy, wgt, act,
        run.notLaunched fill _ (by omega) (le_refl _)]
      rfl
  | succ t late ih =>
      intro busy
      rw [coreLaunchedR_succ, run.noStart (by omega) busy,
        ih fun v low high => busy v low (by omega)]
      simp

/-- **The cores are launched once in a job**, in the cycle in which the inputs are in. -/
theorem coreLaunch_iff {t : ℕ} (from_ : b ≤ t) (busy : Busy s₀ ins b t) :
    coreLaunchAt s₀ ins t = true ↔ t = f + 1 := by
  constructor
  · intro launched
    rcases Nat.lt_trichotomy t (f + 1) with before | same | after
    · rw [run.noLaunch fill t from_ (Nat.le_of_lt_succ before)] at launched
      cases launched
    · exact same
    · obtain ⟨u, rfl⟩ : ∃ u, t = u + 1 := ⟨t - 1, by omega⟩
      rw [coreLaunchAt_eq, run.launched fill u (by omega) fun v low high => busy v low (by omega)]
        at launched
      simp at launched
  · rintro rfl
    exact run.coreLaunch fill

theorem launch_iff {t : ℕ} (from_ : b ≤ t) (busy : Busy s₀ ins b t) :
    launchAt s₀ ins t = true ↔ t = f + 1 := by
  constructor
  · intro launched
    rw [launchAt_eq, Bool.and_eq_true, Bool.and_eq_true] at launched
    exact (run.coreLaunch_iff fill from_ busy).mp launched.1.1
  · rintro rfl
    exact run.launch fill

end JobRun

end MiniMac.System
