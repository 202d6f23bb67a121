/-
# Accel.JobIsolation -- which register writes a running job sees

Two runs of the accelerator agree until a job has started and differ afterwards in
writes of the job's registers.  Some registers are copied at the start, others are
read later or in every cycle, and a second start pulse reopens the launch of the
cores, so a job is not isolated from such writes.  It is from those that leave every
value it reads as it was: `Unread` says, for one cycle, that no value that is read
in it differs, and `Alike` is what two such runs keep in common.
-/
import MiniMac.Accel.MacSubsystem
import Mathlib.Tactic.MkIffOfInductiveProp

namespace MiniMac.Accel.MacSubsystem

open MiniMac.Theory

set_option autoImplicit false

variable {rows cols dataW : ℕ}

/-! ## Two runs of one job -/

/-- The registers of a job: CTRL, DIM, the three bases and the two lengths. -/
def jobRegister (offset : BitVec 8) : Bool :=
  [0x00#8, 0x08#8, 0x20#8, 0x24#8, 0x28#8, 0x2C#8, 0x30#8].contains offset

/-- No access of the configuration port, or a write of one of the job's registers. -/
def jobWriteOnly (i : Inputs) : Bool :=
  !(i.psel && i.penable && i.pwrite) || jobRegister (i.paddr.setWidth 8)

/-- The same cycle but for writes of the job's registers. -/
structure SameButWrites (i i' : Inputs) : Prop where
  gnt : i.mGntI = i'.mGntI
  rvalid : i.mRvalidI = i'.mRvalidI
  rdata : i.mRdataI = i'.mRdataI
  unknown : i.unknown = i'.unknown
  writes : i = i' ∨ jobWriteOnly i = true ∧ jobWriteOnly i' = true

/-- STATUS bit 0. -/
def statusBusy (s : State rows cols dataW) (i : Inputs) : Bool :=
  (MacMulticore.regsInputs s.multicore (multicoreInputs s i)).busyI

/-- What is seen of a job in a cycle: the request of the engine with its address and
data, the words it has read, and the core start pulses. -/
structure Observation where
  request : Option (BitVec 32 × Bool × BitVec 32)
  wgt : Option (BitVec 32)
  act : Option (BitVec 32)
  coreStart0 : Bool
  coreStart1 : Bool
  coreStart2 : Bool
  coreStart3 : Bool
  deriving DecidableEq

def observe (s : State rows cols dataW) (i : Inputs) : Observation where
  request :=
    if s.dma.mReqO then some (s.dma.mAddrO, s.dma.mWeO, s.dma.mWdataO) else none
  wgt := AxiStreamDma.Channel.beat s.dma .wgt
  act := AxiStreamDma.Channel.beat s.dma .act
  coreStart0 := coreStart0 s i
  coreStart1 := s.multicore.coreStart1D
  coreStart2 := s.multicore.coreStart2D2
  coreStart3 := s.multicore.coreStart3D

variable (s₀ : State rows cols dataW) (ins ins' : ℕ → Inputs)

/-- A job starts in cycle `a`, with core 0 enabled only, and STATUS is busy up to cycle
`e`; in these cycles the second run differs in writes of the job's registers, and before
them it does not differ. -/
structure Rewrites (a e : ℕ) : Prop where
  idle : (after s₀ ins a).dma.state = .idle
  start : (after s₀ ins a).multicore.regs.startO = true
  before : ∀ u ≤ a, ins u = ins' u
  busy : ∀ u, a < u → u < e → statusBusy (after s₀ ins u) (ins u) = true
  coreEn : ∀ u, a ≤ u → u < e → (after s₀ ins u).multicore.regs.coreEnO = 0b0001
  only : ∀ u, a < u → u < e → SameButWrites (ins u) (ins' u)

/-- The job looks the same in both runs. -/
def Isolated (a e : ℕ) : Prop :=
  ∀ u, a ≤ u → u < e →
    observe (after s₀ ins u) (ins u) = observe (after s₀ ins' u) (ins' u)

/-! ## What a cycle reads -/

/-- No register value that is read in a cycle differs. -/
@[mk_iff]
structure Unread (s s' : State rows cols dataW) : Prop where
  /-- A start pulse in one of the runs is lost on an engine in its fill phases, and on
  cores that are neither launched nor done. -/
  start : s.multicore.regs.startO ≠ s'.multicore.regs.startO →
    s.dma.state ≠ .idle ∧ (s.dma.wgtDoneO && s.dma.actDoneO) = false ∧
      s.core0.coreDoneO = false
  wgt : s.dma.state = .idle → s.multicore.regs.startO = true →
    s.multicore.regs.wgtBaseO = s'.multicore.regs.wgtBaseO ∧
      s.multicore.regs.dmaLenWgtO = s'.multicore.regs.dmaLenWgtO
  act : s.dma.state = .fillWgt → s.dma.bytesLeft = 0 →
    s.multicore.regs.actBaseO = s'.multicore.regs.actBaseO ∧
      s.multicore.regs.dmaLenActO = s'.multicore.regs.dmaLenActO
  res : s.dma.state = .runArray → s.core0.mAxisResTvalid = true →
    s.multicore.regs.resBaseO = s'.multicore.regs.resBaseO
  dimM : s.core0.state = .feed →
    MacCoreAxi.isLast s.core0.rCnt s.multicore.regs.dimMO =
      MacCoreAxi.isLast s.core0.rCnt s'.multicore.regs.dimMO
  drainN : s.core0.state = .drain →
    MacCoreAxi.isLast s.core0.cCnt s.multicore.regs.dimNO =
      MacCoreAxi.isLast s.core0.cCnt s'.multicore.regs.dimNO
  writeN : s.core0.state = .writeRes →
    MacCoreAxi.isLast s.core0.rCnt s.multicore.regs.dimNO =
      MacCoreAxi.isLast s.core0.rCnt s'.multicore.regs.dimNO
  streamN : s.core0.state = .streamOut → s.dma.sAxisResTready = true →
    MacCoreAxi.isLast s.core0.rCnt s.multicore.regs.dimNO =
      MacCoreAxi.isLast s.core0.rCnt s'.multicore.regs.dimNO

instance (s s' : State rows cols dataW) : Decidable (Unread s s') :=
  decidable_of_iff' _ (unread_iff s s')

/-! ## What the runs have in common -/

/-- Everything a job is made of but the register values. -/
structure Alike (s s' : State rows cols dataW) : Prop where
  dma : s.dma = s'.dma
  core0 : s.core0 = s'.core0
  coreEn : s.multicore.regs.coreEnO = s'.multicore.regs.coreEnO
  launched : s.multicore.coreLaunchedR = s'.multicore.coreLaunchedR
  done0 : s.multicore.coreDoneR.getLsbD 0 = s'.multicore.coreDoneR.getLsbD 0
  start1 : s.multicore.coreStart1D = s'.multicore.coreStart1D
  start2 : s.multicore.coreStart2D = s'.multicore.coreStart2D
  start2' : s.multicore.coreStart2D2 = s'.multicore.coreStart2D2
  start3 : s.multicore.coreStart3D = s'.multicore.coreStart3D

theorem Alike.refl (s : State rows cols dataW) : Alike s s :=
  ⟨rfl, rfl, rfl, rfl, rfl, rfl, rfl, rfl, rfl⟩

/-- The inputs of the job are in. -/
def inputsDone (s : State rows cols dataW) : Bool := s.dma.wgtDoneO && s.dma.actDoneO

/-- The cores are launched by inputs that are in. -/
def LaunchedByInputs (s : State rows cols dataW) : Prop :=
  s.multicore.coreLaunchedR = true → inputsDone s = true

section Steps

variable {s s' : State rows cols dataW} {i i' : Inputs}

/-- The inputs stay in until the next start. -/
theorem inputsDone_step (noStart : s.multicore.regs.startO = false) (inputs : inputsDone s = true) :
    inputsDone (step s i) = true := by
  obtain ⟨wgt, act⟩ := Bool.and_eq_true_iff.mp inputs
  exact Bool.and_eq_true_iff.mpr
    ⟨AxiStreamDma.step_wgtDoneO rfl noStart wgt, AxiStreamDma.step_actDoneO rfl noStart act⟩

theorem LaunchedByInputs.step (inv : LaunchedByInputs s) : LaunchedByInputs (step s i) := by
  intro launched
  have next : (MacSubsystem.step s i).multicore.coreLaunchedR =
      if s.multicore.regs.startO then false
      else if inputsDone s && !s.multicore.coreLaunchedR then true
      else s.multicore.coreLaunchedR := rfl
  cases start : s.multicore.regs.startO with
  | true =>
      rw [next, start] at launched
      cases launched
  | false =>
      apply inputsDone_step start
      cases inputs : inputsDone s with
      | true => rfl
      | false =>
          rw [next, start, inputs] at launched
          exact inputs.symm.trans (inv launched)

/-- Core 0 is launched in both runs or in neither. -/
theorem Alike.coreStart0 (alike : Alike s s') (unread : Unread s s') (i i' : Inputs) :
    MacSubsystem.coreStart0 s i = MacSubsystem.coreStart0 s' i' := by
  have wires (x : State rows cols dataW) (j : Inputs) : MacSubsystem.coreStart0 x j =
      (inputsDone x && !x.multicore.coreLaunchedR && !x.multicore.regs.startO &&
        x.multicore.regs.coreEnO.getLsbD 0 && !x.multicore.coreDoneR.getLsbD 0) := rfl
  have inputs : inputsDone s = inputsDone s' := by rw [inputsDone, inputsDone, alike.dma]
  rw [wires, wires, ← inputs, alike.launched, alike.coreEn, alike.done0]
  by_cases same : s.multicore.regs.startO = s'.multicore.regs.startO
  · rw [same]
  · have none : inputsDone s = false := (unread.start same).2.1
    rw [none]
    rfl

/-- With core 0 enabled only, the others are not launched. -/
theorem launches_disabled (coreEn : s.multicore.regs.coreEnO = 0b0001) {k : ℕ} (other : k ≠ 0) :
    MacMulticore.launches s.multicore (multicoreInputs s i) k = false := by
  have off : (0b0001#4).getLsbD k = false := by
    rw [show (0b0001#4) = BitVec.twoPow 4 0 from rfl, BitVec.getLsbD_twoPow]
    simp [Ne.symm other]
  have en : MacMulticore.coreEn s.multicore = 0b0001 := coreEn
  rw [MacMulticore.launches, en]
  simp [off]

/-- The stream engine reads nothing that differs. -/
theorem Alike.dma_step (alike : Alike s s') (unread : Unread s s') (same : SameButWrites i i') :
    (step s i).dma = (step s' i').dma := by
  have config := AxiStreamDma.step_config (s := s.dma) (i := dmaInputs s i)
    (fun differs => (unread.start differs).1) unread.wgt unread.act unread.res
  have inputs : dmaInputs s' i' =
      { dmaInputs s i with
        startI := s'.multicore.regs.startO
        wgtBaseI := s'.multicore.regs.wgtBaseO
        actBaseI := s'.multicore.regs.actBaseO
        resBaseI := s'.multicore.regs.resBaseO
        dmaLenWgtI := s'.multicore.regs.dmaLenWgtO
        dmaLenActI := s'.multicore.regs.dmaLenActO } := by
    simp only [dmaInputs, MacMulticore.globalStart, alike.core0, same.gnt, same.rvalid, same.rdata]
  change AxiStreamDma.step s.dma (dmaInputs s i) = AxiStreamDma.step s'.dma (dmaInputs s' i')
  rw [inputs, ← alike.dma]
  exact config.symm

/-- Neither does core 0. -/
theorem Alike.core0_step (alike : Alike s s') (unread : Unread s s') (same : SameButWrites i i') :
    (step s i).core0 = (step s' i').core0 := by
  have dims := MacCoreAxi.step_dims (s := s.core0)
    (i := coreInputs s i (MacSubsystem.coreStart0 s i) s.dma.sAxisResTready)
    unread.dimM unread.drainN unread.writeN unread.streamN
  have inputs : coreInputs s' i' (MacSubsystem.coreStart0 s' i') s'.dma.sAxisResTready =
      { coreInputs s i (MacSubsystem.coreStart0 s i) s.dma.sAxisResTready with
        regMI := s'.multicore.regs.dimMO
        regNI := s'.multicore.regs.dimNO } := by
    simp only [coreInputs, alike.dma, same.unknown, alike.coreStart0 unread i i']
  change MacCoreAxi.step s.core0
      (coreInputs s i (MacSubsystem.coreStart0 s i) s.dma.sAxisResTready) =
    MacCoreAxi.step s'.core0
      (coreInputs s' i' (MacSubsystem.coreStart0 s' i') s'.dma.sAxisResTready)
  rw [inputs, ← alike.core0]
  exact dims.symm

/-- A write of a job's register is not one of CORE_EN. -/
theorem coreEn_of_jobWriteOnly (only : jobWriteOnly i = true) :
    (step s i).multicore.regs.coreEnO = s.multicore.regs.coreEnO := by
  refine (MacCfgRegs.step_coreEnO _ _).trans (if_neg ?_)
  intro written
  obtain ⟨writes, offset⟩ := Bool.and_eq_true_iff.mp written
  have access : (i.psel && i.penable && i.pwrite) = true := writes
  have place : i.paddr.setWidth 8 = 0x10#8 := beq_iff_eq.mp offset
  rw [jobWriteOnly, access, place] at only
  revert only
  decide

theorem Alike.coreEn_step (alike : Alike s s') (same : SameButWrites i i') :
    (step s i).multicore.regs.coreEnO = (step s' i').multicore.regs.coreEnO := by
  rcases same.writes with rfl | ⟨only, only'⟩
  · refine (MacCfgRegs.step_coreEnO _ _).trans ((MacCfgRegs.step_coreEnO _ _).trans ?_).symm
    exact if_congr Iff.rfl rfl alike.coreEn.symm
  · rw [coreEn_of_jobWriteOnly only, coreEn_of_jobWriteOnly only', alike.coreEn]

/-- A start pulse in one run only finds cores that are not launched. -/
theorem Alike.launched_step (alike : Alike s s') (unread : Unread s s')
    (inv : LaunchedByInputs s) :
    (step s i).multicore.coreLaunchedR = (step s' i').multicore.coreLaunchedR := by
  have next (x : State rows cols dataW) (j : Inputs) :
      (MacSubsystem.step x j).multicore.coreLaunchedR =
        if x.multicore.regs.startO then false
        else if inputsDone x && !x.multicore.coreLaunchedR then true
        else x.multicore.coreLaunchedR := rfl
  have inputs : inputsDone s = inputsDone s' := by rw [inputsDone, inputsDone, alike.dma]
  rw [next, next, ← inputs, ← alike.launched]
  by_cases start : s.multicore.regs.startO = s'.multicore.regs.startO
  · rw [start]
  · have none : inputsDone s = false := (unread.start start).2.1
    have down : s.multicore.coreLaunchedR = false := by
      by_contra up
      exact absurd ((inv (by simpa using up)).symm.trans none) (by decide)
    rw [none, down]
    cases s.multicore.regs.startO <;> cases s'.multicore.regs.startO <;> rfl

/-- And a core 0 that is not done. -/
theorem Alike.done0_step (alike : Alike s s') (unread : Unread s s') :
    (step s i).multicore.coreDoneR.getLsbD 0 = (step s' i').multicore.coreDoneR.getLsbD 0 := by
  have next (x : State rows cols dataW) (j : Inputs) :
      (MacSubsystem.step x j).multicore.coreDoneR.getLsbD 0 =
        (!x.multicore.regs.startO && x.core0.coreDoneO) := by
    have whole : (MacSubsystem.step x j).multicore.coreDoneR =
        if x.multicore.regs.startO then 0 else (multicoreInputs x j).coreDone := rfl
    rw [whole]
    cases x.multicore.regs.startO with
    | true => simp
    | false =>
        refine BitVec.getLsbD_append.trans ?_
        cases x.core0.coreDoneO <;> rfl
  rw [next, next, ← alike.core0]
  by_cases start : s.multicore.regs.startO = s'.multicore.regs.startO
  · rw [start]
  · rw [(unread.start start).2.2, Bool.and_false, Bool.and_false]

/-- **One cycle**: runs that are alike and read nothing that differs stay alike. -/
theorem Alike.step (alike : Alike s s') (inv : LaunchedByInputs s)
    (coreEn : s.multicore.regs.coreEnO = 0b0001) (unread : Unread s s')
    (same : SameButWrites i i') : Alike (MacSubsystem.step s i) (MacSubsystem.step s' i') where
  dma := alike.dma_step unread same
  core0 := alike.core0_step unread same
  coreEn := alike.coreEn_step same
  launched := alike.launched_step unread inv
  done0 := alike.done0_step unread
  start1 := (launches_disabled coreEn (by decide)).trans
    (launches_disabled (alike.coreEn.symm.trans coreEn) (by decide)).symm
  start2 := (launches_disabled coreEn (by decide)).trans
    (launches_disabled (alike.coreEn.symm.trans coreEn) (by decide)).symm
  start2' := alike.start2
  start3 := (launches_disabled coreEn (by decide)).trans
    (launches_disabled (alike.coreEn.symm.trans coreEn) (by decide)).symm

/-- Runs that are alike look the same. -/
theorem Alike.observe (alike : Alike s s') (unread : Unread s s') :
    MacSubsystem.observe s i = MacSubsystem.observe s' i' := by
  simp only [MacSubsystem.observe, alike.dma, alike.start1, alike.start2', alike.start3,
    alike.coreStart0 unread i i']

end Steps

/-! ## Runs -/

section Runs

variable {s₀ ins ins'} {a e : ℕ}

theorem launchedByInputs (t : ℕ) : LaunchedByInputs (after s₀ ins t) :=
  Clocked.invariant (P := fun s : State rows cols dataW => LaunchedByInputs s)
    (fun launched => absurd launched Bool.false_ne_true) (fun _ _ inv => inv.step) t

/-- Until the job has started the runs are one. -/
theorem Rewrites.same_before (rewrites : Rewrites s₀ ins ins' a e) {u : ℕ} (upto : u ≤ a + 1) :
    after s₀ ins u = after s₀ ins' u :=
  Clocked.run_congr fun v earlier => rewrites.before v (by omega)

theorem Rewrites.alike (rewrites : Rewrites s₀ ins ins' a e)
    (unread : ∀ u, a < u → u < e → Unread (after s₀ ins u) (after s₀ ins' u)) {u : ℕ}
    (later : a + 1 ≤ u) : u ≤ e → Alike (after s₀ ins u) (after s₀ ins' u) := by
  induction u, later using Nat.le_induction with
  | base =>
      intro _
      rw [rewrites.same_before (le_refl _)]
      exact Alike.refl _
  | succ u later ih =>
      intro within
      exact (ih (by omega)).step (launchedByInputs u) (rewrites.coreEn u (by omega) (by omega))
        (unread u (by omega) (by omega)) (rewrites.only u (by omega) (by omega))

/-- **A job is isolated from writes of registers whose values it does not read.** -/
theorem job_isolated (s₀ : State rows cols dataW) (ins ins' : ℕ → Inputs) (a e : ℕ)
    (rewrites : Rewrites s₀ ins ins' a e)
    (unread : ∀ u, a < u → u < e → Unread (after s₀ ins u) (after s₀ ins' u)) :
    Isolated s₀ ins ins' a e := by
  intro u later within
  rcases Nat.lt_or_ge a u with running | start
  · exact (rewrites.alike unread running (by omega)).observe (unread u running within)
  · obtain rfl : u = a := by omega
    rw [rewrites.same_before (Nat.le_succ u), rewrites.before u (le_refl u)]

end Runs

/-! ## A write in the weight phase -/

def write (paddr pwdata : BitVec 32) (i : Inputs) : Inputs :=
  { i with
    paddr := paddr
    psel := true
    penable := true
    pwrite := true
    pwdata := pwdata }

/-- Nothing on the configuration port; the read granted in cycle 11 is answered in
cycle 13. -/
def memorySide (t : ℕ) : Inputs where
  paddr := 0
  psel := false
  penable := false
  pwrite := false
  pwdata := 0
  mGntI := decide (t = 11)
  mRvalidI := decide (t = 13)
  mRdataI := 0
  unknown := 0

/-- CORE_EN is set to core 0 and DMA_LEN_WGT to one word, and a job is started. -/
def oneWeight (t : ℕ) : Inputs :=
  if t = 2 then write 0x10 1 (memorySide t)
  else if t = 5 then write 0x2C 4 (memorySide t)
  else if t = 8 then write 0x00 1 (memorySide t)
  else memorySide t

/-- The same with one more write while the weight is read. -/
def rewritten (paddr pwdata : BitVec 32) (t : ℕ) : Inputs :=
  if t = 11 then write paddr pwdata (memorySide t) else oneWeight t

/-- An accelerator whose registers are all zero. -/
def powerUp : State 32 32 8 where
  multicore := MacMulticore.reset
  core0 := zeroCore
  core1 := zeroCore
  core2 := zeroCore
  core3 := zeroCore
  dma := {
    busyO := false
    wgtDoneO := false
    actDoneO := false
    resDoneO := false
    mReqO := false
    mAddrO := 0
    mWeO := false
    mWdataO := 0
    mAxisWgtTdata := 0
    mAxisWgtTvalid := false
    mAxisActTdata := 0
    mAxisActTvalid := false
    sAxisResTready := false
    state := .idle
    currAddr := 0
    bytesLeft := 0
    wdataBuf := 0 }
where
  zeroCore : MacCoreAxi.State 32 32 8 :=
    ⟨0, 0, fun _ _ => 0, fun _ => 0, fun _ => 0, false, SystolicArray.reset, .idle, 0, 0, false, 0,
      false, false⟩

theorem rewritten_rewrites (paddr pwdata : BitVec 32)
    (job : jobRegister (paddr.setWidth 8) = true) :
    Rewrites powerUp oneWeight (rewritten paddr pwdata) 9 17 where
  idle := by decide
  start := by decide
  before := by
    intro u upto
    rw [rewritten, if_neg (by omega)]
  busy := by
    have busy : ∀ u < 17, 9 < u → statusBusy (after powerUp oneWeight u) (oneWeight u) = true := by
      decide
    exact fun u low high => busy u high low
  coreEn := by
    have coreEn : ∀ u < 17, 9 ≤ u →
        (after powerUp oneWeight u).multicore.regs.coreEnO = 0b0001 := by decide
    exact fun u low high => coreEn u high low
  only := by
    intro u low high
    by_cases here : u = 11
    · subst here
      refine ⟨rfl, rfl, rfl, rfl, .inr ⟨rfl, ?_⟩⟩
      exact job
    · have same : rewritten paddr pwdata u = oneWeight u := if_neg here
      rw [same]
      exact ⟨rfl, rfl, rfl, rfl, .inl rfl⟩

/-- A new weight base is for the next job. -/
theorem job_isolated_wgtBase : Isolated powerUp oneWeight (rewritten 0x20 0x10000800) 9 17 := by
  have unread : ∀ u < 17, 9 < u →
      Unread (after powerUp oneWeight u) (after powerUp (rewritten 0x20 0x10000800) u) := by decide
  exact job_isolated powerUp oneWeight (rewritten 0x20 0x10000800) 9 17
    (rewritten_rewrites 0x20 0x10000800 (by decide)) fun u low high => unread u high low

/-- A new activation base is for the job that is running. -/
theorem job_reads_new_actBase :
    ¬ ∀ (s₀ : State 32 32 8) (ins ins' : ℕ → Inputs) (a e : ℕ),
      Rewrites s₀ ins ins' a e → Isolated s₀ ins ins' a e := by
  intro claim
  have isolated := claim powerUp oneWeight (rewritten 0x24 0x10000800) 9 17
    (rewritten_rewrites 0x24 0x10000800 (by decide))
  exact absurd (isolated 16 (by decide) (by decide)) (by decide)

end MiniMac.Accel.MacSubsystem
