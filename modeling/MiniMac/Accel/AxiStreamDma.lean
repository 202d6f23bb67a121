/-
# Accel.AxiStreamDma -- the engine that fills the buffers and drains the results

One state machine with one memory port: it reads the weight words and then the
activation words and sends each down its stream, waits for the core's results,
and writes each result word to memory.  Its outputs are registers, so a request
stays up for one cycle after the cycle of its grant, and the result port's ready
follows the drain state by one cycle.

The ready inputs of the two operand streams are not used by the engine and are
left out.
-/
import Mathlib.Data.BitVec

namespace MiniMac.Accel.AxiStreamDma

set_option autoImplicit false

inductive Phase where
  | idle
  | fillWgt
  | wgtWait
  | fillAct
  | actWait
  | runArray
  | drainRes
  | resWrite
  deriving DecidableEq

/-- The phases that read operands. -/
def Phase.fills : Phase → Bool
  | .fillWgt | .wgtWait | .fillAct | .actWait => true
  | _ => false

structure Inputs where
  startI : Bool
  abortI : Bool
  wgtBaseI : BitVec 32
  actBaseI : BitVec 32
  resBaseI : BitVec 32
  dmaLenWgtI : BitVec 32
  dmaLenActI : BitVec 32
  mGntI : Bool
  mRvalidI : Bool
  mRdataI : BitVec 32
  sAxisResTdata : BitVec 32
  sAxisResTvalid : Bool
  sAxisResTlast : Bool

structure State where
  busyO : Bool
  wgtDoneO : Bool
  actDoneO : Bool
  resDoneO : Bool
  mReqO : Bool
  mAddrO : BitVec 32
  mWeO : Bool
  mWdataO : BitVec 32
  mAxisWgtTdata : BitVec 32
  mAxisWgtTvalid : Bool
  mAxisActTdata : BitVec 32
  mAxisActTvalid : Bool
  sAxisResTready : Bool
  state : Phase
  currAddr : BitVec 32
  bytesLeft : BitVec 32
  wdataBuf : BitVec 32

/-- Reset leaves the address and length counters and the result word as they are. -/
def reset (s : State) : State where
  busyO := false
  wgtDoneO := false
  actDoneO := false
  resDoneO := false
  mReqO := false
  mAddrO := 0
  mWeO := false
  mWdataO := 0
  mAxisWgtTdata := 0
  mAxisWgtTvalid := false
  mAxisActTdata := 0
  mAxisActTvalid := false
  sAxisResTready := false
  state := .idle
  currAddr := s.currAddr
  bytesLeft := s.bytesLeft
  wdataBuf := s.wdataBuf

def abort (s : State) : State :=
  { s with
    state := .idle
    busyO := false
    mReqO := false
    mAxisWgtTvalid := false
    mAxisActTvalid := false
    sAxisResTready := false }

def defaults (s : State) : State :=
  { s with
    mReqO := false
    mAxisWgtTvalid := false
    mAxisActTvalid := false
    sAxisResTready := false }

/-- A read request for the current word, as assignments over `d`; `wait` is the
phase after its grant. -/
def request (s : State) (i : Inputs) (wait : Phase) (d : State) : State :=
  { d with
    mReqO := true
    mWeO := false
    mAddrO := s.currAddr
    state := if i.mGntI then wait else s.state }

/-- The state machine's case, as assignments over `d`. -/
def fsm (s : State) (i : Inputs) (d : State) : State :=
  match s.state with
  | .idle =>
      if i.startI then
        { d with
          busyO := true
          wgtDoneO := false
          actDoneO := false
          resDoneO := false
          currAddr := i.wgtBaseI
          bytesLeft := i.dmaLenWgtI
          state := .fillWgt }
      else d
  | .fillWgt =>
      if s.bytesLeft = 0 then
        { d with
          wgtDoneO := true
          currAddr := i.actBaseI
          bytesLeft := i.dmaLenActI
          state := .fillAct }
      else request s i .wgtWait d
  | .wgtWait =>
      if i.mRvalidI then
        { d with
          mAxisWgtTdata := i.mRdataI
          mAxisWgtTvalid := true
          currAddr := s.currAddr + 4
          bytesLeft := s.bytesLeft - 4
          state := .fillWgt }
      else d
  | .fillAct =>
      if s.bytesLeft = 0 then
        { d with
          actDoneO := true
          state := .runArray }
      else request s i .actWait d
  | .actWait =>
      if i.mRvalidI then
        { d with
          mAxisActTdata := i.mRdataI
          mAxisActTvalid := true
          currAddr := s.currAddr + 4
          bytesLeft := s.bytesLeft - 4
          state := .fillAct }
      else d
  | .runArray =>
      if i.sAxisResTvalid then
        { d with
          currAddr := i.resBaseI
          state := .drainRes }
      else d
  | .drainRes =>
      { d with
        sAxisResTready := true
        wdataBuf := if i.sAxisResTvalid then i.sAxisResTdata else s.wdataBuf
        state := if i.sAxisResTvalid then .resWrite else s.state }
  | .resWrite =>
      { d with
        mReqO := true
        mWeO := true
        mAddrO := s.currAddr
        mWdataO := s.wdataBuf
        currAddr := if i.mGntI then s.currAddr + 4 else s.currAddr
        resDoneO := if i.mGntI && i.sAxisResTlast then true else s.resDoneO
        busyO := if i.mGntI && i.sAxisResTlast then false else s.busyO
        state := if i.mGntI then if i.sAxisResTlast then .idle else .drainRes else s.state }

def step (s : State) (i : Inputs) : State :=
  if i.abortI then abort s else fsm s i (defaults s)

/-! ## The two fill channels -/

/-- The weight fill and the activation fill do the same on different streams. -/
inductive Channel where
  | wgt
  | act
  deriving DecidableEq

namespace Channel

def fill : Channel → Phase
  | wgt => .fillWgt
  | act => .fillAct

def wait : Channel → Phase
  | wgt => .wgtWait
  | act => .actWait

@[simp] theorem fills_fill (ch : Channel) : ch.fill.fills = true := by
  cases ch <;> rfl

@[simp] theorem fills_wait (ch : Channel) : ch.wait.fills = true := by
  cases ch <;> rfl

@[simp] theorem fill_ne_wait {ch ch' : Channel} : ch.fill ≠ ch'.wait := by
  cases ch <;> cases ch' <;> decide

@[simp] theorem wait_ne_fill {ch ch' : Channel} : ch.wait ≠ ch'.fill :=
  fill_ne_wait.symm

@[simp] theorem idle_ne_fill {ch : Channel} : Phase.idle ≠ ch.fill := by
  cases ch <;> decide

@[simp] theorem idle_ne_wait {ch : Channel} : Phase.idle ≠ ch.wait := by
  cases ch <;> decide

@[simp] theorem wait_inj {ch ch' : Channel} : ch.wait = ch'.wait ↔ ch = ch' := by
  cases ch <;> cases ch' <;> decide

/-- The word on the channel's stream. -/
def beat (s : State) : Channel → Option (BitVec 32)
  | wgt => if s.mAxisWgtTvalid then some s.mAxisWgtTdata else none
  | act => if s.mAxisActTvalid then some s.mAxisActTdata else none

/-- A word put on the channel's stream, as assignments over `d`. -/
def deliver (data : BitVec 32) (d : State) : Channel → State
  | wgt =>
      { d with
        mAxisWgtTdata := data
        mAxisWgtTvalid := true }
  | act =>
      { d with
        mAxisActTdata := data
        mAxisActTvalid := true }

end Channel

/-! ## One edge in each phase -/

section Phases

variable {s : State} {i : Inputs}

theorem step_idle (noAbort : i.abortI = false) (phase : s.state = .idle)
    (noStart : i.startI = false) : step s i = defaults s := by
  simp [step, noAbort, fsm, phase, noStart]

theorem step_start (noAbort : i.abortI = false) (phase : s.state = .idle)
    (start : i.startI = true) :
    step s i =
      { defaults s with
        busyO := true
        wgtDoneO := false
        actDoneO := false
        resDoneO := false
        currAddr := i.wgtBaseI
        bytesLeft := i.dmaLenWgtI
        state := .fillWgt } := by
  simp [step, noAbort, fsm, phase, start]

theorem step_fill {ch : Channel} (noAbort : i.abortI = false) (phase : s.state = ch.fill)
    (more : s.bytesLeft ≠ 0) : step s i = request s i ch.wait (defaults s) := by
  have engine : step s i = fsm s i (defaults s) := if_neg (by simp [noAbort])
  rw [engine, fsm, phase]
  cases ch with
  | wgt => exact if_neg more
  | act => exact if_neg more

theorem step_wait {ch : Channel} (noAbort : i.abortI = false) (phase : s.state = ch.wait)
    (valid : i.mRvalidI = true) :
    step s i =
      { ch.deliver i.mRdataI (defaults s) with
        currAddr := s.currAddr + 4
        bytesLeft := s.bytesLeft - 4
        state := ch.fill } := by
  cases ch <;> simp only [Channel.wait] at phase <;>
    simp [step, noAbort, fsm, phase, valid, Channel.deliver, Channel.fill]

theorem step_wgtDone (noAbort : i.abortI = false) (phase : s.state = .fillWgt)
    (none : s.bytesLeft = 0) :
    step s i =
      { defaults s with
        wgtDoneO := true
        currAddr := i.actBaseI
        bytesLeft := i.dmaLenActI
        state := .fillAct } := by
  simp [step, noAbort, fsm, phase, none]

theorem step_actDone (noAbort : i.abortI = false) (phase : s.state = .fillAct)
    (none : s.bytesLeft = 0) :
    step s i =
      { defaults s with
        actDoneO := true
        state := .runArray } := by
  simp [step, noAbort, fsm, phase, none]

theorem step_runArray (noAbort : i.abortI = false) (phase : s.state = .runArray) :
    step s i =
      if i.sAxisResTvalid then
        { defaults s with
          currAddr := i.resBaseI
          state := .drainRes }
      else defaults s := by
  simp [step, noAbort, fsm, phase]

theorem step_drainRes (noAbort : i.abortI = false) (phase : s.state = .drainRes) :
    step s i =
      { defaults s with
        sAxisResTready := true
        wdataBuf := if i.sAxisResTvalid then i.sAxisResTdata else s.wdataBuf
        state := if i.sAxisResTvalid then .resWrite else .drainRes } := by
  simp [step, noAbort, fsm, phase]

theorem step_resWrite (noAbort : i.abortI = false) (phase : s.state = .resWrite) :
    step s i =
      { defaults s with
        mReqO := true
        mWeO := true
        mAddrO := s.currAddr
        mWdataO := s.wdataBuf
        currAddr := if i.mGntI then s.currAddr + 4 else s.currAddr
        resDoneO := if i.mGntI && i.sAxisResTlast then true else s.resDoneO
        busyO := if i.mGntI && i.sAxisResTlast then false else s.busyO
        state := if i.mGntI then if i.sAxisResTlast then .idle else .drainRes else .resWrite } := by
  simp [step, noAbort, fsm, phase]

/-- The done flags stay until the next start. -/
theorem step_done (noAbort : i.abortI = false) (noStart : i.startI = false) :
    (s.wgtDoneO = true → (step s i).wgtDoneO = true) ∧
      (s.actDoneO = true → (step s i).actDoneO = true) ∧
      (s.resDoneO = true → (step s i).resDoneO = true) := by
  cases phase : s.state <;> simp [step, noAbort, fsm, phase, noStart, defaults, request] <;>
    (repeat' split) <;> simp_all

theorem step_wgtDoneO (noAbort : i.abortI = false) (noStart : i.startI = false)
    (done : s.wgtDoneO = true) : (step s i).wgtDoneO = true :=
  (step_done noAbort noStart).1 done

theorem step_actDoneO (noAbort : i.abortI = false) (noStart : i.startI = false)
    (done : s.actDoneO = true) : (step s i).actDoneO = true :=
  (step_done noAbort noStart).2.1 done

theorem step_resDoneO (noAbort : i.abortI = false) (noStart : i.startI = false)
    (done : s.resDoneO = true) : (step s i).resDoneO = true :=
  (step_done noAbort noStart).2.2 done

/-- The result flag comes up with the return to the idle phase only. -/
theorem step_resDone (noAbort : i.abortI = false) (up : (step s i).resDoneO = true) :
    s.resDoneO = true ∨ (step s i).state = .idle := by
  revert up
  cases phase : s.state <;> simp [step, noAbort, fsm, phase, defaults, request] <;>
    (repeat' split) <;> simp_all

/-- A word goes down a stream exactly on an answer in that stream's wait phase. -/
theorem beat_step (noAbort : i.abortI = false) (ch : Channel) :
    ch.beat (step s i) =
      if s.state = ch.wait ∧ i.mRvalidI = true then some i.mRdataI else none := by
  cases phase : s.state <;> cases ch <;>
    simp [step, noAbort, fsm, phase, Channel.wait, Channel.beat, defaults, request] <;>
    (repeat' split) <;> simp_all

/-- A fill begins with a start in the idle phase only. -/
theorem step_stays (past : s.state.fills = false) (noAbort : i.abortI = false)
    (noStart : s.state = .idle → i.startI = false) : (step s i).state.fills = false := by
  cases phase : s.state <;> simp only [phase, Phase.fills, reduceCtorEq] at past
  · rw [step_idle noAbort phase (noStart phase)]
    simp [defaults, phase, Phase.fills]
  · rw [step_runArray noAbort phase]
    split <;> simp [defaults, phase, Phase.fills]
  · rw [step_drainRes noAbort phase]
    dsimp only
    split <;> rfl
  · rw [step_resWrite noAbort phase]
    dsimp only
    split <;> (try split) <;> rfl

/-- Once the inputs are in, the streams are silent until the next start. -/
theorem step_past (past : s.state.fills = false) (noAbort : i.abortI = false)
    (noStart : i.startI = false) :
    (step s i).state.fills = false ∧ ∀ ch : Channel, ch.beat (step s i) = none := by
  refine ⟨step_stays past noAbort fun _ => noStart, fun ch => ?_⟩
  rw [beat_step noAbort, if_neg]
  rintro ⟨wait, -⟩
  simp [wait] at past

/-- A start and a configuration make no difference where the engine does not read them. -/
theorem step_config {start : Bool} {wgtBase actBase resBase lenWgt lenAct : BitVec 32}
    (starts : i.startI ≠ start → s.state ≠ .idle)
    (wgt : s.state = .idle → i.startI = true → i.wgtBaseI = wgtBase ∧ i.dmaLenWgtI = lenWgt)
    (act : s.state = .fillWgt → s.bytesLeft = 0 → i.actBaseI = actBase ∧ i.dmaLenActI = lenAct)
    (res : s.state = .runArray → i.sAxisResTvalid = true → i.resBaseI = resBase) :
    step s
        { i with
          startI := start
          wgtBaseI := wgtBase
          actBaseI := actBase
          resBaseI := resBase
          dmaLenWgtI := lenWgt
          dmaLenActI := lenAct } =
      step s i := by
  unfold step
  dsimp only
  split
  · rfl
  · cases phase : s.state with
    | idle =>
        have same : i.startI = start := by
          by_contra differs
          exact starts differs phase
        subst same
        simp only [fsm, phase]
        split
        · next started =>
            obtain ⟨rfl, rfl⟩ := wgt phase started
            rfl
        · rfl
    | fillWgt =>
        simp only [fsm, phase]
        split
        · next none =>
            obtain ⟨rfl, rfl⟩ := act phase none
            rfl
        · rfl
    | runArray =>
        simp only [fsm, phase]
        split
        · next valid =>
            obtain rfl := res phase valid
            rfl
        · rfl
    | wgtWait => simp only [fsm, phase]
    | fillAct => simp only [fsm, phase, request]
    | actWait => simp only [fsm, phase]
    | drainRes => simp only [fsm, phase]
    | resWrite => simp only [fsm, phase]

/-- The last result word is granted. -/
def finishes (s : State) (i : Inputs) : Bool :=
  s.state == .resWrite && i.mGntI && i.sAxisResTlast

/-- An engine is idle after an idle cycle without a start and after its last write. -/
theorem step_idle_iff (noAbort : i.abortI = false) :
    (step s i).state = .idle ↔
      (s.state = .idle ∧ i.startI = false) ∨ finishes s i = true := by
  unfold finishes
  cases phase : s.state <;> simp [step, noAbort, fsm, phase, defaults, request] <;>
    (repeat' split) <;> simp_all

/-- The last write's request stays up for a cycle. -/
theorem step_finishes (noAbort : i.abortI = false) (last : finishes s i = true) :
    (step s i).mReqO = true := by
  simp only [finishes, Bool.and_eq_true, beq_iff_eq] at last
  rw [step_resWrite noAbort last.1.1]

/-- `busy_o` is up outside the idle phase. -/
def BusyInJob (s : State) : Prop := s.busyO = true ↔ s.state ≠ .idle

theorem BusyInJob.step (busy : BusyInJob s) (noAbort : i.abortI = false) :
    BusyInJob (step s i) := by
  unfold BusyInJob at busy ⊢
  cases phase : s.state <;> rw [phase] at busy <;>
    simp [AxiStreamDma.step, noAbort, fsm, phase, defaults, request] <;>
    (repeat' split) <;> simp_all

end Phases

end MiniMac.Accel.AxiStreamDma
