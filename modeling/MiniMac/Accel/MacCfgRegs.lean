/-
# Accel.MacCfgRegs -- the accelerator's configuration registers

A zero-wait-state APB slave: a write takes effect at the edge of its access
cycle, and the start and abort bits clear themselves one cycle later.  The done
flag is sticky: set by the completion pulse, cleared by a start and by a
write-one-to-clear, and the write wins over a pulse in the same cycle.
-/
import Mathlib.Data.BitVec

namespace MiniMac.Accel.MacCfgRegs

set_option autoImplicit false

structure Inputs where
  paddr : BitVec 32
  psel : Bool
  penable : Bool
  pwrite : Bool
  pwdata : BitVec 32
  busyI : Bool
  doneI : Bool
  wgtDoneI : Bool
  actDoneI : Bool
  resDoneI : Bool

structure State where
  startO : Bool
  abortO : Bool
  dimMO : BitVec 8
  dimKO : BitVec 8
  dimNO : BitVec 8
  coreEnO : BitVec 4
  wgtBaseO : BitVec 32
  actBaseO : BitVec 32
  resBaseO : BitVec 32
  dmaLenWgtO : BitVec 32
  dmaLenActO : BitVec 32
  stickyDone : Bool

def reset : State where
  startO := false
  abortO := false
  dimMO := 4
  dimKO := 4
  dimNO := 4
  coreEnO := 0b1111
  wgtBaseO := 0x10000000
  actBaseO := 0x10001000
  resBaseO := 0x10002000
  dmaLenWgtO := 16
  dmaLenActO := 16
  stickyDone := false

/-- The register offset `paddr[7:0]`. -/
def offset (i : Inputs) : BitVec 8 := i.paddr.setWidth 8

/-- The access cycle of an APB write. -/
def writes (i : Inputs) : Bool := i.psel && i.penable && i.pwrite

/-- What every edge assigns before a write. -/
def defaults (s : State) (i : Inputs) : State :=
  { s with
    startO := false
    abortO := false
    stickyDone := if i.doneI then true else s.stickyDone }

/-- The write case, as assignments over `d`. -/
def write (i : Inputs) (d : State) : State :=
  match offset i with
  | 0x00#8 =>
      { d with
        startO := if i.pwdata[0] then true else d.startO
        stickyDone := if i.pwdata[0] then false else d.stickyDone
        abortO := if i.pwdata[1] then true else d.abortO }
  | 0x04#8 => { d with stickyDone := if i.pwdata[1] then false else d.stickyDone }
  | 0x08#8 =>
      { d with
        dimMO := i.pwdata.extractLsb' 16 8
        dimKO := i.pwdata.extractLsb' 8 8
        dimNO := i.pwdata.extractLsb' 0 8 }
  | 0x10#8 => { d with coreEnO := i.pwdata.extractLsb' 0 4 }
  | 0x20#8 => { d with wgtBaseO := i.pwdata }
  | 0x24#8 => { d with actBaseO := i.pwdata }
  | 0x28#8 => { d with resBaseO := i.pwdata }
  | 0x2C#8 => { d with dmaLenWgtO := i.pwdata }
  | 0x30#8 => { d with dmaLenActO := i.pwdata }
  | _ => d

def step (s : State) (i : Inputs) : State :=
  if writes i then write i (defaults s i) else defaults s i

def prdata (s : State) (i : Inputs) : BitVec 32 :=
  match offset i with
  | 0x00#8 => 0
  | 0x04#8 => (BitVec.ofBool s.stickyDone ++ BitVec.ofBool i.busyI).setWidth 32
  | 0x08#8 => (s.dimMO ++ s.dimKO ++ s.dimNO).setWidth 32
  | 0x0C#8 => 0
  | 0x10#8 => s.coreEnO.setWidth 32
  | 0x20#8 => s.wgtBaseO
  | 0x24#8 => s.actBaseO
  | 0x28#8 => s.resBaseO
  | 0x2C#8 => s.dmaLenWgtO
  | 0x30#8 => s.dmaLenActO
  | 0x34#8 =>
      (BitVec.ofBool i.resDoneI ++ BitVec.ofBool i.actDoneI ++ BitVec.ofBool i.wgtDoneI).setWidth 32
  | _ => 0

/-- Without a write only the pulses and the done flag change. -/
theorem step_quiet {s : State} {i : Inputs} (none : writes i = false) : step s i = defaults s i := by
  simp [step, none]

/-! ## The start pulse -/

/-- A write that starts a job: CTRL with bit 0 set. -/
def startsJob (i : Inputs) : Bool := writes i && offset i == 0x00 && i.pwdata.getLsbD 0

theorem step_startO (s : State) (i : Inputs) : (step s i).startO = startsJob i := by
  have ctrl : (write i (defaults s i)).startO = (offset i == 0x00 && i.pwdata.getLsbD 0) := by
    unfold write
    split <;> simp_all [defaults]
  rw [step, startsJob]
  cases writes i with
  | false => rfl
  | true => exact ctrl

/-- CORE_EN changes with a write of its own offset only. -/
theorem step_coreEnO (s : State) (i : Inputs) :
    (step s i).coreEnO =
      if writes i && offset i == 0x10 then i.pwdata.extractLsb' 0 4 else s.coreEnO := by
  have written : (write i (defaults s i)).coreEnO =
      if offset i == 0x10 then i.pwdata.extractLsb' 0 4 else s.coreEnO := by
    unfold write
    split <;> simp_all [defaults]
  rw [step]
  cases writes i with
  | false => rfl
  | true => exact written

/-! ## The done flag -/

/-- A write that clears the done flag: a start, or STATUS with bit 1 set. -/
def clearsDone (i : Inputs) : Bool :=
  writes i && (offset i == 0x00 && i.pwdata[0] || offset i == 0x04 && i.pwdata[1])

theorem write_stickyDone (i : Inputs) (d : State) :
    (write i d).stickyDone =
      if offset i == 0x00 && i.pwdata[0] || offset i == 0x04 && i.pwdata[1] then false
      else d.stickyDone := by
  unfold write
  split <;> simp_all

theorem step_stickyDone (s : State) (i : Inputs) :
    (step s i).stickyDone = (!clearsDone i && (i.doneI || s.stickyDone)) := by
  rw [step, clearsDone]
  cases written : writes i with
  | false => cases pulse : i.doneI <;> simp [defaults, pulse]
  | true =>
      rw [if_pos rfl, write_stickyDone]
      cases pulse : i.doneI <;> simp only [defaults, pulse] <;> grind

/-- STATUS bit 1 reads the done flag. -/
theorem prdata_status (s : State) (i : Inputs) (status : offset i = 0x04) :
    (prdata s i)[1] = s.stickyDone := by
  have read : prdata s i =
      (BitVec.ofBool s.stickyDone ++ BitVec.ofBool i.busyI).setWidth 32 := by
    rw [prdata, status]
    rfl
  rw [read]
  cases s.stickyDone <;> cases i.busyI <;> rfl

end MiniMac.Accel.MacCfgRegs
