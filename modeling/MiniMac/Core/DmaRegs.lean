/-
# Core.DmaRegs -- the copy engine's configuration registers

A zero-wait-state APB slave.  A CTRL write raises start and abort for one cycle;
the done flag is set by the engine's pulse and cleared by a CTRL write with the
start bit and by an interrupt acknowledge, which win over a pulse in the same
cycle.  `pready` is tied to one, and the outputs `abort_o` and `irq_ack_o` are
registered like the others although the system leaves them open.
-/
import MiniMac.Theory.Clocked

namespace MiniMac.Core.DmaRegs

open MiniMac.Theory

set_option autoImplicit false

structure Inputs where
  paddr : BitVec 32
  psel : Bool
  penable : Bool
  pwrite : Bool
  pwdata : BitVec 32
  busyI : Bool
  doneI : Bool
  errI : Bool

structure State where
  srcAddrO : BitVec 32
  dstAddrO : BitVec 32
  lengthO : BitVec 16
  startO : Bool
  abortO : Bool
  irqAckO : Bool
  doneSticky : Bool

def reset : State where
  srcAddrO := 0
  dstAddrO := 0
  lengthO := 0
  startO := false
  abortO := false
  irqAckO := false
  doneSticky := false

/-- The register offset `paddr[7:0]`. -/
def offset (i : Inputs) : BitVec 8 := i.paddr.setWidth 8

/-- The access cycle of an APB write. -/
def writes (i : Inputs) : Bool := i.psel && i.penable && i.pwrite

/-- What every edge assigns before a write. -/
def defaults (s : State) (i : Inputs) : State :=
  { s with
    startO := false
    abortO := false
    irqAckO := false
    doneSticky := if i.doneI then true else s.doneSticky }

/-- The write case, as assignments over `d`. -/
def write (i : Inputs) (d : State) : State :=
  match offset i with
  | 0x00#8 => { d with srcAddrO := i.pwdata }
  | 0x04#8 => { d with dstAddrO := i.pwdata }
  | 0x08#8 => { d with lengthO := i.pwdata.setWidth 16 }
  | 0x0C#8 =>
      { d with
        startO := i.pwdata.getLsbD 0
        abortO := i.pwdata.getLsbD 1
        doneSticky := if i.pwdata.getLsbD 0 then false else d.doneSticky }
  | 0x14#8 =>
      { d with
        irqAckO := i.pwdata.getLsbD 0
        doneSticky := if i.pwdata.getLsbD 0 then false else d.doneSticky }
  | _ => d

def step (s : State) (i : Inputs) : State :=
  if writes i then write i (defaults s i) else defaults s i

def prdata (s : State) (i : Inputs) : BitVec 32 :=
  match offset i with
  | 0x00#8 => s.srcAddrO
  | 0x04#8 => s.dstAddrO
  | 0x08#8 => s.lengthO.setWidth 32
  | 0x10#8 =>
      (BitVec.ofBool i.errI ++ BitVec.ofBool s.doneSticky ++ BitVec.ofBool i.busyI).setWidth 32
  | _ => 0

/-! ## The write that starts a transfer, and the done flag -/

/-- A CTRL write with the start bit. -/
def startWrite (i : Inputs) : Bool := writes i && offset i == 0x0C && i.pwdata.getLsbD 0

/-- A write that clears the done flag: a start, or an interrupt acknowledge. -/
def clearsDone (i : Inputs) : Bool :=
  writes i && (offset i == 0x0C || offset i == 0x14) && i.pwdata.getLsbD 0

theorem step_startO (s : State) (i : Inputs) : (step s i).startO = startWrite i := by
  rw [step, startWrite]
  cases written : writes i with
  | false => rfl
  | true =>
      rw [if_pos rfl, write]
      split <;> simp_all [defaults]

theorem step_doneSticky (s : State) (i : Inputs) :
    (step s i).doneSticky = (!clearsDone i && (i.doneI || s.doneSticky)) := by
  rw [step, clearsDone]
  cases written : writes i with
  | false => cases pulse : i.doneI <;> simp [defaults, pulse]
  | true =>
      rw [if_pos rfl, write]
      cases pulse : i.doneI <;> split <;> simp_all [defaults]

/-- The addresses and the length change by their own writes only. -/
theorem step_registers (s : State) (i : Inputs) :
    (step s i).srcAddrO = (if writes i && offset i == 0x00 then i.pwdata else s.srcAddrO) ∧
    (step s i).dstAddrO = (if writes i && offset i == 0x04 then i.pwdata else s.dstAddrO) ∧
    (step s i).lengthO =
      (if writes i && offset i == 0x08 then i.pwdata.setWidth 16 else s.lengthO) := by
  rw [step]
  cases written : writes i with
  | false => exact ⟨rfl, rfl, rfl⟩
  | true =>
      rw [if_pos rfl, write]
      split <;> simp_all [defaults]

/-- A start leaves the addresses and the length alone. -/
theorem step_of_startWrite {s : State} {i : Inputs} (start : startWrite i = true) :
    (step s i).srcAddrO = s.srcAddrO ∧ (step s i).dstAddrO = s.dstAddrO ∧
      (step s i).lengthO = s.lengthO := by
  simp only [startWrite, Bool.and_eq_true, beq_iff_eq] at start
  obtain ⟨⟨written, ctrl⟩, -⟩ := start
  rw [step, if_pos written, write, ctrl]
  exact ⟨rfl, rfl, rfl⟩

/-- A start clears the flag. -/
theorem clearsDone_of_startWrite {i : Inputs} (start : startWrite i = true) :
    clearsDone i = true := by
  simp only [startWrite, Bool.and_eq_true, beq_iff_eq] at start
  obtain ⟨⟨written, ctrl⟩, bit⟩ := start
  simp [clearsDone, written, ctrl, bit]

/-- STATUS bit 1 reads the done flag. -/
theorem prdata_status (s : State) (i : Inputs) (status : offset i = 0x10) :
    (prdata s i).getLsbD 1 = s.doneSticky := by
  have read : prdata s i =
      (BitVec.ofBool i.errI ++ BitVec.ofBool s.doneSticky ++
        BitVec.ofBool i.busyI).setWidth 32 := by
    rw [prdata, status]
    rfl
  rw [read]
  cases i.errI <;> cases s.doneSticky <;> cases i.busyI <;> rfl

end MiniMac.Core.DmaRegs
