/-
# Accel.MacMulticore -- four cores behind one register file

The bookkeeping of a job over four cores: the register file's start pulse opens
an operation, the filled inputs launch the enabled cores one after another, and
the operation closes when the registered done pulses cover the enabled cores in a
cycle in which the DMA is done.  `coreDone` is the cores' done outputs.
-/
import MiniMac.Accel.MacCfgRegs
import MiniMac.Theory.Clocked

namespace MiniMac.Accel.MacMulticore

open MiniMac.Theory

set_option autoImplicit false

structure Inputs where
  paddr : BitVec 32
  psel : Bool
  penable : Bool
  pwrite : Bool
  pwdata : BitVec 32
  dmaBusyI : Bool
  dmaDoneI : Bool
  dmaInputsDoneI : Bool
  dmaWgtDoneI : Bool
  dmaActDoneI : Bool
  dmaResDoneI : Bool
  coreDone : BitVec 4

structure State where
  regs : MacCfgRegs.State
  coreDoneR : BitVec 4
  coreLaunchedR : Bool
  operationActiveR : Bool
  coreStart1D : Bool
  coreStart2D : Bool
  coreStart2D2 : Bool
  coreStart3D : Bool

def reset : State where
  regs := MacCfgRegs.reset
  coreDoneR := 0
  coreLaunchedR := false
  operationActiveR := false
  coreStart1D := false
  coreStart2D := false
  coreStart2D2 := false
  coreStart3D := false

/-! ## Wires -/

def globalStart (s : State) : Bool := s.regs.startO

def coreEn (s : State) : BitVec 4 := s.regs.coreEnO

/-- The reduction `&(~core_en | done)`. -/
def covers (en done : BitVec 4) : Bool := (~~~en ||| done) == BitVec.allOnes 4

def doneO (s : State) : Bool := s.operationActiveR && covers (coreEn s) s.coreDoneR

def coreActiveO (s : State) : BitVec 4 :=
  if s.operationActiveR then coreEn s &&& ~~~s.coreDoneR else 0

def coreLaunch (s : State) (i : Inputs) : Bool :=
  i.dmaInputsDoneI && !s.coreLaunchedR && !globalStart s

/-- A core is launched if it is enabled and has not just finished. -/
def launches (s : State) (i : Inputs) (k : ℕ) : Bool :=
  coreLaunch s i && (coreEn s).getLsbD k && !s.coreDoneR.getLsbD k

/-- The start pulses of the four cores. -/
def coreStart (s : State) (i : Inputs) : Fin 4 → Bool
  | 0 => launches s i 0
  | 1 => s.coreStart1D
  | 2 => s.coreStart2D2
  | 3 => s.coreStart3D

def regsInputs (s : State) (i : Inputs) : MacCfgRegs.Inputs where
  paddr := i.paddr
  psel := i.psel
  penable := i.penable
  pwrite := i.pwrite
  pwdata := i.pwdata
  busyI := coreActiveO s != 0 || i.dmaBusyI
  doneI := doneO s && i.dmaDoneI
  wgtDoneI := i.dmaWgtDoneI
  actDoneI := i.dmaActDoneI
  resDoneI := i.dmaResDoneI

def prdata (s : State) (i : Inputs) : BitVec 32 := MacCfgRegs.prdata s.regs (regsInputs s i)

/-! ## Registers -/

/-- The closing test is assigned last, so it wins over a start in its cycle. -/
def step (s : State) (i : Inputs) : State where
  regs := MacCfgRegs.step s.regs (regsInputs s i)
  coreDoneR := if globalStart s then 0 else i.coreDone
  coreLaunchedR :=
    if globalStart s then false
    else if i.dmaInputsDoneI && !s.coreLaunchedR then true
    else s.coreLaunchedR
  operationActiveR :=
    if s.operationActiveR && covers (coreEn s) s.coreDoneR && i.dmaDoneI then false
    else if globalStart s then true
    else s.operationActiveR
  coreStart1D := launches s i 1
  coreStart2D := launches s i 2
  coreStart2D2 := s.coreStart2D
  coreStart3D := launches s i 3

/-- The accelerator after `t` cycles from reset. -/
def after (ins : ℕ → Inputs) (t : ℕ) : State := Clocked.run step reset ins t

theorem after_succ (ins : ℕ → Inputs) (t : ℕ) :
    after ins (t + 1) = step (after ins t) (ins t) := rfl

/-! ## Coverage -/

theorem covers_iff (en done : BitVec 4) :
    covers en done = true ↔ ∀ k : Fin 4, en.getLsbD k = true → done.getLsbD k = true := by
  revert en done
  decide

end MiniMac.Accel.MacMulticore
