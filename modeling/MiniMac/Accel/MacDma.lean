/-
# Accel.MacDma -- a core and its stream engine, port to port

The engine's operand streams feed the core and the core's result port feeds the
engine, whose ready is the core's.  The memory side is an input: `memGnt` says
that the memory takes a request in this cycle, so a grant is a request it takes.
-/
import MiniMac.Accel.MacCoreAxi
import MiniMac.Accel.AxiStreamDma

namespace MiniMac.Accel.MacDma

open MiniMac.Theory

set_option autoImplicit false

structure Inputs where
  startI : Bool
  abortI : Bool
  wgtBaseI : BitVec 32
  actBaseI : BitVec 32
  resBaseI : BitVec 32
  dmaLenWgtI : BitVec 32
  dmaLenActI : BitVec 32
  coreStartI : Bool
  regMI : BitVec 8
  regNI : BitVec 8
  unknown : BitVec 32
  memGnt : Bool
  memRvalid : Bool
  memRdata : BitVec 32

structure State (rows cols dataW : ℕ) where
  core : MacCoreAxi.State rows cols dataW
  dma : AxiStreamDma.State

variable {rows cols dataW : ℕ}

def coreInputs (s : State rows cols dataW) (i : Inputs) : MacCoreAxi.Inputs where
  sAxisWgtTdata := s.dma.mAxisWgtTdata
  sAxisWgtTvalid := s.dma.mAxisWgtTvalid
  sAxisActTdata := s.dma.mAxisActTdata
  sAxisActTvalid := s.dma.mAxisActTvalid
  mAxisResTready := s.dma.sAxisResTready
  coreStartI := i.coreStartI
  regMI := i.regMI
  regNI := i.regNI
  unknown := i.unknown

/-- A grant answers a request. -/
def granted (s : State rows cols dataW) (i : Inputs) : Bool := s.dma.mReqO && i.memGnt

def dmaInputs (s : State rows cols dataW) (i : Inputs) : AxiStreamDma.Inputs where
  startI := i.startI
  abortI := i.abortI
  wgtBaseI := i.wgtBaseI
  actBaseI := i.actBaseI
  resBaseI := i.resBaseI
  dmaLenWgtI := i.dmaLenWgtI
  dmaLenActI := i.dmaLenActI
  mGntI := granted s i
  mRvalidI := i.memRvalid
  mRdataI := i.memRdata
  sAxisResTdata := s.core.mAxisResTdata
  sAxisResTvalid := s.core.mAxisResTvalid
  sAxisResTlast := s.core.mAxisResTlast

def step (s : State rows cols dataW) (i : Inputs) : State rows cols dataW where
  core := MacCoreAxi.step s.core (coreInputs s i)
  dma := AxiStreamDma.step s.dma (dmaInputs s i)

def reset (s : State rows cols dataW) : State rows cols dataW :=
  ⟨MacCoreAxi.reset s.core, AxiStreamDma.reset s.dma⟩

/-- The pair `t` cycles after a state. -/
def after (s : State rows cols dataW) (ins : ℕ → Inputs) (t : ℕ) : State rows cols dataW :=
  Clocked.run step s ins t

theorem after_succ (s : State rows cols dataW) (ins : ℕ → Inputs) (t : ℕ) :
    after s ins (t + 1) = step (after s ins t) (ins t) := rfl

end MiniMac.Accel.MacDma
