/-
# Accel.MacSubsystem -- the accelerator: register file, four cores, one stream engine

The stream engine is started by the register file's pulse and configured by its
outputs; its operand streams go to all four cores, its result stream comes from
core 0, and the other cores' results are taken and dropped.  The register file's
abort pulse is left open, and the engine's abort input is tied to zero.
-/
import MiniMac.Accel.MacMulticore
import MiniMac.Accel.MacCoreAxi
import MiniMac.Accel.AxiStreamDma

namespace MiniMac.Accel.MacSubsystem

open MiniMac.Theory

set_option autoImplicit false

structure Inputs where
  paddr : BitVec 32
  psel : Bool
  penable : Bool
  pwrite : Bool
  pwdata : BitVec 32
  mGntI : Bool
  mRvalidI : Bool
  mRdataI : BitVec 32
  /-- What an array read returns when its index is outside the array. -/
  unknown : BitVec 32

structure State (rows cols dataW : ℕ) where
  multicore : MacMulticore.State
  core0 : MacCoreAxi.State rows cols dataW
  core1 : MacCoreAxi.State rows cols dataW
  core2 : MacCoreAxi.State rows cols dataW
  core3 : MacCoreAxi.State rows cols dataW
  dma : AxiStreamDma.State

variable {rows cols dataW : ℕ}

def multicoreInputs (s : State rows cols dataW) (i : Inputs) : MacMulticore.Inputs where
  paddr := i.paddr
  psel := i.psel
  penable := i.penable
  pwrite := i.pwrite
  pwdata := i.pwdata
  dmaBusyI := s.dma.busyO
  dmaDoneI := s.dma.resDoneO
  dmaInputsDoneI := s.dma.wgtDoneO && s.dma.actDoneO
  dmaWgtDoneI := s.dma.wgtDoneO
  dmaActDoneI := s.dma.actDoneO
  dmaResDoneI := s.dma.resDoneO
  coreDone := BitVec.ofBool s.core3.coreDoneO ++ BitVec.ofBool s.core2.coreDoneO ++
    BitVec.ofBool s.core1.coreDoneO ++ BitVec.ofBool s.core0.coreDoneO

/-- The start pulse of core 0; the other three are registers of the multicore. -/
def coreStart0 (s : State rows cols dataW) (i : Inputs) : Bool :=
  MacMulticore.launches s.multicore (multicoreInputs s i) 0

/-- A core's inputs, from its start pulse and the ready of its result stream. -/
def coreInputs (s : State rows cols dataW) (i : Inputs) (start ready : Bool) :
    MacCoreAxi.Inputs where
  sAxisWgtTdata := s.dma.mAxisWgtTdata
  sAxisWgtTvalid := s.dma.mAxisWgtTvalid
  sAxisActTdata := s.dma.mAxisActTdata
  sAxisActTvalid := s.dma.mAxisActTvalid
  mAxisResTready := ready
  coreStartI := start
  regMI := s.multicore.regs.dimMO
  regNI := s.multicore.regs.dimNO
  unknown := i.unknown

def dmaInputs (s : State rows cols dataW) (i : Inputs) : AxiStreamDma.Inputs where
  startI := MacMulticore.globalStart s.multicore
  abortI := false
  wgtBaseI := s.multicore.regs.wgtBaseO
  actBaseI := s.multicore.regs.actBaseO
  resBaseI := s.multicore.regs.resBaseO
  dmaLenWgtI := s.multicore.regs.dmaLenWgtO
  dmaLenActI := s.multicore.regs.dmaLenActO
  mGntI := i.mGntI
  mRvalidI := i.mRvalidI
  mRdataI := i.mRdataI
  sAxisResTdata := s.core0.mAxisResTdata
  sAxisResTvalid := s.core0.mAxisResTvalid
  sAxisResTlast := s.core0.mAxisResTlast

def step (s : State rows cols dataW) (i : Inputs) : State rows cols dataW where
  multicore := MacMulticore.step s.multicore (multicoreInputs s i)
  core0 := MacCoreAxi.step s.core0 (coreInputs s i (coreStart0 s i) s.dma.sAxisResTready)
  core1 := MacCoreAxi.step s.core1 (coreInputs s i s.multicore.coreStart1D true)
  core2 := MacCoreAxi.step s.core2 (coreInputs s i s.multicore.coreStart2D2 true)
  core3 := MacCoreAxi.step s.core3 (coreInputs s i s.multicore.coreStart3D true)
  dma := AxiStreamDma.step s.dma (dmaInputs s i)

def reset (s : State rows cols dataW) : State rows cols dataW where
  multicore := MacMulticore.reset
  core0 := MacCoreAxi.reset s.core0
  core1 := MacCoreAxi.reset s.core1
  core2 := MacCoreAxi.reset s.core2
  core3 := MacCoreAxi.reset s.core3
  dma := AxiStreamDma.reset s.dma

def prdata (s : State rows cols dataW) (i : Inputs) : BitVec 32 :=
  MacMulticore.prdata s.multicore (multicoreInputs s i)

/-- The accelerator `t` cycles after reset. -/
def after (s₀ : State rows cols dataW) (ins : ℕ → Inputs) (t : ℕ) : State rows cols dataW :=
  Clocked.run step (reset s₀) ins t

end MiniMac.Accel.MacSubsystem
