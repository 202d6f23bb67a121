/-
# Soc.SocTop -- the system on chip

Everything but the processor: its two ports are the inputs.  Requests to
`0x400xxxxx` go over the bridge to the peripheral bus (the copy engine's
registers, the accelerator, telemetry), all others to the memory subsystem; the
two DMA engines share the memory's DMA port through their arbiter.

A run starts when the synchronised reset is released.  The three local SRAM
buffers of the accelerator are left out: they are written by the DMA port, but
their outputs are not connected.
-/
import MiniMac.Accel.MacSubsystem
import MiniMac.Bus.ApbBus
import MiniMac.Bus.ObiToApb
import MiniMac.Core.DmaArbiter
import MiniMac.Core.DmaMaster
import MiniMac.Core.DmaRegs
import MiniMac.Core.MemSubsystem
import MiniMac.Core.Telemetry

namespace MiniMac.Soc.SocTop

open MiniMac.Theory MiniMac.Core MiniMac.Accel MiniMac.Bus

set_option autoImplicit false

structure Inputs where
  instrReq : Bool
  instrAddr : BitVec 32
  cpuReq : Bool
  cpuWe : Bool
  cpuBe : BitVec 4
  cpuAddr : BitVec 32
  cpuWdata : BitVec 32
  /-- What an array read returns when its index is outside the array. -/
  unknown : BitVec 32

structure State where
  cpuResponseFromPeriph : Bool
  arbiter : DmaArbiter.State
  mem : MemSubsystem.State
  bridge : ObiToApb.State
  dmaRegs : DmaRegs.State
  dmaCore : DmaMaster.State
  mac : MacSubsystem.State 32 32 8
  telemetry : Telemetry.State

/-! ## The CPU's address decode -/

def cpuIsPeriph (i : Inputs) : Bool := i.cpuReq && i.cpuAddr.extractLsb' 20 12 == 0x400#12

def cpuIsMem (i : Inputs) : Bool := i.cpuReq && !cpuIsPeriph i

/-! ## The DMA port -/

/-- The arbiter's inputs but for the grant, which depends on its request. -/
def arbiterRequests (s : State) : DmaArbiter.Inputs where
  streamReqI := s.mac.dma.mReqO
  streamAddrI := s.mac.dma.mAddrO
  streamWeI := s.mac.dma.mWeO
  streamWdataI := s.mac.dma.mWdataO
  copyReqI := s.dmaCore.reqO
  copyAddrI := s.dmaCore.addrO
  copyWeI := s.dmaCore.weO
  copyWdataI := s.dmaCore.wdataO
  memGntI := false
  memRvalidI := s.mem.dmaRvalid

def dmaMReq (s : State) : Bool := DmaArbiter.memReqO s.arbiter (arbiterRequests s)

def dmaMAddr (s : State) : BitVec 32 := DmaArbiter.memAddrO s.arbiter (arbiterRequests s)

/-- The decode `dma_m_addr[31:28] < 4'hC`. -/
def dmaInMemory (addr : BitVec 32) : Bool := decide (addr.extractLsb' 28 4 < 0xC#4)

def memInputs (s : State) (i : Inputs) : MemSubsystem.Inputs where
  instrReq := i.instrReq
  instrAddr := i.instrAddr
  cpuReq := cpuIsMem i
  cpuAddr := i.cpuAddr
  cpuWe := i.cpuWe
  cpuBe := i.cpuBe
  cpuWdata := i.cpuWdata
  dmaReq := dmaMReq s && dmaInMemory (dmaMAddr s)
  dmaAddr := dmaMAddr s
  dmaWe := DmaArbiter.memWeO s.arbiter (arbiterRequests s)
  dmaWdata := DmaArbiter.memWdataO s.arbiter (arbiterRequests s)
  macReq := 0
  macAddr := fun _ => 0
  macWe := 0
  macWdata := fun _ => 0

def dmaMGnt (s : State) (i : Inputs) : Bool := MemSubsystem.dmaGnt (memInputs s i)

def arbiterInputs (s : State) (i : Inputs) : DmaArbiter.Inputs :=
  { arbiterRequests s with memGntI := dmaMGnt s i }

def dmaMRdata (s : State) : BitVec 32 := MemSubsystem.dmaRdata s.mem

/-! ## The peripherals -/

def sPsel (s : State) : BitVec 6 := ApbBus.sPsel s.bridge.paddr s.bridge.psel

def dmaRegsInputs (s : State) : DmaRegs.Inputs where
  paddr := s.bridge.paddr
  psel := (sPsel s).getLsbD 0
  penable := s.bridge.penable
  pwrite := s.bridge.pwrite
  pwdata := s.bridge.pwdata
  busyI := s.dmaCore.busyO
  doneI := s.dmaCore.doneO
  errI := s.dmaCore.errO

def dmaCoreInputs (s : State) (i : Inputs) : DmaMaster.Inputs where
  srcAddrI := s.dmaRegs.srcAddrO
  dstAddrI := s.dmaRegs.dstAddrO
  lengthI := s.dmaRegs.lengthO
  startI := s.dmaRegs.startO
  gntI := DmaArbiter.copyGntO s.arbiter (arbiterInputs s i)
  rvalidI := DmaArbiter.copyRvalidO s.arbiter (arbiterInputs s i)
  rdataI := dmaMRdata s

def macInputs (s : State) (i : Inputs) : MacSubsystem.Inputs where
  paddr := s.bridge.paddr
  psel := (sPsel s).getLsbD 1
  penable := s.bridge.penable
  pwrite := s.bridge.pwrite
  pwdata := s.bridge.pwdata
  mGntI := DmaArbiter.streamGntO s.arbiter (arbiterInputs s i)
  mRvalidI := DmaArbiter.streamRvalidO s.arbiter (arbiterInputs s i)
  mRdataI := dmaMRdata s
  unknown := i.unknown

def telemetryInputs (s : State) (i : Inputs) : Telemetry.Inputs where
  peValidI := MacMulticore.doneO s.mac.multicore
  dmaStallI := dmaMReq s && !dmaMGnt s i
  accOvflI := false
  peActiveI := MacMulticore.coreActiveO s.mac.multicore != 0
  paddr := s.bridge.paddr
  psel := (sPsel s).getLsbD 2
  penable := s.bridge.penable
  pwrite := s.bridge.pwrite
  pwdata := s.bridge.pwdata

/-- The bus sees a zero for telemetry: its read data is not connected. -/
def busInputs (s : State) (i : Inputs) : ApbBus.Inputs where
  mPaddr := s.bridge.paddr
  mPsel := s.bridge.psel
  s0 := ⟨DmaRegs.prdata s.dmaRegs (dmaRegsInputs s), true⟩
  s1 := ⟨MacSubsystem.prdata s.mac (macInputs s i), true⟩
  s2 := ⟨0, true⟩
  s3 := ⟨0, true⟩
  s4 := ⟨0, true⟩
  s5 := ⟨0, true⟩

def bridgeInputs (s : State) (i : Inputs) : ObiToApb.Inputs where
  obiReq := cpuIsPeriph i
  obiAddr := i.cpuAddr
  obiWe := i.cpuWe
  obiWdata := i.cpuWdata
  prdata := ApbBus.mPrdata (busInputs s i)
  pready := ApbBus.mPready (busInputs s i)

/-! ## The CPU's data port -/

def cpuGnt (s : State) (i : Inputs) : Bool :=
  if i.cpuReq then
    if cpuIsPeriph i then ObiToApb.obiGnt s.bridge (bridgeInputs s i) else true
  else false

def cpuRvalid (s : State) : Bool :=
  if s.cpuResponseFromPeriph then s.bridge.obiRvalid else s.mem.cpuRvalid

def cpuRdata (s : State) (i : Inputs) : BitVec 32 :=
  if s.cpuResponseFromPeriph then ObiToApb.obiRdata s.bridge
  else MemSubsystem.cpuRdata s.mem (memInputs s i)

/-! ## Registers -/

/-- `rom` is the firmware image in the boot ROM. -/
def step (rom : BitVec 10 → BitVec 32) (s : State) (i : Inputs) : State where
  cpuResponseFromPeriph :=
    if i.cpuReq && cpuGnt s i then cpuIsPeriph i else s.cpuResponseFromPeriph
  arbiter := DmaArbiter.step s.arbiter (arbiterInputs s i)
  mem := MemSubsystem.step rom s.mem (memInputs s i)
  bridge := ObiToApb.step s.bridge (bridgeInputs s i)
  dmaRegs := DmaRegs.step s.dmaRegs (dmaRegsInputs s)
  dmaCore := DmaMaster.step s.dmaCore (dmaCoreInputs s i)
  mac := MacSubsystem.step s.mac (macInputs s i)
  telemetry := Telemetry.step s.telemetry (telemetryInputs s i)

def reset (s : State) : State where
  cpuResponseFromPeriph := false
  arbiter := DmaArbiter.reset
  mem := MemSubsystem.reset s.mem
  bridge := ObiToApb.reset s.bridge
  dmaRegs := DmaRegs.reset
  dmaCore := DmaMaster.reset s.dmaCore
  mac := MacSubsystem.reset s.mac
  telemetry := Telemetry.reset s.telemetry

/-- The system `t` cycles after reset. -/
def after (rom : BitVec 10 → BitVec 32) (s₀ : State) (ins : ℕ → Inputs) (t : ℕ) : State :=
  Clocked.run (step rom) (reset s₀) ins t

theorem after_succ (rom : BitVec 10 → BitVec 32) (s₀ : State) (ins : ℕ → Inputs) (t : ℕ) :
    after rom s₀ ins (t + 1) = step rom (after rom s₀ ins t) (ins t) := rfl

/-! ## Wiring facts -/

/-- The peripheral bus never inserts a wait state. -/
theorem bus_ready (s : State) (i : Inputs) : (bridgeInputs s i).pready = true :=
  ApbBus.mPready_of_slaves rfl rfl rfl

/-- Memory grants the arbiter's request unless the CPU asks or the address is outside
the range the decode passes on. -/
theorem dmaMGnt_eq (s : State) (i : Inputs) :
    dmaMGnt s i = (dmaMReq s && dmaInMemory (dmaMAddr s) && !cpuIsMem i) := by
  unfold dmaMGnt MemSubsystem.dmaGnt
  simp [memInputs]

/-! ## A CPU on its own -/

/-- One access of the data port, of a full word. -/
def cpuAccess (we : Bool) (addr wdata : BitVec 32) : Inputs where
  instrReq := false
  instrAddr := 0
  cpuReq := true
  cpuWe := we
  cpuBe := 0xF
  cpuAddr := addr
  cpuWdata := wdata
  unknown := 0

def cpuIdle : Inputs := { cpuAccess false 0 0 with cpuReq := false }

/-- A system whose unreset registers and memories are all zero. -/
def powerUp : State where
  cpuResponseFromPeriph := false
  arbiter := DmaArbiter.reset
  mem := ⟨false, false, 0, 0, 0, ⟨fun _ => 0, 0⟩, false, false, false, 0⟩
  bridge := ⟨false, 0, 0, false, false, false, 0, .idle⟩
  dmaRegs := DmaRegs.reset
  dmaCore := ⟨false, false, false, false, 0, false, 0, .idle, 0, 0, 0, 0⟩
  mac := {
    multicore := MacMulticore.reset
    core0 := zeroCore
    core1 := zeroCore
    core2 := zeroCore
    core3 := zeroCore
    dma := ⟨false, false, false, false, false, 0, false, 0, 0, false, 0, false, false, .idle, 0, 0,
      0⟩ }
  telemetry := ⟨0, 0, 0, 0, 0, 0, 0, 0, 0, 0, false⟩
where
  zeroCore : MacCoreAxi.State 32 32 8 :=
    ⟨0, 0, fun _ _ => 0, fun _ => 0, fun _ => 0, false, SystolicArray.reset, .idle, 0, 0, false, 0,
      false, false⟩

end MiniMac.Soc.SocTop
