/-
# Soc.CpuAccess -- one access of the processor after the other

A processor that waits for the response before it goes on never meets a busy bridge and
never turns the response mux away from it.  Its access of memory is over in the next cycle;
one of a peripheral passes the setup and the access phase first, and reaches the registers
in the latter only.
-/
import MiniMac.Soc.RegisterReads
import MiniMac.Soc.SoleClient

namespace MiniMac.Soc.SocTop

open MiniMac.Theory MiniMac.Core MiniMac.Accel MiniMac.Bus

set_option autoImplicit false

variable {rom : BitVec 10 → BitVec 32} {s : State} {i : Inputs} {addr : BitVec 32}

/-! ## Memory -/

/-- An access of memory is granted at once, and answered in the next cycle. -/
theorem memory_access (memory : cpuIsMem i = true) :
    cpuGnt s i = true ∧ cpuRvalid (step rom s i) = true := by
  obtain ⟨request, other⟩ := Bool.and_eq_true_iff.mp memory
  have periph : cpuIsPeriph i = false := (Bool.not_eq_true' _).mp other
  have granted : cpuGnt s i = true := by simp [cpuGnt, request, periph]
  refine ⟨granted, ?_⟩
  have mux : (step rom s i).cpuResponseFromPeriph = false := by
    simp [step, request, granted, periph]
  rw [cpuRvalid, mux, if_neg Bool.false_ne_true]
  exact memory

/-- The RAM takes a store of the processor. -/
theorem ram_cpu (memory : cpuIsMem i = true) (full : i.cpuBe = 0xF) :
    (step rom s i).mem.ram.mem =
      if i.cpuWe && MemSubsystem.inRam i.cpuAddr then
        Function.update s.mem.ram.mem (MemSubsystem.ramIndex i.cpuAddr) i.cpuWdata
      else s.mem.ram.mem := by
  have next : (step rom s i).mem.ram.mem =
      replay s.mem.ram.mem (MemSubsystem.grantedWrites s.mem (memInputs s i)) :=
    MemSubsystem.ram_step rom _ _
  have cpu : (memInputs s i).cpuReq = true := memory
  have word : MemSubsystem.ramWrite i.cpuAddr 0xF#4 i.cpuWdata =
      Write.store (MemSubsystem.ramIndex i.cpuAddr) i.cpuWdata :=
    congrArg (Write.mk _) (funext fun old => Macros.SramWrapper.writeLanes_full _ old)
  rw [next, MemSubsystem.grantedWrites_eq, (MemSubsystem.arb_of_cpu cpu).2]
  show replay _ (MemSubsystem.Access.writes ⟨i.cpuAddr, i.cpuWe, i.cpuBe, i.cpuWdata⟩) = _
  rw [full, MemSubsystem.Access.writes]
  split
  · exact congrArg (fun w => replay s.mem.ram.mem [w]) word
  · rfl

/-- With nobody at it the RAM stays as it is. -/
theorem ram_still (cpu : cpuIsMem i = false) (stream : s.mac.dma.mReqO = false)
    (copy : s.dmaCore.reqO = false) : (step rom s i).mem.ram.mem = s.mem.ram.mem := by
  have next : (step rom s i).mem.ram.mem =
      replay s.mem.ram.mem (MemSubsystem.grantedWrites s.mem (memInputs s i)) :=
    MemSubsystem.ram_step rom _ _
  have request : (memInputs s i).dmaReq = false := by
    simp [memInputs, dmaMReq, DmaArbiter.memReqO, arbiterRequests, stream, copy]
  rw [next, grantedWrites_dma (i := memInputs s i) cpu rfl, request]
  rfl

/-! ## Peripherals -/

/-- The bridge holds an access. -/
structure Held (s : State) (write : Bool) (addr data : BitVec 32) : Prop where
  selected : s.bridge.psel = true
  pwrite : s.bridge.pwrite = write
  paddr : s.bridge.paddr = addr
  pwdata : s.bridge.pwdata = data
  silent : s.bridge.obiRvalid = false
  mux : s.cpuResponseFromPeriph = true

structure InSetup (s : State) (write : Bool) (addr data : BitVec 32) : Prop
    extends Held s write addr data where
  phase : s.bridge.state = .setup
  disabled : s.bridge.penable = false

structure InAccess (s : State) (write : Bool) (addr data : BitVec 32) : Prop
    extends Held s write addr data where
  phase : s.bridge.state = .access
  enabled : s.bridge.penable = true

/-- The bridge shows its response. -/
structure Responding (s : State) (word : BitVec 32) : Prop extends BridgeIdle s where
  up : s.bridge.obiRvalid = true
  mux : s.cpuResponseFromPeriph = true
  data : s.bridge.obiRdataQ = word

theorem Held.noResponse {write : Bool} {data : BitVec 32} (held : Held s write addr data) :
    cpuRvalid s = false := by
  rw [cpuRvalid, held.mux, if_pos rfl]
  exact held.silent

theorem Responding.response {word : BitVec 32} (responding : Responding s word) (i : Inputs) :
    cpuRvalid s = true ∧ cpuRdata s i = word := by
  rw [cpuRvalid, cpuRdata, responding.mux, if_pos rfl, if_pos rfl]
  exact ⟨responding.up, responding.data⟩

/-- An idle bridge takes up an access. -/
theorem BridgeIdle.accept (idle : BridgeIdle s) (periph : cpuIsPeriph i = true) :
    cpuGnt s i = true ∧ InSetup (SocTop.step rom s i) i.cpuWe i.cpuAddr i.cpuWdata := by
  have request : i.cpuReq = true := (Bool.and_eq_true_iff.mp periph).1
  have granted : cpuGnt s i = true := by
    simp [cpuGnt, request, periph, ObiToApb.obiGnt, idle.bridge, bridgeInputs]
  have bridge : (SocTop.step rom s i).bridge = _ :=
    ObiToApb.step_accept (i := bridgeInputs s i) idle.bridge periph
  refine ⟨granted, ⟨⟨?_, ?_, ?_, ?_, ?_, ?_⟩, ?_, ?_⟩⟩
  · rw [bridge]
  · rw [bridge]
    rfl
  · rw [bridge]
    rfl
  · rw [bridge]
    rfl
  · rw [bridge]
  · simp [SocTop.step, request, granted, periph]
  · rw [bridge]
  · rw [bridge]
    exact idle.disabled

section Phases

variable {write : Bool} {data : BitVec 32} (silent : i.cpuReq = false)

include silent

theorem InSetup.step (setup : InSetup s write addr data) :
    InAccess (step rom s i) write addr data := by
  have bridge : (SocTop.step rom s i).bridge = _ :=
    ObiToApb.step_setup (i := bridgeInputs s i) setup.phase
  refine ⟨⟨?_, ?_, ?_, ?_, ?_, ?_⟩, ?_, ?_⟩
  · rw [bridge]
    exact setup.selected
  · rw [bridge]
    exact setup.pwrite
  · rw [bridge]
    exact setup.paddr
  · rw [bridge]
    exact setup.pwdata
  · rw [bridge]
    exact setup.silent
  · simp [SocTop.step, silent, setup.mux]
  · rw [bridge]
  · rw [bridge]

theorem InAccess.step (access : InAccess s write addr data) :
    Responding (step rom s i) (bridgeInputs s i).prdata := by
  have bridge : (SocTop.step rom s i).bridge = _ :=
    ObiToApb.step_access (i := bridgeInputs s i) access.phase (bus_ready s i)
  refine ⟨⟨?_, ?_, ?_⟩, ?_, ?_, ?_⟩
  · rw [bridge]
  · rw [bridge]
  · rw [bridge]
  · rw [bridge]
  · simp [SocTop.step, silent, access.mux]
  · rw [bridge]

end Phases

/-! ## The registers of the copy engine -/

/-- The registers see nothing but the access phase. -/
theorem regs_quiet (disabled : s.bridge.penable = false) :
    DmaRegs.writes (dmaRegsInputs s) = false := by
  simp [DmaRegs.writes, dmaRegsInputs, disabled]

/-- So do those of the accelerator, and an access of the copy engine's is none of theirs. -/
theorem mac_quiet (quiet : s.bridge.penable = false ∨ s.bridge.paddr.extractLsb' 12 4 = 0) :
    MacCfgRegs.startsJob (MacMulticore.regsInputs s.mac.multicore
      (MacSubsystem.multicoreInputs s.mac (macInputs s i))) = false := by
  rcases quiet with disabled | page
  · have penable : (macInputs s i).penable = false := disabled
    simp [MacCfgRegs.startsJob, MacCfgRegs.writes, MacMulticore.regsInputs,
      MacSubsystem.multicoreInputs, penable]
  · have psel : (macInputs s i).psel = false := by
      cases selected : s.bridge.psel <;> simp [macInputs, sPsel, ApbBus.sPsel, page, selected]
    simp [MacCfgRegs.startsJob, MacCfgRegs.writes, MacMulticore.regsInputs,
      MacSubsystem.multicoreInputs, psel]

namespace InAccess

variable {write : Bool} {data : BitVec 32} (access : InAccess s write addr data)
  (page : addr.extractLsb' 12 4 = 0)

include access page

theorem mac_quiet : MacCfgRegs.startsJob (MacMulticore.regsInputs s.mac.multicore
    (MacSubsystem.multicoreInputs s.mac (macInputs s i))) = false :=
  SocTop.mac_quiet (.inr (access.paddr ▸ page))

theorem writes : DmaRegs.writes (dmaRegsInputs s) = write := by
  have paddr : s.bridge.paddr.extractLsb' 12 4 = 0 := access.paddr ▸ page
  simp [DmaRegs.writes, dmaRegsInputs, sPsel, ApbBus.sPsel, access.selected, paddr,
    access.enabled, access.pwrite]

omit page in
theorem offset : DmaRegs.offset (dmaRegsInputs s) = addr.setWidth 8 := by
  rw [DmaRegs.offset, dmaRegsInputs, access.paddr]

/-- What a load of a register returns. -/
theorem prdata : (bridgeInputs s i).prdata = DmaRegs.prdata s.dmaRegs (dmaRegsInputs s) := by
  rw [bus_prdata (p := .dma) i access.paddr access.selected page]
  simp only [Peripheral.connected, Peripheral.prdata, reduceCtorEq, if_false]
  rw [← access.paddr]
  rfl

end InAccess

end MiniMac.Soc.SocTop
