/-
# System.Computer -- the chip with its processor

The processor's data port drives the chip, and the chip's answers drive the processor, which
executes what the boot ROM holds.  What is left open in every cycle is whether the processor
goes on, what it fetches ahead, and what an array read outside the array returns.

From one instruction to the next (`Boundary`) the chip goes through the cycles of at most
one access; `advance` says that the board behind it takes one step.
-/
import MiniMac.System.BoardState
import MiniMac.Theory.LeadsTo

namespace MiniMac.System

open MiniMac.Theory MiniMac.Theory.Rv32i MiniMac.Core MiniMac.Accel MiniMac.Soc
open MiniMac.Soc.SocTop (ram)

set_option autoImplicit false

namespace Computer

/-- What is open in a cycle. -/
structure Env where
  /-- The processor goes on. -/
  go : Bool
  instrReq : Bool
  instrAddr : BitVec 32
  unknown : BitVec 32

structure State where
  chip : SocTop.State
  core : Core

/-- The instruction that the ROM holds for a word address.  Nothing is known of a processor
at another address. -/
def fetchRom (rom : BitVec 10 → BitVec 32) (pc : BitVec 32) : Option Instr :=
  if isWord pc then decode (rom (MemSubsystem.romIndex pc)) else none

/-- The chip's inputs, with a request of the processor or without. -/
def dataPort (e : Env) : Option Access → SocTop.Inputs
  | none => {
      instrReq := e.instrReq
      instrAddr := e.instrAddr
      cpuReq := false
      cpuWe := false
      cpuBe := 0
      cpuAddr := 0
      cpuWdata := 0
      unknown := e.unknown }
  | some a => {
      instrReq := e.instrReq
      instrAddr := e.instrAddr
      cpuReq := true
      cpuWe := a.write
      cpuBe := 0xF
      cpuAddr := a.addr
      cpuWdata := a.data
      unknown := e.unknown }

def inputs (rom : BitVec 10 → BitVec 32) (c : State) (e : Env) : SocTop.Inputs :=
  dataPort e (c.core.request (fetchRom rom) e.go)

def port (c : State) (i : SocTop.Inputs) : Port where
  gnt := SocTop.cpuGnt c.chip i
  rvalid := SocTop.cpuRvalid c.chip
  rdata := SocTop.cpuRdata c.chip i

def step (rom : BitVec 10 → BitVec 32) (c : State) (e : Env) : State where
  chip := SocTop.step rom c.chip (inputs rom c e)
  core := c.core.step (fetchRom rom) e.go (port c (inputs rom c e))

/-- The processor starts at the reset address, with whatever its registers hold. -/
def reset (s₀ : SocTop.State) (regs : BitVec 5 → BitVec 32) : State where
  chip := SocTop.reset s₀
  core := ⟨⟨0x80, regs, 0⟩, false⟩

section Runs

variable (rom : BitVec 10 → BitVec 32) (s₀ : SocTop.State) (regs : BitVec 5 → BitVec 32)
  (env : ℕ → Env)

def after (t : ℕ) : State := Clocked.run (step rom) (reset s₀ regs) env t

/-- The processor over the run. -/
def coreAt (t : ℕ) : Core := (after rom s₀ regs env t).core

/-- What the chip sees. -/
def insAt (t : ℕ) : SocTop.Inputs := inputs rom (after rom s₀ regs env t) (env t)

def chipAt (t : ℕ) : SocTop.State := SocTop.after rom s₀ (insAt rom s₀ regs env) t

/-- The chip in the computer runs as a chip on its own. -/
theorem after_chip (t : ℕ) : (after rom s₀ regs env t).chip = chipAt rom s₀ regs env t :=
  Clocked.eq_run (x := fun u => (after rom s₀ regs env u).chip) rfl (fun _ => rfl) t

theorem insAt_eq (t : ℕ) : insAt rom s₀ regs env t =
    dataPort (env t) ((coreAt rom s₀ regs env t).request (fetchRom rom) (env t).go) := rfl

theorem coreAt_succ (t : ℕ) : coreAt rom s₀ regs env (t + 1) =
    (coreAt rom s₀ regs env t).step (fetchRom rom) (env t).go
      ⟨SocTop.cpuGnt (chipAt rom s₀ regs env t) (insAt rom s₀ regs env t),
        SocTop.cpuRvalid (chipAt rom s₀ regs env t),
        SocTop.cpuRdata (chipAt rom s₀ regs env t) (insAt rom s₀ regs env t)⟩ := by
  rw [← after_chip]
  rfl

/-- Between two instructions: no access is open, and the chip shows the board. -/
structure Boundary (b : Board) (t : ℕ) (copy : Option (DmaMaster.Transfer × ℕ)) : Prop
    extends Calm rom s₀ (insAt rom s₀ regs env) b.device t copy where
  core : coreAt rom s₀ regs env t = ⟨b.machine, false⟩
  bridge : SocTop.BridgeIdle (chipAt rom s₀ regs env t)

end Runs

variable {rom : BitVec 10 → BitVec 32} {s₀ : SocTop.State} {regs : BitVec 5 → BitVec 32}
  {env : ℕ → Env} {b : Board} {t : ℕ} {copy : Option (DmaMaster.Transfer × ℕ)}

/-! ## Cycles without a request -/

section Silent

variable (silent : (coreAt rom s₀ regs env t).request (fetchRom rom) (env t).go = none)

include silent

theorem cpuReq_silent : (insAt rom s₀ regs env t).cpuReq = false := by
  rw [insAt_eq, silent]
  rfl

theorem cpuIsMem_silent : SocTop.cpuIsMem (insAt rom s₀ regs env t) = false := by
  simp [SocTop.cpuIsMem, cpuReq_silent silent]

theorem cpuIsPeriph_silent : SocTop.cpuIsPeriph (insAt rom s₀ regs env t) = false := by
  simp [SocTop.cpuIsPeriph, cpuReq_silent silent]

/-- An idle bridge and a chip that shows the board stay so. -/
theorem calm_silent {dev : Device} (calm : Calm rom s₀ (insAt rom s₀ regs env) dev t copy)
    (bridge : SocTop.BridgeIdle (chipAt rom s₀ regs env t)) :
    Calm rom s₀ (insAt rom s₀ regs env) dev (t + 1) copy ∧
      SocTop.BridgeIdle (chipAt rom s₀ regs env (t + 1)) :=
  ⟨calm.quiet (cpuIsMem_silent silent) (SocTop.regs_quiet bridge.disabled)
      (SocTop.mac_quiet (.inl bridge.disabled)),
    bridge.step (cpuIsPeriph_silent silent)⟩

end Silent

/-- While the processor does not go on, nothing changes. -/
theorem Boundary.rest (boundary : Boundary rom s₀ regs env b t copy) (rests : (env t).go = false) :
    Boundary rom s₀ regs env b (t + 1) copy := by
  have silent : (coreAt rom s₀ regs env t).request (fetchRom rom) (env t).go = none := by
    rw [rests]
    exact Core.request_rest _
  obtain ⟨calm, bridge⟩ := calm_silent silent boundary.toCalm boundary.bridge
  refine ⟨calm, ?_, bridge⟩
  rw [coreAt_succ, boundary.core, rests]
  exact Core.step_rest _ _

/-- An instruction without an access is done in a cycle. -/
theorem Boundary.compute (boundary : Boundary rom s₀ regs env b t copy) (go : (env t).go = true)
    {i : Instr} (here : fetchRom rom b.machine.pc = some i)
    (inner : access b.machine i = none) :
    Boundary rom s₀ regs env ⟨retire b.machine i 0, b.device⟩ (t + 1) copy := by
  have silent : (coreAt rom s₀ regs env t).request (fetchRom rom) (env t).go = none := by
    rw [boundary.core, go, Core.request_go here]
    exact inner
  obtain ⟨calm, bridge⟩ := calm_silent silent boundary.toCalm boundary.bridge
  refine ⟨calm, ?_, bridge⟩
  rw [coreAt_succ, boundary.core, go]
  exact Core.step_compute here inner

/-! ## Accesses of the RAM -/

section Access

variable {i : Instr} {a : Access}

/-- The request of a processor that goes on. -/
theorem Boundary.request (boundary : Boundary rom s₀ regs env b t copy) (go : (env t).go = true)
    (here : fetchRom rom b.machine.pc = some i) (asks : access b.machine i = some a) :
    insAt rom s₀ regs env t = dataPort (env t) (some a) := by
  rw [insAt_eq, boundary.core, go, Core.request_go here, asks]

/-- An access of the RAM takes two cycles. -/
theorem Boundary.memory (boundary : Boundary rom s₀ regs env b t copy) (go : (env t).go = true)
    (here : fetchRom rom b.machine.pc = some i) (asks : access b.machine i = some a)
    (inside : MemSubsystem.inRam a.addr = true) (free : b.device.copying = false)
    {mem : BitVec 11 → BitVec 32} (stored : mem = if a.write then
      Function.update b.device.ram (MemSubsystem.ramIndex a.addr) a.data else b.device.ram) :
    Calm rom s₀ (insAt rom s₀ regs env) { b.device with ram := mem } (t + 1) none ∧
      coreAt rom s₀ regs env (t + 1) = ⟨b.machine, true⟩ ∧
      ∃ word, Boundary rom s₀ regs env ⟨retire b.machine i word, { b.device with ram := mem }⟩
        (t + 2) none := by
  have request := boundary.request go here asks
  have page : a.addr.extractLsb' 20 12 = 0x100#12 := eq_of_beq inside
  have periph : SocTop.cpuIsPeriph (insAt rom s₀ regs env t) = false := by
    rw [request]
    simp [SocTop.cpuIsPeriph, dataPort, page]
  have memory : SocTop.cpuIsMem (insAt rom s₀ regs env t) = true := by
    rw [SocTop.cpuIsMem, periph, request]
    rfl
  obtain ⟨granted, valid⟩ :
      SocTop.cpuGnt (chipAt rom s₀ regs env t) (insAt rom s₀ regs env t) = true ∧
        SocTop.cpuRvalid (chipAt rom s₀ regs env (t + 1)) = true :=
    SocTop.memory_access memory
  have waits : coreAt rom s₀ regs env (t + 1) = ⟨b.machine, true⟩ := by
    rw [coreAt_succ, boundary.core, go]
    exact Core.step_granted here asks granted
  have calm : Calm rom s₀ (insAt rom s₀ regs env) { b.device with ram := mem } (t + 1) none := by
    refine boundary.toCalm.memory free memory (by rw [request]; rfl) boundary.bridge.disabled _
      ⟨⟨boundary.registers.src, boundary.registers.dst, boundary.registers.length⟩, free, rfl⟩ ?_
    rw [request]
    show mem = if a.write && MemSubsystem.inRam a.addr then
      Function.update b.device.ram (MemSubsystem.ramIndex a.addr) a.data else b.device.ram
    rw [stored, inside, Bool.and_true]
  have silent :
      (coreAt rom s₀ regs env (t + 1)).request (fetchRom rom) (env (t + 1)).go = none := by
    rw [waits]
    exact Core.request_waiting _ _
  obtain ⟨calm', bridge⟩ := calm_silent silent calm (boundary.bridge.step periph)
  refine ⟨calm, waits, SocTop.cpuRdata (chipAt rom s₀ regs env (t + 1))
    (insAt rom s₀ regs env (t + 1)), ⟨calm', ?_, bridge⟩⟩
  rw [coreAt_succ, waits]
  exact Core.step_answered here valid

/-! ## Accesses of registers -/

variable (rom s₀ regs env) in
/-- The cycles of an access of a register that began in cycle `t`: the setup, the access
phase, and the response. -/
structure Flight (b : Board) (i : Instr) (a : Access) (t : ℕ)
    (copy : Option (DmaMaster.Transfer × ℕ)) : Prop where
  setup : Calm rom s₀ (insAt rom s₀ regs env) b.device (t + 1) copy
  access : Calm rom s₀ (insAt rom s₀ regs env) b.device (t + 2) copy
  bus : SocTop.InAccess (chipAt rom s₀ regs env (t + 2)) a.write a.addr a.data
  silent : (insAt rom s₀ regs env (t + 2)).cpuReq = false
  waits : ∀ n < 3, coreAt rom s₀ regs env (t + 1 + n) = ⟨b.machine, true⟩
  response : ∀ dev copy', Calm rom s₀ (insAt rom s₀ regs env) dev (t + 3) copy' →
    Calm rom s₀ (insAt rom s₀ regs env) dev (t + 4) copy'
  bridge : SocTop.BridgeIdle (chipAt rom s₀ regs env (t + 4))
  core : coreAt rom s₀ regs env (t + 4) =
    ⟨Theory.Rv32i.retire b.machine i (SocTop.bridgeInputs (chipAt rom s₀ regs env (t + 2))
      (insAt rom s₀ regs env (t + 2))).prdata, false⟩

theorem isCopyReg_page {addr : BitVec 32} (reg : isCopyReg addr = true) :
    addr.extractLsb' 20 12 = 0x400#12 ∧ addr.extractLsb' 12 4 = 0x0#4 := by
  simpa [isCopyReg] using reg

theorem Boundary.register (boundary : Boundary rom s₀ regs env b t copy) (go : (env t).go = true)
    (here : fetchRom rom b.machine.pc = some i) (asks : access b.machine i = some a)
    (reg : isCopyReg a.addr = true) : Flight rom s₀ regs env b i a t copy := by
  have request := boundary.request go here asks
  have periph : SocTop.cpuIsPeriph (insAt rom s₀ regs env t) = true := by
    rw [request]
    simp [SocTop.cpuIsPeriph, dataPort, (isCopyReg_page reg).1]
  have cpu : SocTop.cpuIsMem (insAt rom s₀ regs env t) = false := by
    simp [SocTop.cpuIsMem, periph]
  obtain ⟨granted, setup⟩ :
      SocTop.cpuGnt (chipAt rom s₀ regs env t) (insAt rom s₀ regs env t) = true ∧
        SocTop.InSetup (chipAt rom s₀ regs env (t + 1)) (insAt rom s₀ regs env t).cpuWe
          (insAt rom s₀ regs env t).cpuAddr (insAt rom s₀ regs env t).cpuWdata :=
    boundary.bridge.accept periph
  have setup : SocTop.InSetup (chipAt rom s₀ regs env (t + 1)) a.write a.addr a.data := by
    rw [request] at setup
    exact setup
  have first : coreAt rom s₀ regs env (t + 1) = ⟨b.machine, true⟩ := by
    rw [coreAt_succ, boundary.core, go]
    exact Core.step_granted here asks granted
  have silent {u : ℕ} (waits : coreAt rom s₀ regs env u = ⟨b.machine, true⟩) :
      (coreAt rom s₀ regs env u).request (fetchRom rom) (env u).go = none := by
    rw [waits]
    exact Core.request_waiting _ _
  have stays {u : ℕ} (waits : coreAt rom s₀ regs env u = ⟨b.machine, true⟩)
      (none : SocTop.cpuRvalid (chipAt rom s₀ regs env u) = false) :
      coreAt rom s₀ regs env (u + 1) = ⟨b.machine, true⟩ := by
    rw [coreAt_succ, waits]
    exact Core.step_silent here none
  have calm₁ : Calm rom s₀ (insAt rom s₀ regs env) b.device (t + 1) copy :=
    boundary.toCalm.quiet cpu (SocTop.regs_quiet boundary.bridge.disabled)
      (SocTop.mac_quiet (.inl boundary.bridge.disabled))
  have bus : SocTop.InAccess (chipAt rom s₀ regs env (t + 2)) a.write a.addr a.data :=
    setup.step (cpuReq_silent (silent first))
  have second := stays first setup.noResponse
  have calm₂ : Calm rom s₀ (insAt rom s₀ regs env) b.device (t + 2) copy :=
    calm₁.quiet (cpuIsMem_silent (silent first)) (SocTop.regs_quiet setup.disabled)
      (SocTop.mac_quiet (.inl setup.disabled))
  have responding : SocTop.Responding (chipAt rom s₀ regs env (t + 3))
      (SocTop.bridgeInputs (chipAt rom s₀ regs env (t + 2))
        (insAt rom s₀ regs env (t + 2))).prdata :=
    bus.step (cpuReq_silent (silent second))
  have third := stays second bus.noResponse
  refine ⟨calm₁, calm₂, bus, cpuReq_silent (silent second), ?_, ?_, ?_, ?_⟩
  · intro n within
    obtain rfl | rfl | rfl : n = 0 ∨ n = 1 ∨ n = 2 := by omega
    · exact first
    · exact second
    · exact third
  · intro dev copy' calm
    exact (calm_silent (silent third) calm responding.toBridgeIdle).1
  · exact responding.toBridgeIdle.step (cpuIsPeriph_silent (silent third))
  · obtain ⟨valid, word⟩ := responding.response (insAt rom s₀ regs env (t + 3))
    rw [← word, coreAt_succ, third]
    exact Core.step_answered here valid

end Access

end Computer

end MiniMac.System
