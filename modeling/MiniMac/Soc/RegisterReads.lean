/-
# Soc.RegisterReads -- reading the peripherals' registers

A load from one of the three peripherals crosses the slave's read mux, the bus's
response mux, the bridge's capture register and the response mux of the CPU's port.
Two things stand between a register and the CPU: the read data of telemetry is not
connected, so every one of its registers reads zero, and a memory request in the two
cycles after the load turns the port away from the bridge.  `register_read_iff` says
that nothing else does.
-/
import MiniMac.Soc.CpuPort

namespace MiniMac.Soc.SocTop

open MiniMac.Theory MiniMac.Theory.InOrder MiniMac.Core MiniMac.Accel MiniMac.Bus

set_option autoImplicit false

/-- The slaves on the peripheral bus. -/
inductive Peripheral where
  | dma
  | mac
  | telemetry
  deriving DecidableEq

namespace Peripheral

/-- The page of its registers: `address[15:12]`. -/
def page : Peripheral → BitVec 4
  | .dma => 0x0
  | .mac => 0x1
  | .telemetry => 0x2

/-- What its own read logic gives for an address. -/
def prdata (p : Peripheral) (s : State) (i : Inputs) (addr : BitVec 32) : BitVec 32 :=
  match p with
  | .dma => DmaRegs.prdata s.dmaRegs { dmaRegsInputs s with paddr := addr }
  | .mac => MacSubsystem.prdata s.mac { macInputs s i with paddr := addr }
  | .telemetry => Telemetry.prdata s.telemetry { telemetryInputs s i with paddr := addr }

/-- What the bus carries of it. -/
def connected (p : Peripheral) (s : State) (i : Inputs) (addr : BitVec 32) : BitVec 32 :=
  if p = .telemetry then 0 else p.prdata s i addr

end Peripheral

section Runs

variable (rom : BitVec 10 → BitVec 32) (s₀ : State) (ins : ℕ → Inputs)

/-- The peripheral path accepts a load from a register of `p`. -/
structure Load (p : Peripheral) (t : ℕ) : Prop where
  taken : acceptedBy rom s₀ ins .periph t = true
  load : (ins t).cpuWe = false
  page : (ins t).cpuAddr.extractLsb' 12 4 = p.page

/-- The load of cycle `t` has its access in cycle `a`, and the port then shows the
bridge's response to it, with the slave's read data of the access cycle. -/
structure Returned (p : Peripheral) (t a : ℕ) : Prop where
  access : (after rom s₀ ins a).bridge.state = .access
  path : Pairs (acceptedBy rom s₀ ins .periph) (pathResponds rom s₀ ins .periph) t (a + 1)
  shown : (after rom s₀ ins (a + 1)).cpuResponseFromPeriph = true
  data : cpuRdata (after rom s₀ ins (a + 1)) (ins (a + 1)) =
    p.prdata (after rom s₀ ins a) (ins a) (ins t).cpuAddr

variable {rom s₀ ins} {p : Peripheral} {t : ℕ}

/-- The bus hands the bridge what is connected of the selected slave. -/
theorem bus_prdata {s : State} (i : Inputs) {addr : BitVec 32} (held : s.bridge.paddr = addr)
    (selected : s.bridge.psel = true) (page : addr.extractLsb' 12 4 = p.page) :
    (bridgeInputs s i).prdata = p.connected s i addr := by
  subst held
  unfold bridgeInputs ApbBus.mPrdata ApbBus.sPsel Peripheral.connected
  cases p <;> simp only [busInputs, selected, page, Peripheral.page, if_true] <;> rfl

namespace Load

variable (load : Load rom s₀ ins p t)

include load

/-- The bridge holds the load through its access. -/
theorem carries :
    (after rom s₀ ins (t + 2)).bridge.paddr = (ins t).cpuAddr ∧
      (after rom s₀ ins (t + 2)).bridge.psel = true := by
  have taken := load.taken
  rw [acceptedBy_periph, Bool.and_eq_true, beq_iff_eq] at taken
  have first : (after rom s₀ ins (t + 1)).bridge.paddr = (ins t).cpuAddr ∧
      (after rom s₀ ins (t + 1)).bridge.psel = true := by
    rw [after_succ, step, ObiToApb.step_accept taken.2 taken.1]
    exact ⟨rfl, rfl⟩
  rw [after_succ, step, ObiToApb.step_setup (busy_after load.taken).1]
  exact first

/-- The bridge answers with what is connected of the slave. -/
theorem captured :
    pathRdata rom s₀ ins .periph (t + 3) =
      p.connected (after rom s₀ ins (t + 2)) (ins (t + 2)) (ins t).cpuAddr := by
  obtain ⟨paddr, psel⟩ := load.carries
  have last : (after rom s₀ ins (t + 3)).bridge = _ :=
    ObiToApb.step_access (busy_after load.taken).2
      (bus_ready (after rom s₀ ins (t + 2)) (ins (t + 2)))
  rw [← bus_prdata (ins (t + 2)) paddr psel load.page]
  show ObiToApb.obiRdata _ = _
  rw [last]
  rfl

/-- Only a memory request turns the port away from the bridge. -/
theorem mux_iff :
    (after rom s₀ ins (t + 3)).cpuResponseFromPeriph = true ↔
      cpuIsMem (ins (t + 1)) = false ∧ cpuIsMem (ins (t + 2)) = false := by
  obtain ⟨setup, access⟩ := busy_after load.taken
  rw [← acceptedBy_memory rom s₀ ins, ← acceptedBy_memory rom s₀ ins]
  constructor
  · intro shown
    have turned {u : ℕ} (soon : u = t + 1 ∨ u = t + 2) :
        acceptedBy rom s₀ ins .memory u = false := by
      by_contra request
      rw [mux_turned load.taken soon (by simpa using request)] at shown
      cases shown
    exact ⟨turned (.inl rfl), turned (.inr rfl)⟩
  · rintro ⟨first, second⟩
    have request : cpuIsPeriph (ins t) = true := by
      have taken := load.taken
      rw [acceptedBy_periph, Bool.and_eq_true] at taken
      exact taken.1
    rw [mux_succ, accepted_eq, periph_refused (by rw [access]; decide), second, Bool.or_false,
      if_neg Bool.false_ne_true, mux_succ, accepted_eq, periph_refused (by rw [setup]; decide),
      first, Bool.or_false, if_neg Bool.false_ne_true, mux_succ, accepted_eq, load.taken,
      Bool.true_or, if_pos rfl, request]

/-- The access of a load is two cycles behind it. -/
theorem access_eq {a : ℕ} (returned : Returned rom s₀ ins p t a) : a = t + 2 := by
  have same := returned.path.unique ((periph_delayed rom s₀ ins).pairs (by omega) load.taken)
  omega

end Load

end Runs

/-- **A load returns its register exactly when no memory request follows it too soon and
the register is not one of telemetry's with something in it.** -/
theorem register_read_iff (rom : BitVec 10 → BitVec 32) (s₀ : State) (ins : ℕ → Inputs)
    (p : Peripheral) (t : ℕ) (load : Load rom s₀ ins p t) :
    (∃ a, Returned rom s₀ ins p t a) ↔
      (cpuIsMem (ins (t + 1)) = false ∧ cpuIsMem (ins (t + 2)) = false) ∧
        (p = .telemetry →
          p.prdata (after rom s₀ ins (t + 2)) (ins (t + 2)) (ins t).cpuAddr = 0) := by
  have captured := load.captured
  constructor
  · rintro ⟨a, returned⟩
    obtain rfl := load.access_eq returned
    refine ⟨load.mux_iff.mp returned.shown, ?_⟩
    intro telemetry
    have data := returned.data
    rw [(shown (p := .periph) returned.shown).2, captured, Peripheral.connected,
      if_pos telemetry] at data
    exact data.symm
  · rintro ⟨alone, zero⟩
    have mux := load.mux_iff.mpr alone
    refine ⟨t + 2, (busy_after load.taken).2,
      (periph_delayed rom s₀ ins).pairs (by omega) load.taken, mux, ?_⟩
    rw [(shown (p := .periph) mux).2, captured, Peripheral.connected]
    split
    · next telemetry => exact (zero telemetry).symm
    · rfl

/-! ## Two loads -/

/-- Telemetry is enabled, and a register is read behind that. -/
def enableThenRead (addr : BitVec 32) (t : ℕ) : Inputs :=
  if t = 0 then cpuAccess true 0x40002000 1
  else if t = 3 then cpuAccess false addr 0
  else cpuIdle

/-- The weight buffer's address is read back. -/
theorem register_read_weight_base :
    ∃ a, Returned (fun _ => 0) powerUp (enableThenRead 0x40001020) .mac 3 a :=
  (register_read_iff (fun _ => 0) powerUp (enableThenRead 0x40001020) .mac 3
    ⟨by decide, rfl, by decide⟩).mpr ⟨⟨rfl, rfl⟩, fun other => by cases other⟩

/-- The enable bit of telemetry reads zero. -/
theorem telemetry_reads_zero :
    ¬ ∀ (rom : BitVec 10 → BitVec 32) (s₀ : State) (ins : ℕ → Inputs) (p : Peripheral) (t : ℕ),
      Load rom s₀ ins p t → ∃ a, Returned rom s₀ ins p t a := by
  intro claim
  have load : Load (fun _ => 0) powerUp (enableThenRead 0x40002000) .telemetry 3 :=
    ⟨by decide, rfl, by decide⟩
  obtain ⟨a, returned⟩ := claim _ _ _ _ _ load
  obtain rfl := load.access_eq returned
  have data := returned.data
  rw [(shown (p := .periph) returned.shown).2, load.captured] at data
  exact absurd data (by decide)

end MiniMac.Soc.SocTop
