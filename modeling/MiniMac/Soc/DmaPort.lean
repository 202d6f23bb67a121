/-
# Soc.DmaPort -- which DMA requests memory takes

The DMA port passes on addresses below `0xC0000000` only; the ranges above are
decoded for the accelerator's local buffers, which give no grant.  So a request
is served in the first cycle the CPU leaves the port free exactly when its
address is below (`dma_port_grants_iff`).  An address above is never granted: it
wedges its engine, and with the turn on its side the other engine too
(`Wedged.forever`).
-/
import MiniMac.Soc.SocTop

namespace MiniMac.Soc.SocTop

open MiniMac.Theory MiniMac.Core MiniMac.Accel MiniMac.Bus

set_option autoImplicit false

variable (rom : BitVec 10 → BitVec 32) (s₀ : State) (ins : ℕ → Inputs)

/-- The arbiter asks for the DMA port. -/
def DmaAsks (t : ℕ) : Prop :=
  DmaArbiter.memReqO (after rom s₀ ins t).arbiter (arbiterInputs (after rom s₀ ins t) (ins t)) =
    true

/-- The address the arbiter drives. -/
def dmaAddress (t : ℕ) : BitVec 32 :=
  DmaArbiter.memAddrO (after rom s₀ ins t).arbiter (arbiterInputs (after rom s₀ ins t) (ins t))

/-- The arbiter's request is granted in the cycle. -/
def DmaGranted (t : ℕ) : Prop := (arbiterInputs (after rom s₀ ins t) (ins t)).memGntI = true

/-- **With the CPU off the port, a DMA request is granted at once exactly when its
address is below `0xC0000000`.** -/
theorem dma_port_grants_iff (t : ℕ) (asks : DmaAsks rom s₀ ins t)
    (free : cpuIsMem (ins t) = false) :
    DmaGranted rom s₀ ins t ↔ (dmaAddress rom s₀ ins t).extractLsb' 28 4 < 0xC#4 := by
  have req : dmaMReq (after rom s₀ ins t) = true := asks
  unfold DmaGranted
  show dmaMGnt (after rom s₀ ins t) (ins t) = true ↔ _
  rw [dmaMGnt_eq, req, free, Bool.true_and, Bool.not_false, Bool.and_true]
  exact decide_eq_true_iff

/-! ## A wedged port -/

/-- The copy engine asks for an address memory does not take, and it is its turn. -/
structure Wedged (s : State) : Prop where
  turn : s.arbiter.nextStreamQ = false
  asks : s.dmaCore.reqO = true
  outside : dmaInMemory s.dmaCore.addrO = false
  stage : s.dmaCore.state = .fetch ∧ s.dmaCore.addrO = s.dmaCore.currSrc ∨
    s.dmaCore.state = .store ∧ s.dmaCore.addrO = s.dmaCore.currDst

/-- Neither engine is granted. -/
theorem Wedged.refused {s : State} (wedged : Wedged s) (i : Inputs) :
    dmaMGnt s i = false ∧ (dmaCoreInputs s i).gntI = false ∧ (macInputs s i).mGntI = false := by
  have select : DmaArbiter.selectStream s.arbiter (arbiterRequests s) = false := by
    simp [DmaArbiter.selectStream, arbiterRequests, wedged.asks, wedged.turn]
  have addr : dmaMAddr s = s.dmaCore.addrO := by
    rw [dmaMAddr, DmaArbiter.memAddrO, select]
    rfl
  have refused : dmaMGnt s i = false := by
    rw [dmaMGnt_eq, addr, wedged.outside]
    simp
  refine ⟨refused, ?_, ?_⟩
  · simp [dmaCoreInputs, DmaArbiter.copyGntO, arbiterInputs, refused]
  · simp [macInputs, DmaArbiter.streamGntO, arbiterInputs, refused]

theorem Wedged.step {s : State} (wedged : Wedged s) (i : Inputs) :
    Wedged (SocTop.step rom s i) := by
  obtain ⟨refused, copy, -⟩ := wedged.refused i
  have grant : (arbiterInputs s i).memGntI = false := refused
  have turn : (SocTop.step rom s i).arbiter.nextStreamQ = false := by
    have kept := DmaArbiter.step_nextStreamQ s.arbiter (arbiterInputs s i)
    rw [grant, Bool.and_false, if_neg Bool.false_ne_true] at kept
    exact kept.trans wedged.turn
  have engine : (SocTop.step rom s i).dmaCore = DmaMaster.step s.dmaCore (dmaCoreInputs s i) := rfl
  rcases wedged.stage with ⟨phase, addr⟩ | ⟨phase, addr⟩
  · rw [DmaMaster.step_fetch phase, copy] at engine
    refine ⟨turn, by rw [engine]; rfl, ?_, .inl ⟨by rw [engine]; rfl, by rw [engine]⟩⟩
    rw [engine]
    exact addr ▸ wedged.outside
  · rw [DmaMaster.step_store phase copy] at engine
    refine ⟨turn, by rw [engine], ?_, .inr ⟨by rw [engine]; exact phase, by rw [engine]⟩⟩
    rw [engine]
    exact addr ▸ wedged.outside

variable {s₀ ins}

/-- **A wedged port stays wedged**: no DMA request is ever granted again, whatever the
CPU does. -/
theorem Wedged.forever {t : ℕ} (wedged : Wedged (after rom s₀ ins t)) (u : ℕ) (later : t ≤ u) :
    Wedged (after rom s₀ ins u) ∧ ¬ DmaGranted rom s₀ ins u := by
  have stays : Wedged (after rom s₀ ins u) :=
    Clocked.invariant_from (P := fun _ s => Wedged s) wedged
      (fun v _ wedged => wedged.step rom (ins v)) u later
  refine ⟨stays, ?_⟩
  have refused := (stays.refused (ins u)).1
  unfold DmaGranted
  show ¬ dmaMGnt _ _ = true
  rw [refused]
  exact Bool.false_ne_true

/-! ## Two transfers -/

/-- The copy engine is given a source address and started. -/
def copyFrom (src : BitVec 32) (t : ℕ) : Inputs :=
  if t = 0 then cpuAccess true 0x40000000 src
  else if t = 3 then cpuAccess true 0x4000000C 1
  else cpuIdle

theorem dma_port_grants_ram : DmaGranted (fun _ => 0) powerUp (copyFrom 0x10000000) 8 :=
  (dma_port_grants_iff (fun _ => 0) powerUp (copyFrom 0x10000000) 8
    (by unfold DmaAsks; decide) rfl).mpr (by decide)

/-- A copy from the local result buffer is refused with the CPU off the port. -/
theorem dma_port_refuses_local :
    ¬ ∀ (rom : BitVec 10 → BitVec 32) (s₀ : State) (ins : ℕ → Inputs) (t : ℕ),
      DmaAsks rom s₀ ins t → cpuIsMem (ins t) = false → DmaGranted rom s₀ ins t := by
  intro claim
  have granted := claim (fun _ => 0) powerUp (copyFrom 0xC0000000) 8
    (by unfold DmaAsks; decide) rfl
  exact absurd granted (by unfold DmaGranted; decide)

end MiniMac.Soc.SocTop
