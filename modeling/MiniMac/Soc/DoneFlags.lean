/-
# Soc.DoneFlags -- completions and register writes in one cycle

Both register files keep a completion in a sticky bit that a write can clear, and
both assign the write after the pulse.  A completion is therefore visible in
STATUS until the next clearing write exactly when no clearing write falls in its
own cycle, also one that was aimed at an earlier completion.
-/
import MiniMac.Core.DmaRegs
import MiniMac.Accel.MacCfgRegs
import MiniMac.Theory.StickyBit

namespace MiniMac.Soc.DoneFlags

open MiniMac.Theory MiniMac.Core MiniMac.Accel

set_option autoImplicit false

/-! ## The copy engine's flag -/

section Dma

variable (s₀ : DmaRegs.State) (ins : ℕ → DmaRegs.Inputs)

def dmaRegsAt (t : ℕ) : DmaRegs.State := Clocked.run DmaRegs.step s₀ ins t

theorem dma_sticky :
    StickyBit (fun t => (ins t).doneI) (fun t => DmaRegs.clearsDone (ins t))
      fun t => (dmaRegsAt s₀ ins t).doneSticky := by
  constructor
  intro t
  exact DmaRegs.step_doneSticky _ _

/-- From the cycle after `t` until the next clearing write, a read of STATUS returns
a one in the done bit. -/
def DmaStatusShows (t : ℕ) : Prop :=
  ∀ n, (∀ u, t < u → u ≤ t + n → DmaRegs.clearsDone (ins u) = false) →
    ∀ read, DmaRegs.offset read = 0x10 →
      (DmaRegs.prdata (dmaRegsAt s₀ ins (t + 1 + n)) read).getLsbD 1 = true

theorem dma_shows_iff {t : ℕ} (pulse : (ins t).doneI = true) :
    DmaStatusShows s₀ ins t ↔ DmaRegs.clearsDone (ins t) = false := by
  rw [← (dma_sticky s₀ ins).remembered_iff pulse]
  constructor
  · intro shows_ n quiet
    -- any read of STATUS will do
    let read : DmaRegs.Inputs := ⟨0x10, true, true, false, 0, false, false, false⟩
    have bit := shows_ n quiet read rfl
    rwa [DmaRegs.prdata_status _ read rfl] at bit
  · intro remembers n quiet read status
    rw [DmaRegs.prdata_status _ read status]
    exact remembers n quiet

end Dma

/-! ## The accelerator's flag -/

section Mac

variable (s₀ : MacCfgRegs.State) (ins : ℕ → MacCfgRegs.Inputs)

def macRegsAt (t : ℕ) : MacCfgRegs.State := Clocked.run MacCfgRegs.step s₀ ins t

theorem mac_sticky :
    StickyBit (fun t => (ins t).doneI) (fun t => MacCfgRegs.clearsDone (ins t))
      fun t => (macRegsAt s₀ ins t).stickyDone := by
  constructor
  intro t
  exact MacCfgRegs.step_stickyDone _ _

def MacStatusShows (t : ℕ) : Prop :=
  ∀ n, (∀ u, t < u → u ≤ t + n → MacCfgRegs.clearsDone (ins u) = false) →
    ∀ read, MacCfgRegs.offset read = 0x04 →
      (MacCfgRegs.prdata (macRegsAt s₀ ins (t + 1 + n)) read).getLsbD 1 = true

theorem mac_shows_iff {t : ℕ} (pulse : (ins t).doneI = true) :
    MacStatusShows s₀ ins t ↔ MacCfgRegs.clearsDone (ins t) = false := by
  rw [← (mac_sticky s₀ ins).remembered_iff pulse]
  constructor
  · intro shows_ n quiet
    let read : MacCfgRegs.Inputs :=
      ⟨0x04, true, true, false, 0, false, false, false, false, false⟩
    have bit := shows_ n quiet read rfl
    rwa [BitVec.getLsbD_eq_getElem (by decide), MacCfgRegs.prdata_status _ read rfl] at bit
  · intro remembers n quiet read status
    rw [BitVec.getLsbD_eq_getElem (by decide), MacCfgRegs.prdata_status _ read status]
    exact remembers n quiet

end Mac

/-! ## Both register files -/

/-- **A completion stays visible exactly when no clearing write falls in its cycle.** -/
theorem completion_shows_iff (d₀ : DmaRegs.State) (dmaIns : ℕ → DmaRegs.Inputs)
    (m₀ : MacCfgRegs.State) (macIns : ℕ → MacCfgRegs.Inputs) (t : ℕ) :
    ((dmaIns t).doneI = true →
      (DmaStatusShows d₀ dmaIns t ↔ DmaRegs.clearsDone (dmaIns t) = false)) ∧
    ((macIns t).doneI = true →
      (MacStatusShows m₀ macIns t ↔ MacCfgRegs.clearsDone (macIns t) = false)) := by
  constructor
  · intro pulse
    exact dma_shows_iff d₀ dmaIns pulse
  · intro pulse
    exact mac_shows_iff m₀ macIns pulse

/-- An interrupt acknowledge in the cycle of a completion. -/
def ackAtDone : DmaRegs.Inputs := ⟨0x14, true, true, true, 1, true, true, false⟩

/-- A write-one-to-clear of the accelerator's STATUS in the cycle of a completion. -/
def clearAtDone : MacCfgRegs.Inputs :=
  ⟨0x04, true, true, true, 2, true, true, false, false, false⟩

/-- A completion in the cycle of a register read. -/
def readAtDone : DmaRegs.Inputs := ⟨0x10, true, true, false, 0, true, true, false⟩

theorem completion_shows_at_read :
    ∃ read, DmaRegs.offset read = 0x10 ∧
      (DmaRegs.prdata (dmaRegsAt DmaRegs.reset (fun _ => readAtDone) 1) read).getLsbD 1 = true := by
  have seen := ((completion_shows_iff DmaRegs.reset (fun _ => readAtDone) MacCfgRegs.reset
    (fun _ => clearAtDone) 0).1 rfl).mpr (by decide)
  exact ⟨readAtDone, rfl, seen 0 (fun u low high => by omega) readAtDone rfl⟩

/-- The write in the cycle of the completion wipes it, in either register file. -/
theorem completion_wiped :
    (¬ ∀ s₀ ins t, (ins t).doneI = true → DmaStatusShows s₀ ins t) ∧
      ¬ ∀ s₀ ins t, (ins t).doneI = true → MacStatusShows s₀ ins t := by
  constructor
  · intro claim
    have seen := claim DmaRegs.reset (fun _ => ackAtDone) 0 rfl
    exact absurd (seen 0 (fun u low high => by omega) readAtDone rfl) (by decide)
  · intro claim
    have seen := claim MacCfgRegs.reset (fun _ => clearAtDone) 0 rfl
    exact absurd (seen 0 (fun u low high => by omega) clearAtDone rfl) (by decide)

end MiniMac.Soc.DoneFlags
