/-
# Core.DmaJobs -- the copy engine behind its registers

The register file's outputs are the engine's start, addresses and length, and
the engine's busy, done and error lines are what STATUS shows.  A start write
clears the done flag in its own cycle, but the engine sees the start pulse one
cycle later and looks at it in its idle phase only.  So the flag tells the truth
about the last start write as long as every start pulse meets an idle engine
that is not just signalling the end of an earlier transfer
(`done_sticky_sound`); otherwise the write is lost, or the old completion shows.
-/
import MiniMac.Core.DmaRegs
import MiniMac.Core.ForwardCopy
import MiniMac.Theory.StickyBit
import Mathlib.Tactic.IntervalCases

namespace MiniMac.Core.DmaJobs

open MiniMac.Theory CopySystem

set_option autoImplicit false

/-- An APB access, and what memory does in the cycle. -/
structure Inputs where
  paddr : BitVec 32
  psel : Bool
  penable : Bool
  pwrite : Bool
  pwdata : BitVec 32
  memGnt : Bool
  answer : Option ℕ
  unknown : BitVec 32

structure State where
  regs : DmaRegs.State
  copy : CopySystem.State

def regsInputs (s : State) (i : Inputs) : DmaRegs.Inputs where
  paddr := i.paddr
  psel := i.psel
  penable := i.penable
  pwrite := i.pwrite
  pwdata := i.pwdata
  busyI := s.copy.dma.busyO
  doneI := s.copy.dma.doneO
  errI := s.copy.dma.errO

def copyInputs (s : State) (i : Inputs) : CopySystem.Inputs where
  srcAddrI := s.regs.srcAddrO
  dstAddrI := s.regs.dstAddrO
  lengthI := s.regs.lengthO
  startI := s.regs.startO
  memGnt := i.memGnt
  answer := i.answer
  unknown := i.unknown

def step (s : State) (i : Inputs) : State where
  regs := DmaRegs.step s.regs (regsInputs s i)
  copy := CopySystem.step s.copy (copyInputs s i)

/-- The registers and the engine come up from reset; memory holds what it holds. -/
def reset (c : CopySystem.State) : State where
  regs := DmaRegs.reset
  copy := CopySystem.reset c

section Runs

variable (c₀ : CopySystem.State) (ins : ℕ → Inputs)

def after (t : ℕ) : State := Clocked.run step (reset c₀) ins t

/-- What the engine and its memory see in cycle `t`. -/
def copyIns (t : ℕ) : CopySystem.Inputs := copyInputs (after c₀ ins t) (ins t)

/-- What the register file sees in cycle `t`. -/
def regsIns (t : ℕ) : DmaRegs.Inputs := regsInputs (after c₀ ins t) (ins t)

/-- The engine's part of a run is a run of the engine. -/
theorem copy_after (t : ℕ) : (after c₀ ins t).copy = CopySystem.after c₀ (copyIns c₀ ins) t := by
  induction t with
  | zero => rfl
  | succ t ih =>
      rw [CopySystem.after_succ, ← ih]
      rfl

/-- A start write is performed in the cycle. -/
def StartWrite (t : ℕ) : Prop := DmaRegs.startWrite (regsIns c₀ ins t) = true

/-- The last start write before cycle `t` is the one of cycle `w`. -/
structure LastStart (w t : ℕ) : Prop where
  before : w < t
  write : StartWrite c₀ ins w
  last : ∀ u, w < u → u < t → ¬ StartWrite c₀ ins u

/-- The transfer a start write asks for, from the registers as they are at the write
and the memory as it is when the engine sees the start. -/
def requested (w : ℕ) : Transfer where
  mem := (after c₀ ins (w + 1)).copy.mem
  src := (after c₀ ins w).regs.srcAddrO
  dst := (after c₀ ins w).regs.dstAddrO
  length := (after c₀ ins w).regs.lengthO

/-- By cycle `t` memory has seen exactly the accesses of the transfer the write of
cycle `w` asked for, and holds its result. -/
def Performed (w t : ℕ) : Prop :=
  0 < (requested c₀ ins w).length.toNat →
    ∃ d, d < t ∧
      accesses c₀ (copyIns c₀ ins) (w + 1) d =
        (requested c₀ ins w).trace (requested c₀ ins w).words ∧
      (after c₀ ins d).copy.mem = (requested c₀ ins w).copied (requested c₀ ins w).words

/-- The start pulse of the write meets an idle engine that signals no completion. -/
structure Ready (w : ℕ) : Prop where
  idle : (after c₀ ins (w + 1)).copy.dma.state = .idle
  quiet : (after c₀ ins (w + 1)).copy.dma.doneO = false

variable {c₀ ins}

/-- The done flag remembers the engine's pulses. -/
theorem sticky : StickyBit (fun t => (after c₀ ins t).copy.dma.doneO)
    (fun t => DmaRegs.clearsDone (regsIns c₀ ins t))
    fun t => (after c₀ ins t).regs.doneSticky := by
  constructor
  intro t
  exact DmaRegs.step_doneSticky _ _

theorem startO_succ (t : ℕ) :
    (after c₀ ins (t + 1)).regs.startO = DmaRegs.startWrite (regsIns c₀ ins t) :=
  DmaRegs.step_startO _ _

/-- An accepted start is the start pulse of a write in the cycle before. -/
theorem write_of_accepted {s : ℕ} (accepted : Accepted c₀ (copyIns c₀ ins) s) :
    ∃ w, s = w + 1 ∧ StartWrite c₀ ins w := by
  have start : (after c₀ ins s).regs.startO = true := by
    simp only [Accepted, DmaMaster.accepts, Bool.and_eq_true] at accepted
    exact accepted.1.2
  cases s with
  | zero => exact absurd start Bool.false_ne_true
  | succ w =>
      rw [startO_succ] at start
      exact ⟨w, rfl, start⟩

/-- An engine that has accepted a start stays busy until it signals the end. -/
theorem busy_until_done {s t : ℕ} (accepted : Accepted c₀ (copyIns c₀ ins) s) (later : s < t)
    (silent : ∀ u, s < u → u ≤ t → (after c₀ ins u).copy.dma.doneO = false) :
    (after c₀ ins t).copy.dma.state ≠ .idle := by
  induction t, later using Nat.le_induction with
  | base =>
      rw [copy_after]
      have engine : (CopySystem.after c₀ (copyIns c₀ ins) (s + 1)).dma = _ :=
        DmaMaster.step_accepts accepted
      rw [engine]
      simp
  | succ t later ih =>
      intro idle
      have busy := ih fun u low high => silent u low (by omega)
      have done : (after c₀ ins (t + 1)).copy.dma.doneO = true :=
        DmaMaster.step_done_of_idle busy idle
      rw [silent (t + 1) (by omega) (le_refl _)] at done
      cases done

/-- There is a last start write before a cycle if there is one at all. -/
theorem exists_lastStart {t : ℕ} (some_ : ∃ w, w < t ∧ StartWrite c₀ ins w) :
    ∃ w, LastStart c₀ ins w t := by
  induction t with
  | zero =>
      obtain ⟨w, before, -⟩ := some_
      omega
  | succ t ih =>
      by_cases here : StartWrite c₀ ins t
      · exact ⟨t, by omega, here, fun u low high => by omega⟩
      · obtain ⟨w, before, write⟩ := some_
        have earlier : w < t := by
          by_contra
          obtain rfl : w = t := by omega
          exact here write
        obtain ⟨v, last⟩ := ih ⟨w, earlier, write⟩
        refine ⟨v, by have := last.before; omega, last.write, ?_⟩
        intro u low high
        by_cases now : u = t
        · rw [now]
          exact here
        · exact last.last u low (by omega)

/-- A flag that is up was set by a transfer that was accepted and has signalled its
end since the last clearing write. -/
theorem exists_accepted {t : ℕ} (up : (after c₀ ins t).regs.doneSticky = true) :
    ∃ s d, d < t ∧ Accepted c₀ (copyIns c₀ ins) s ∧ DoneAfter c₀ (copyIns c₀ ins) s d ∧
      ∀ u, d ≤ u → u < t → DmaRegs.clearsDone (regsIns c₀ ins u) = false := by
  obtain ⟨d, before, done, quiet⟩ := sticky.exists_event rfl up
  rw [copy_after] at done
  obtain ⟨s, later, accepted, first⟩ := started d (.inr done)
  exact ⟨s, d, before, accepted, ⟨later, done, first⟩, quiet⟩

/-- The registers of the write are what the engine takes. -/
theorem requested_eq {w : ℕ} (write : StartWrite c₀ ins w) :
    requested c₀ ins w = transferAt c₀ (copyIns c₀ ins) (w + 1) := by
  have same := DmaRegs.step_of_startWrite (s := (after c₀ ins w).regs) write
  have src : (after c₀ ins (w + 1)).regs.srcAddrO = (after c₀ ins w).regs.srcAddrO := same.1
  have dst : (after c₀ ins (w + 1)).regs.dstAddrO = (after c₀ ins w).regs.dstAddrO := same.2.1
  have length : (after c₀ ins (w + 1)).regs.lengthO = (after c₀ ins w).regs.lengthO := same.2.2
  simp only [requested, transferAt, ← copy_after, copyIns, copyInputs, src, dst, length]

/-- **A start pulse that meets an idle, silent engine makes the flag tell the truth.** -/
theorem Ready.performed {w t : ℕ} (ready : Ready c₀ ins w) (last : LastStart c₀ ins w t)
    (up : (after c₀ ins t).regs.doneSticky = true) : Performed c₀ ins w t := by
  obtain ⟨s, d, before, accepted, ends, quiet⟩ := exists_accepted up
  obtain ⟨v, rfl, write⟩ := write_of_accepted accepted
  -- the write of `w` has cleared the flag, so the pulse that set it came later
  have after_write : w < d := by
    by_contra early
    have kept := quiet w (by omega) last.before
    rw [DmaRegs.clearsDone_of_startWrite last.write] at kept
    cases kept
  have silent : ∀ u, v + 1 < u → u < d → (after c₀ ins u).copy.dma.doneO = false := by
    intro u low high
    rw [copy_after]
    exact ends.first u high low
  have after_pulse : w + 1 < d := by
    have : d ≠ w + 1 := by
      rintro rfl
      have done := ends.done
      rw [← copy_after, ready.quiet] at done
      cases done
    omega
  -- the accepted start is the one of `w`: the engine is idle when that pulse comes
  have same : v = w := by
    rcases Nat.lt_trichotomy v w with earlier | same | later
    · refine absurd ready.idle (busy_until_done accepted (by omega) ?_)
      intro u low high
      exact silent u low (by omega)
    · exact same
    · have := ends.later
      exact absurd write (last.last v later (by omega))
  subst same
  intro length
  rw [requested_eq last.write] at length ⊢
  obtain ⟨trace, mem⟩ := accepted.copies length ends
  rw [← copy_after] at mem
  exact ⟨d, before, trace, mem⟩

/-- **A start pulse that meets a busy engine is lost**: nothing is accepted before the
next start write. -/
theorem start_lost {w t : ℕ} (last : LastStart c₀ ins w t)
    (busy : (after c₀ ins (w + 1)).copy.dma.state ≠ .idle) :
    ∀ s, w < s → s < t → ¬ Accepted c₀ (copyIns c₀ ins) s := by
  intro s later before accepted
  obtain ⟨v, rfl, write⟩ := write_of_accepted accepted
  by_cases same : v = w
  · subst same
    apply busy
    rw [copy_after]
    simp only [Accepted, DmaMaster.accepts, Bool.and_eq_true, beq_iff_eq] at accepted
    exact accepted.1.1
  · exact last.last v (by omega) (by omega) write

end Runs

/-- **The done flag is sound while starts meet an idle engine**: in every run in
which each start pulse meets an idle engine that signals no completion, a flag that
is up says that the transfer of the last start write has been performed. -/
theorem done_sticky_sound (c₀ : CopySystem.State) (ins : ℕ → Inputs)
    (ready : ∀ w, StartWrite c₀ ins w → Ready c₀ ins w) (t : ℕ)
    (up : (after c₀ ins t).regs.doneSticky = true) :
    ∃ w, LastStart c₀ ins w t ∧ Performed c₀ ins w t := by
  obtain ⟨s, d, before, accepted, ends, -⟩ := exists_accepted up
  obtain ⟨v, rfl, write⟩ := write_of_accepted accepted
  have earlier : v < t := by
    have := ends.later
    omega
  obtain ⟨w, last⟩ := exists_lastStart ⟨v, earlier, write⟩
  exact ⟨w, last, (ready w last.write).performed last up⟩

/-! ## One start, and a start too early -/

/-- An APB write in front of a memory that grants and answers at once. -/
def apbWrite (paddr pwdata : BitVec 32) : Inputs where
  paddr := paddr
  psel := true
  penable := true
  pwrite := true
  pwdata := pwdata
  memGnt := true
  answer := some 0
  unknown := 0

def apbIdle : Inputs :=
  { apbWrite 0 0 with
    psel := false
    penable := false }

/-- A copy of one word from address 0 to address 0. -/
def once : ℕ → Inputs
  | 0 => apbWrite 0x08 4
  | 1 => apbWrite 0x0C 1
  | _ => apbIdle

/-- A memory whose words are their indices. -/
def indices : CopySystem.State := powerUp fun a => a.setWidth 32

theorem done_sticky_sound_once : ∃ w, LastStart indices once w 10 ∧ Performed indices once w 10 :=
  done_sticky_sound indices once
    (fun w write => by
      match w, write with
      | 0, write => exact absurd write (by unfold StartWrite; decide)
      | 1, _ => exact ⟨by decide, by decide⟩
      | w + 2, write => exact absurd write (by simp [StartWrite, regsIns, regsInputs, once, apbIdle,
          DmaRegs.startWrite, DmaRegs.writes]))
    10 (by decide)

/-- The same, and a copy to address 4 that is started before the first one ends. -/
def twice : ℕ → Inputs
  | 0 => apbWrite 0x08 4
  | 1 => apbWrite 0x0C 1
  | 2 => apbWrite 0x04 4
  | 3 => apbWrite 0x0C 1
  | _ => apbIdle

/-- SRC and DST are written with aligned addresses. -/
def AlignedWrites (ins : ℕ → Inputs) : Prop :=
  ∀ t, (ins t).paddr.setWidth 8 = 0x00#8 ∨ (ins t).paddr.setWidth 8 = 0x04#8 →
    (ins t).pwdata.extractLsb' 0 2 = 0

theorem done_sticky_early_start :
    ¬ ∀ (c₀ : CopySystem.State) (ins : ℕ → Inputs), AlignedWrites ins → ∀ t,
      (after c₀ ins t).regs.doneSticky = true →
        ∃ w, LastStart c₀ ins w t ∧ Performed c₀ ins w t := by
  intro claim
  have aligned : AlignedWrites twice := by
    intro t addressed
    match t, addressed with
    | 0, _ | 2, _ => rfl
    | 1, addressed | 3, addressed => exact absurd addressed (by decide)
    | t + 4, _ => rfl
  obtain ⟨w, last, performed⟩ := claim indices twice aligned 10 (by decide)
  have second : StartWrite indices twice 3 := by unfold StartWrite; decide
  have found : w = 3 := by
    have before := last.before
    have write := last.write
    have recent : ¬ w < 3 := fun early => last.last 3 early (by omega) second
    unfold StartWrite at write
    interval_cases w
    · rfl
    all_goals exact absurd write (by decide)
  subst found
  obtain ⟨d, before, -, mem⟩ := performed (by decide)
  have copied := congrFun mem 1
  revert copied
  interval_cases d <;> decide

end MiniMac.Core.DmaJobs
