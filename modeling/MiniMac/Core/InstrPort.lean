/-
# Core.InstrPort -- every fetch is answered once

The instruction port has one response slot.  A grant captures the ROM word and
keeps the slot busy for one cycle, so no grant follows a grant at once, the
captured word is still there when `instr_rvalid` comes up, and `instr_rvalid`
is the grant two cycles late.  Nothing of this depends on the other ports.
-/
import MiniMac.Core.ReadResponses
import MiniMac.Theory.InOrder

namespace MiniMac.Core.MemSubsystem

open MiniMac.Theory MiniMac.Theory.InOrder

set_option autoImplicit false

section Edge

variable {rom : BitVec 10 → BitVec 32} {s : State} {i : Inputs}

/-- A grant captures the ROM word of its own address. -/
theorem step_instrDataQ (gnt : instrGnt s i = true) :
    (step rom s i).instrDataQ = rom (romIndex i.instrAddr) := by
  have free : i.instrReq = true ∧ s.instrPending = false := by simpa [instrGnt] using gnt
  simp [step, gnt, romRdata, free]

theorem step_instrDataQ_idle (idle : instrGnt s i = false) :
    (step rom s i).instrDataQ = s.instrDataQ := by
  simp [step, idle]

end Edge

variable (rom : BitVec 10 → BitVec 32) (s₀ : State) (ins : ℕ → Inputs)

/-- A fetch is granted in the cycle. -/
def instrGranted (t : ℕ) : Bool := instrGnt (after rom s₀ ins t) (ins t)

/-- The slot is busy in the cycle after a grant, and in no other. -/
theorem instrPending_succ (t : ℕ) :
    (after rom s₀ ins (t + 1)).instrPending = instrGranted rom s₀ ins t :=
  instrPending_step rom _ _

theorem instr_delayed :
    Delayed 2 (instrGranted rom s₀ ins) fun t => (after rom s₀ ins t).instrRvalid where
  early := by
    intro t soon
    obtain rfl | rfl : t = 0 ∨ t = 1 := by omega
    · rfl
    · rfl
  delayed t := instrPending_succ rom s₀ ins t

/-- The captured word survives the cycle in which the slot is busy. -/
theorem instrRdata_of_granted {g : ℕ} (granted : instrGranted rom s₀ ins g = true) :
    instrRdata (after rom s₀ ins (g + 2)) = rom (romIndex (ins g).instrAddr) := by
  have busy : instrGnt (after rom s₀ ins (g + 1)) (ins (g + 1)) = false := by
    rw [instrGnt, instrPending_succ, granted, Bool.not_true, Bool.and_false]
  calc instrRdata (after rom s₀ ins (g + 2))
      = (after rom s₀ ins (g + 1)).instrDataQ := step_instrDataQ_idle busy
    _ = rom (romIndex (ins g).instrAddr) := step_instrDataQ granted

theorem granted_of_refused {t : ℕ} (req : (ins t).instrReq = true)
    (refused : instrGranted rom s₀ ins t = false) :
    ∃ g, t = g + 1 ∧ instrGranted rom s₀ ins g = true := by
  have busy : (after rom s₀ ins t).instrPending = true := by
    simpa [instrGranted, instrGnt, req] using refused
  cases t with
  | zero => cases busy
  | succ g => exact ⟨g, rfl, (instrPending_succ rom s₀ ins g).symm.trans busy⟩

/-- **The instruction port delivers every fetch exactly once**: a response comes two
cycles after each grant and at no other time, with the ROM word of the grant's
address, and a request is refused only in the cycle after a grant. -/
theorem instr_port_exact :
    (∀ t, (after rom s₀ ins t).instrRvalid = true ↔
      ∃ g, t = g + 2 ∧ instrGranted rom s₀ ins g = true) ∧
    (∀ g, instrGranted rom s₀ ins g = true →
      instrRdata (after rom s₀ ins (g + 2)) = rom (romIndex (ins g).instrAddr)) ∧
    ∀ t, (ins t).instrReq = true → instrGranted rom s₀ ins t = false →
      ∃ g, t = g + 1 ∧ instrGranted rom s₀ ins g = true := by
  have delayed := instr_delayed rom s₀ ins
  refine ⟨?_, ?_, ?_⟩
  · intro t
    constructor
    · intro valid
      exact delayed.request valid
    · rintro ⟨g, rfl, granted⟩
      exact (delayed.delayed g).trans granted
  · intro g granted
    exact instrRdata_of_granted rom s₀ ins granted
  · intro t req refused
    exact granted_of_refused rom s₀ ins req refused

/-- With a new address in every cycle, the fetch of cycle 2 is answered in cycle 4 with the
word of its own address. -/
example : instrRdata (after (fun a => a.setWidth 32) numbered
    (fun t => { quiet with instrReq := true, instrAddr := BitVec.ofNat 32 (4 * t) }) 4) = 2 := by
  decide

end MiniMac.Core.MemSubsystem
