/-
# Bus.ObiToApb -- the bridge from the CPU's data port to the peripheral bus

An idle bridge grants a request at once, latches it, and takes it through the
setup and the access phase; the read data and `obi_rvalid` follow the cycle in
which the access ends.
-/
import Mathlib.Data.BitVec

namespace MiniMac.Bus.ObiToApb

set_option autoImplicit false

inductive Phase where
  | idle
  | setup
  | access
  deriving DecidableEq

structure Inputs where
  obiReq : Bool
  obiAddr : BitVec 32
  obiWe : Bool
  obiWdata : BitVec 32
  prdata : BitVec 32
  pready : Bool

structure State where
  obiRvalid : Bool
  obiRdataQ : BitVec 32
  paddr : BitVec 32
  psel : Bool
  penable : Bool
  pwrite : Bool
  pwdata : BitVec 32
  state : Phase

/-- Reset leaves the latched request as it is. -/
def reset (s : State) : State :=
  { s with
    state := .idle
    psel := false
    penable := false
    obiRvalid := false
    obiRdataQ := 0 }

def obiGnt (s : State) (i : Inputs) : Bool := s.state == .idle && i.obiReq

/-- The source's default arm is for the one encoding no phase has. -/
def step (s : State) (i : Inputs) : State :=
  match s.state with
  | .idle =>
      if i.obiReq then
        { s with
          obiRvalid := false
          paddr := i.obiAddr
          pwrite := i.obiWe
          pwdata := i.obiWdata
          psel := true
          state := .setup }
      else { s with obiRvalid := false }
  | .setup =>
      { s with
        penable := true
        state := .access }
  | .access =>
      if i.pready then
        { s with
          obiRdataQ := i.prdata
          psel := false
          penable := false
          obiRvalid := true
          state := .idle }
      else s

def obiRdata (s : State) : BitVec 32 := s.obiRdataQ

/-! ## One edge in each phase -/

section Phases

variable {s : State} {i : Inputs}

theorem step_idle (phase : s.state = .idle) (quiet : i.obiReq = false) :
    step s i = { s with obiRvalid := false } := by
  simp [step, phase, quiet]

theorem step_accept (phase : s.state = .idle) (req : i.obiReq = true) :
    step s i =
      { s with
        obiRvalid := false
        paddr := i.obiAddr
        pwrite := i.obiWe
        pwdata := i.obiWdata
        psel := true
        state := .setup } := by
  simp [step, phase, req]

theorem step_setup (phase : s.state = .setup) :
    step s i =
      { s with
        penable := true
        state := .access } := by
  rw [step, phase]

theorem step_access (phase : s.state = .access) (ready : i.pready = true) :
    step s i =
      { s with
        obiRdataQ := i.prdata
        psel := false
        penable := false
        obiRvalid := true
        state := .idle } := by
  simp [step, phase, ready]

theorem step_state_setup : ((step s i).state == .setup) = obiGnt s i := by
  unfold obiGnt step
  cases phase : s.state <;> cases i.obiReq <;> cases i.pready <;> simp [phase]

theorem step_state_access :
    ((step s i).state == .access) = (s.state == .setup || s.state == .access && !i.pready) := by
  unfold step
  cases phase : s.state <;> cases i.obiReq <;> cases i.pready <;> simp [phase]
  rfl

/-- A response is shown in the idle phase only. -/
def Quiet (s : State) : Prop := s.obiRvalid = true → s.state = .idle

/-- It follows the cycle in which an access ends. -/
theorem step_obiRvalid (quiet : Quiet s) :
    (step s i).obiRvalid = (s.state == .access && i.pready) := by
  unfold Quiet at quiet
  unfold step
  cases phase : s.state <;> cases i.obiReq <;> cases i.pready <;> simp_all

theorem Quiet.step (quiet : Quiet s) : Quiet (step s i) := by
  intro up
  rw [step_obiRvalid quiet, Bool.and_eq_true, beq_iff_eq] at up
  rw [step_access up.1 up.2]

/-- `penable` is up in the access phase only. -/
def Enabled (s : State) : Prop := s.penable = true → s.state = .access

theorem Enabled.step (enabled : Enabled s) : Enabled (step s i) := by
  unfold Enabled at enabled ⊢
  unfold ObiToApb.step
  cases phase : s.state <;> cases i.obiReq <;> cases i.pready <;> simp_all

/-- An access that ends is followed by a cycle without one. -/
theorem Enabled.apart (enabled : Enabled s) (ready : i.pready = true) (up : s.penable = true) :
    (ObiToApb.step s i).penable = false := by
  rw [step_access (enabled up) ready]

end Phases

end MiniMac.Bus.ObiToApb
