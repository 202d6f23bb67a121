/-
# Core.DmaMaster -- the word-copy DMA

One state machine with one memory port: it fetches a word, waits for the read
data, stores it, and moves on until the byte count is used up.  The request is a
register that goes down on the grant, so it is never up in a cycle after it was
served.

Start, addresses and length are looked at in the idle phase only.
-/
import Mathlib.Data.BitVec

namespace MiniMac.Core.DmaMaster

set_option autoImplicit false

inductive Phase where
  | idle
  | fetch
  | waitR
  | store
  | done
  deriving DecidableEq

structure Inputs where
  srcAddrI : BitVec 32
  dstAddrI : BitVec 32
  lengthI : BitVec 16
  startI : Bool
  gntI : Bool
  rvalidI : Bool
  rdataI : BitVec 32

structure State where
  busyO : Bool
  doneO : Bool
  errO : Bool
  reqO : Bool
  addrO : BitVec 32
  weO : Bool
  wdataO : BitVec 32
  state : Phase
  currSrc : BitVec 32
  currDst : BitVec 32
  dataBuffer : BitVec 32
  bytesLeft : BitVec 16

/-- Reset leaves the port's address and data and the transfer's registers as they are. -/
def reset (s : State) : State :=
  { s with
    state := .idle
    busyO := false
    doneO := false
    errO := false
    reqO := false }

/-- The alignment check on a start. -/
def aligned (srcAddrI dstAddrI : BitVec 32) : Bool :=
  srcAddrI.extractLsb' 0 2 == 0 && dstAddrI.extractLsb' 0 2 == 0

def step (s : State) (i : Inputs) : State :=
  match s.state with
  | .idle =>
      if i.startI then
        if aligned i.srcAddrI i.dstAddrI then
          { s with
            doneO := false
            currSrc := i.srcAddrI
            currDst := i.dstAddrI
            bytesLeft := i.lengthI
            busyO := true
            state := .fetch }
        else
          { s with
            doneO := false
            errO := true }
      else { s with doneO := false }
  | .fetch =>
      { s with
        reqO := !i.gntI
        weO := false
        addrO := s.currSrc
        state := if i.gntI then .waitR else .fetch }
  | .waitR =>
      if i.rvalidI then
        { s with
          dataBuffer := i.rdataI
          state := .store }
      else s
  | .store =>
      if i.gntI then
        { s with
          reqO := false
          weO := true
          addrO := s.currDst
          wdataO := s.dataBuffer
          currSrc := s.currSrc + 4
          currDst := s.currDst + 4
          bytesLeft := if s.bytesLeft ≤ 4 then s.bytesLeft else s.bytesLeft - 4
          state := if s.bytesLeft ≤ 4 then .done else .fetch }
      else
        { s with
          reqO := true
          weO := true
          addrO := s.currDst
          wdataO := s.dataBuffer }
  | .done =>
      { s with
        busyO := false
        doneO := true
        state := .idle }

/-- A start the idle engine accepts. -/
def accepts (s : State) (i : Inputs) : Bool :=
  s.state == .idle && i.startI && aligned i.srcAddrI i.dstAddrI

/-! ## One edge in each phase -/

section Phases

variable {s : State} {i : Inputs}

theorem step_accepts (accepted : accepts s i = true) :
    step s i =
      { s with
        doneO := false
        currSrc := i.srcAddrI
        currDst := i.dstAddrI
        bytesLeft := i.lengthI
        busyO := true
        state := .fetch } := by
  simp only [accepts, Bool.and_eq_true, beq_iff_eq] at accepted
  obtain ⟨⟨phase, start⟩, place⟩ := accepted
  simp [step, phase, start, place]

/-- Without an accepted start an idle engine changes its two flags at most. -/
theorem step_rests (phase : s.state = .idle) (refused : accepts s i = false) :
    ∃ err, step s i = { s with doneO := false, errO := err } := by
  simp only [accepts, phase, beq_self_eq_true, Bool.true_and] at refused
  cases start : i.startI with
  | false => exact ⟨s.errO, by simp [step, phase, start]⟩
  | true =>
      rw [start, Bool.true_and] at refused
      exact ⟨true, by simp [step, phase, start, refused]⟩

theorem step_idle (phase : s.state = .idle) (refused : accepts s i = false) :
    (step s i).state = .idle ∧ (step s i).reqO = s.reqO ∧ (step s i).doneO = false := by
  obtain ⟨err, rests⟩ := step_rests phase refused
  rw [rests]
  exact ⟨phase, rfl, rfl⟩

theorem step_fetch (phase : s.state = .fetch) :
    step s i =
      { s with
        reqO := !i.gntI
        weO := false
        addrO := s.currSrc
        state := if i.gntI then .waitR else .fetch } := by
  rw [step, phase]

theorem step_waitR (phase : s.state = .waitR) (silent : i.rvalidI = false) : step s i = s := by
  simp [step, phase, silent]

theorem step_response (phase : s.state = .waitR) (valid : i.rvalidI = true) :
    step s i =
      { s with
        dataBuffer := i.rdataI
        state := .store } := by
  simp [step, phase, valid]

theorem step_store (phase : s.state = .store) (stalled : i.gntI = false) :
    step s i =
      { s with
        reqO := true
        weO := true
        addrO := s.currDst
        wdataO := s.dataBuffer } := by
  simp [step, phase, stalled]

theorem step_stored (phase : s.state = .store) (grant : i.gntI = true) :
    step s i =
      { s with
        reqO := false
        weO := true
        addrO := s.currDst
        wdataO := s.dataBuffer
        currSrc := s.currSrc + 4
        currDst := s.currDst + 4
        bytesLeft := if s.bytesLeft ≤ 4 then s.bytesLeft else s.bytesLeft - 4
        state := if s.bytesLeft ≤ 4 then .done else .fetch } := by
  simp [step, phase, grant]

theorem step_done (phase : s.state = .done) :
    step s i =
      { s with
        busyO := false
        doneO := true
        state := .idle } := by
  rw [step, phase]

/-- A busy engine, or one that signals its end, was busy or has just been started. -/
theorem step_busy (busy : (step s i).state ≠ .idle ∨ (step s i).doneO = true) :
    s.state ≠ .idle ∨ accepts s i = true := by
  by_cases phase : s.state = .idle
  · refine .inr ?_
    by_contra refused
    obtain ⟨idle, -, notDone⟩ := step_idle phase (Bool.not_eq_true _ ▸ refused)
    rcases busy with busy | done
    · exact busy idle
    · simp [notDone] at done
  · exact .inl phase

/-- A busy engine that becomes idle signals it. -/
theorem step_done_of_idle (busy : s.state ≠ .idle) (idle : (step s i).state = .idle) :
    (step s i).doneO = true := by
  cases phase : s.state with
  | idle => exact absurd phase busy
  | fetch =>
      rw [step_fetch phase] at idle
      cases grant : i.gntI <;> simp [grant] at idle
  | waitR =>
      cases valid : i.rvalidI with
      | false => rw [step_waitR phase valid] at idle; exact absurd idle busy
      | true => rw [step_response phase valid] at idle; cases idle
  | store =>
      cases grant : i.gntI with
      | false => rw [step_store phase grant] at idle; exact absurd idle busy
      | true =>
          have next : (step s i).state = if s.bytesLeft ≤ 4 then .done else .fetch := by
            rw [step_stored phase grant]
          rw [next] at idle
          split at idle <;> cases idle
  | done => rw [step_done phase]

/-- `done_o` is up in the idle phase only. -/
theorem step_notDone (notDone : s.state ≠ .idle → s.doneO = false)
    (busy : (step s i).state ≠ .idle) : (step s i).doneO = false := by
  cases phase : s.state with
  | idle =>
      rcases step_busy (.inl busy) with contra | accepted
      · exact absurd phase contra
      · rw [step_accepts accepted]
  | fetch => rw [step_fetch phase]; exact notDone (by simp [phase])
  | waitR =>
      cases valid : i.rvalidI with
      | false => rw [step_waitR phase valid]; exact notDone (by simp [phase])
      | true => rw [step_response phase valid]; exact notDone (by simp [phase])
  | store =>
      cases grant : i.gntI with
      | false => rw [step_store phase grant]; exact notDone (by simp [phase])
      | true => rw [step_stored phase grant]; exact notDone (by simp [phase])
  | done => exact absurd (by rw [step_done phase]) busy

end Phases

end MiniMac.Core.DmaMaster
