/-
# Accel.MacCoreAxi -- one MAC core

A core stores the operand beats it is sent, and on a start pulse loads the
weights into its array, feeds the activations for `M` cycles, drains for `N`,
captures one column per cycle for `N`, and streams the captured words out.

The buffers are filled through 12-bit write pointers that only a reset rewinds.
The local SRAM macros beside them are never read back and are left out, as is
the dimension `K`, which the state machine does not use.  `unknown` is what an
array read returns when its index is outside the array.
-/
import MiniMac.Accel.SystolicArray
import MiniMac.Theory.Clocked

namespace MiniMac.Accel.MacCoreAxi

open MiniMac.Theory

set_option autoImplicit false

inductive Phase where
  | idle
  | loadWgt
  | feed
  | drain
  | writeRes
  | streamOut
  deriving DecidableEq

structure Inputs where
  sAxisWgtTdata : BitVec 32
  sAxisWgtTvalid : Bool
  sAxisActTdata : BitVec 32
  sAxisActTvalid : Bool
  mAxisResTready : Bool
  coreStartI : Bool
  regMI : BitVec 8
  regNI : BitVec 8
  unknown : BitVec 32

structure State (rows cols dataW : ℕ) where
  wgtWaddr : BitVec 12
  actWaddr : BitVec 12
  wgtBuf : Fin rows → Fin cols → BitVec dataW
  actBuf : Fin rows → BitVec dataW
  resBuf : Fin cols → BitVec 32
  loadWgtR : Bool
  array : SystolicArray.State rows cols dataW
  state : Phase
  rCnt : BitVec 8
  cCnt : BitVec 8
  coreDoneO : Bool
  mAxisResTdata : BitVec 32
  mAxisResTvalid : Bool
  mAxisResTlast : Bool

variable {rows cols dataW : ℕ}

/-! ## Wires -/

/-- The comparison `cnt == reg - 1`, which is made on 32 bits. -/
def isLast (cnt reg : BitVec 8) : Bool := cnt.setWidth 32 == reg.setWidth 32 - 1

def rowInR (s : State rows cols dataW) (r : Fin rows) : BitVec dataW :=
  if s.state = .feed then s.actBuf r else 0

def arrayInputs (s : State rows cols dataW) : SystolicArray.Inputs rows cols dataW where
  loadWgt := s.loadWgtR
  rowIn := rowInR s
  wIn := s.wgtBuf
  colIn := fun _ => 0

def colOutWires (s : State rows cols dataW) (c : Fin cols) : BitVec 32 :=
  SystolicArray.colOut s.array (arrayInputs s) c

/-- A read of a column-indexed array. -/
def column (f : Fin cols → BitVec 32) (unknown : BitVec 32) (k : BitVec 8) : BitVec 32 :=
  if within : k.toNat < cols then f ⟨k.toNat, within⟩ else unknown

/-! ## Registers -/

/-- Reset leaves the counters, the result buffer and the result data as they are. -/
def reset (s : State rows cols dataW) : State rows cols dataW where
  wgtWaddr := 0
  actWaddr := 0
  wgtBuf := fun _ _ => 0
  actBuf := fun _ => 0
  resBuf := s.resBuf
  loadWgtR := false
  array := SystolicArray.reset
  state := .idle
  rCnt := s.rCnt
  cCnt := s.cCnt
  coreDoneO := false
  mAxisResTdata := s.mAxisResTdata
  mAxisResTvalid := false
  mAxisResTlast := false

/-- What every edge assigns before the buffers and the state machine. -/
def defaults (s : State rows cols dataW) : State rows cols dataW :=
  { s with
    loadWgtR := false
    array := SystolicArray.step s.array (arrayInputs s)
    mAxisResTvalid := false
    mAxisResTlast := false }

/-- The operand buffers and their pointers, assigned over `d`. -/
def capture (s : State rows cols dataW) (i : Inputs) (d : State rows cols dataW) :
    State rows cols dataW :=
  { d with
    wgtWaddr := if i.sAxisWgtTvalid then s.wgtWaddr + 1 else s.wgtWaddr
    actWaddr := if i.sAxisActTvalid then s.actWaddr + 1 else s.actWaddr
    wgtBuf := fun r c =>
      if i.sAxisWgtTvalid && decide (s.wgtWaddr.toNat < rows * cols) &&
          decide (s.wgtWaddr.toNat / cols = r ∧ s.wgtWaddr.toNat % cols = c) then
        i.sAxisWgtTdata.setWidth dataW
      else s.wgtBuf r c
    actBuf := fun r =>
      if i.sAxisActTvalid && decide (s.actWaddr.toNat < rows) && decide (s.actWaddr.toNat = r) then
        i.sAxisActTdata.setWidth dataW
      else s.actBuf r }

/-- The state machine's case, as assignments over `d`.  Its default arm is
for the two encodings no phase has. -/
def fsm (s : State rows cols dataW) (i : Inputs) (d : State rows cols dataW) :
    State rows cols dataW :=
  match s.state with
  | .idle =>
      { d with
        coreDoneO := false
        state := if i.coreStartI then .loadWgt else s.state }
  | .loadWgt =>
      { d with
        loadWgtR := true
        state := .feed
        rCnt := 0 }
  | .feed =>
      { d with
        rCnt := s.rCnt + 1
        state := if isLast s.rCnt i.regMI then .drain else s.state
        cCnt := if isLast s.rCnt i.regMI then 0 else s.cCnt }
  | .drain =>
      { d with
        cCnt := s.cCnt + 1
        state := if isLast s.cCnt i.regNI then .writeRes else s.state
        rCnt := if isLast s.cCnt i.regNI then 0 else s.rCnt }
  | .writeRes =>
      { d with
        resBuf := fun c =>
          if s.rCnt.toNat = c then column (colOutWires s) i.unknown s.rCnt else s.resBuf c
        state := if isLast s.rCnt i.regNI then .streamOut else s.state
        rCnt := if isLast s.rCnt i.regNI then 0 else s.rCnt + 1 }
  | .streamOut =>
      { d with
        mAxisResTvalid := true
        mAxisResTdata := column s.resBuf i.unknown s.rCnt
        rCnt := if i.mAxisResTready then s.rCnt + 1 else s.rCnt
        mAxisResTlast := i.mAxisResTready && isLast s.rCnt i.regNI
        coreDoneO := if i.mAxisResTready && isLast s.rCnt i.regNI then true else s.coreDoneO
        state := if i.mAxisResTready && isLast s.rCnt i.regNI then .idle else s.state }

def step (s : State rows cols dataW) (i : Inputs) : State rows cols dataW :=
  fsm s i (capture s i (defaults s))

/-- The dimensions make no difference where the comparison of the phase comes out the
same. -/
theorem step_dims {s : State rows cols dataW} {i : Inputs} {m n : BitVec 8}
    (feed : s.state = .feed → isLast s.rCnt i.regMI = isLast s.rCnt m)
    (drain : s.state = .drain → isLast s.cCnt i.regNI = isLast s.cCnt n)
    (writeRes : s.state = .writeRes → isLast s.rCnt i.regNI = isLast s.rCnt n)
    (streamOut : s.state = .streamOut → i.mAxisResTready = true →
      isLast s.rCnt i.regNI = isLast s.rCnt n) :
    step s
        { i with
          regMI := m
          regNI := n } =
      step s i := by
  unfold step
  cases phase : s.state with
  | idle => simp only [fsm, phase, capture]
  | loadWgt => simp only [fsm, phase, capture]
  | feed => simp only [fsm, phase, capture, feed phase]
  | drain => simp only [fsm, phase, capture, drain phase]
  | writeRes => simp only [fsm, phase, capture, writeRes phase]
  | streamOut =>
      cases ready : i.mAxisResTready with
      | false => simp only [fsm, phase, capture, ready, Bool.false_and]
      | true => simp only [fsm, phase, capture, ready, streamOut phase ready]

end MiniMac.Accel.MacCoreAxi
