/-
# Accel.OperandBuffers -- what the operand buffers hold

The weight and activation buffers are functions of the beats streamed since
reset and of nothing else: not of the state machine, of the gaps between beats
or of how the two streams interleave.  The write pointers are 12 bits wide, so
each buffer is the front part of a ring of 4096 slots.
-/
import MiniMac.Accel.MacCoreAxi
import MiniMac.Theory.RingSlots

namespace MiniMac.Accel.MacCoreAxi

open MiniMac.Theory

set_option autoImplicit false

variable {rows cols dataW : ℕ}

/-! ## What every edge does, whatever the phase -/

section Step

variable (s : State rows cols dataW) (i : Inputs)

theorem step_wgtWaddr : (step s i).wgtWaddr =
    if i.sAxisWgtTvalid then s.wgtWaddr + 1 else s.wgtWaddr := by
  cases phase : s.state <;> simp [step, fsm, phase, capture, defaults]

theorem step_actWaddr : (step s i).actWaddr =
    if i.sAxisActTvalid then s.actWaddr + 1 else s.actWaddr := by
  cases phase : s.state <;> simp [step, fsm, phase, capture, defaults]

theorem step_wgtBuf : (step s i).wgtBuf = (capture s i s).wgtBuf := by
  cases phase : s.state <;> simp [step, fsm, phase, capture]

theorem step_actBuf : (step s i).actBuf = (capture s i s).actBuf := by
  cases phase : s.state <;> simp [step, fsm, phase, capture]

theorem step_array : (step s i).array = SystolicArray.step s.array (arrayInputs s) := by
  cases phase : s.state <;> simp [step, fsm, phase, capture, defaults]

theorem step_wgtBuf_quiet (silent : i.sAxisWgtTvalid = false) : (step s i).wgtBuf = s.wgtBuf := by
  rw [step_wgtBuf]
  funext r c
  simp [capture, silent]

theorem step_actBuf_quiet (silent : i.sAxisActTvalid = false) : (step s i).actBuf = s.actBuf := by
  rw [step_actBuf]
  funext r
  simp [capture, silent]

end Step

/-! ## Runs -/

/-- The core after `t` cycles from reset. -/
def after (s₀ : State rows cols dataW) (ins : ℕ → Inputs) (t : ℕ) : State rows cols dataW :=
  Clocked.run step (reset s₀) ins t

variable (s₀ : State rows cols dataW) (ins : ℕ → Inputs)

theorem after_succ (t : ℕ) : after s₀ ins (t + 1) = step (after s₀ ins t) (ins t) := rfl

def wgtBeat (i : Inputs) : Option (BitVec 32) :=
  if i.sAxisWgtTvalid then some i.sAxisWgtTdata else none

def actBeat (i : Inputs) : Option (BitVec 32) :=
  if i.sAxisActTvalid then some i.sAxisActTdata else none

/-- The weight beats of the cycles before `t`, in order. -/
def wgtBeats (t : ℕ) : List (BitVec 32) := Clocked.window (fun u => wgtBeat (ins u)) 0 t

/-- The activation beats of the cycles before `t`, in order. -/
def actBeats (t : ℕ) : List (BitVec 32) := Clocked.window (fun u => actBeat (ins u)) 0 t

theorem wgtBeats_succ (t : ℕ) :
    wgtBeats ins (t + 1) = wgtBeats ins t ++ (wgtBeat (ins t)).toList := by
  rw [wgtBeats, Clocked.window_succ, Nat.zero_add]; rfl

theorem actBeats_succ (t : ℕ) :
    actBeats ins (t + 1) = actBeats ins t ++ (actBeat (ins t)).toList := by
  rw [actBeats, Clocked.window_succ, Nat.zero_add]; rfl

/-- The operand a beat supplies to weight row `r`, column `c`, after the beats. -/
def heldWeight (cols dataW : ℕ) (beats : List (BitVec 32)) (r c : ℕ) : BitVec dataW :=
  (ringSlot 4096 0 (r * cols + c) beats).setWidth dataW

def heldActivation (dataW : ℕ) (beats : List (BitVec 32)) (r : ℕ) : BitVec dataW :=
  (ringSlot 4096 0 r beats).setWidth dataW

theorem position_lt (r : Fin rows) (c : Fin cols) : (r : ℕ) * cols + c < rows * cols := by
  have := Nat.mul_le_mul_right cols (Nat.succ_le_of_lt r.isLt)
  rw [Nat.succ_mul] at this
  omega

/-- The row-major position of an entry. -/
theorem position_iff {n r c : ℕ} (within : c < cols) :
    (n / cols = r ∧ n % cols = c) ↔ n = r * cols + c := by
  constructor
  · rintro ⟨rfl, rfl⟩
    rw [Nat.mul_comm, Nat.div_add_mod]
  · rintro rfl
    have pos : 0 < cols := by omega
    refine ⟨?_, ?_⟩
    · rw [Nat.mul_comm, Nat.mul_add_div pos, Nat.div_eq_of_lt within, Nat.add_zero]
    · rw [Nat.mul_comm, Nat.mul_add_mod, Nat.mod_eq_of_lt within]

theorem wgtWaddr_eq (t : ℕ) :
    (after s₀ ins t).wgtWaddr = BitVec.ofNat 12 (wgtBeats ins t).length := by
  induction t with
  | zero => rfl
  | succ t ih =>
      rw [after_succ, step_wgtWaddr, ih, wgtBeats_succ, List.length_append]
      cases valid : (ins t).sAxisWgtTvalid <;> simp [wgtBeat, valid, BitVec.ofNat_add]

theorem actWaddr_eq (t : ℕ) :
    (after s₀ ins t).actWaddr = BitVec.ofNat 12 (actBeats ins t).length := by
  induction t with
  | zero => rfl
  | succ t ih =>
      rw [after_succ, step_actWaddr, ih, actBeats_succ, List.length_append]
      cases valid : (ins t).sAxisActTvalid <;> simp [actBeat, valid, BitVec.ofNat_add]

/-- **Operand capture, weights.**  The buffer is the ring of the weight beats. -/
theorem wgtBuf_eq (t : ℕ) (r : Fin rows) (c : Fin cols) :
    (after s₀ ins t).wgtBuf r c = heldWeight cols dataW (wgtBeats ins t) r c := by
  induction t with
  | zero => simp [after, reset, heldWeight, wgtBeats]
  | succ t ih =>
      rw [after_succ]
      cases valid : (ins t).sAxisWgtTvalid with
      | false =>
          rw [step_wgtBuf_quiet _ _ valid, ih, wgtBeats_succ]
          simp [wgtBeat, valid]
      | true =>
          have bound := position_lt r c
          have hits : ((wgtBeats ins t).length % 4096 < rows * cols ∧
              (wgtBeats ins t).length % 4096 / cols = r ∧
              (wgtBeats ins t).length % 4096 % cols = c) ↔
              (wgtBeats ins t).length % 4096 = r * cols + c := by
            rw [position_iff c.isLt]
            omega
          rw [step_wgtBuf, wgtBeats_succ, heldWeight]
          simp only [capture, valid, wgtWaddr_eq, BitVec.toNat_ofNat, Nat.reducePow, wgtBeat,
            if_true, Option.toList_some, ringSlot_snoc, Bool.true_and, Bool.and_eq_true,
            decide_eq_true_eq, hits]
          split
          · rfl
          · exact ih

/-- **Operand capture, activations.**  The buffer is the ring of the activation beats. -/
theorem actBuf_eq (t : ℕ) (r : Fin rows) :
    (after s₀ ins t).actBuf r = heldActivation dataW (actBeats ins t) r := by
  induction t with
  | zero => simp [after, reset, heldActivation, actBeats]
  | succ t ih =>
      rw [after_succ]
      cases valid : (ins t).sAxisActTvalid with
      | false =>
          rw [step_actBuf_quiet _ _ valid, ih, actBeats_succ]
          simp [actBeat, valid]
      | true =>
          have hits : ((actBeats ins t).length % 4096 < rows ∧
              (actBeats ins t).length % 4096 = r) ↔ (actBeats ins t).length % 4096 = r :=
            ⟨And.right, fun h => ⟨h ▸ r.isLt, h⟩⟩
          rw [step_actBuf, actBeats_succ, heldActivation]
          simp only [capture, valid, actWaddr_eq, BitVec.toNat_ofNat, Nat.reducePow, actBeat,
            if_true, Option.toList_some, ringSlot_snoc, Bool.true_and, Bool.and_eq_true,
            decide_eq_true_eq, hits]
          split
          · rfl
          · exact ih

end MiniMac.Accel.MacCoreAxi
