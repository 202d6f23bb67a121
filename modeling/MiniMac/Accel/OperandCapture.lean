/-
# Accel.OperandCapture -- streams longer than the buffers

Beat `k` belongs into entry `k` of its buffer, and a beat past the end into none.
The pointers that place the beats are 12 bits wide and the streams as long as the
software says, so beat 4096 is entry 0 again.  The buffers hold what they should
over a whole run exactly when every beat that comes around carries the operand that
is there already (`operand_capture_iff`).
-/
import MiniMac.Accel.ClosedForm

namespace MiniMac.Accel.MacCoreAxi

open MiniMac.Theory

set_option autoImplicit false

variable {rows cols dataW : ℕ} (s₀ : State rows cols dataW) (ins : ℕ → Inputs)

/-- In every cycle the buffers hold the first beats, and nothing else changes them. -/
structure Captures : Prop where
  weights : ∀ t (r : Fin rows) (c : Fin cols),
    (after s₀ ins t).wgtBuf r c = ((wgtBeats ins t).getD (r * cols + c) 0).setWidth dataW
  activations : ∀ t (r : Fin rows),
    (after s₀ ins t).actBuf r = ((actBeats ins t).getD r 0).setWidth dataW
  weightsFull : ∀ t, rows * cols ≤ (wgtBeats ins t).length →
    (after s₀ ins (t + 1)).wgtBuf = (after s₀ ins t).wgtBuf
  activationsFull : ∀ t, rows ≤ (actBeats ins t).length →
    (after s₀ ins (t + 1)).actBuf = (after s₀ ins t).actBuf

/-- A beat that comes around to an entry carries the operand of the entry's own beat. -/
def ComesAround (dataW size : ℕ) (beat : ℕ → Option (BitVec 32)) : Prop :=
  ∀ t x, beat t = some x → 4096 ≤ (Clocked.window beat 0 t).length →
    (Clocked.window beat 0 t).length % 4096 < size →
      x.setWidth dataW = ((Clocked.window beat 0 t).getD
        ((Clocked.window beat 0 t).length % 4096) 0).setWidth dataW

section Buffers

variable {s₀ ins}

theorem comesAround_iff {size : ℕ} (fits : size ≤ 4096) (beat : ℕ → Option (BitVec 32)) :
    ComesAround dataW size beat ↔
      ∀ t, SlotsHold (fun x : BitVec 32 => x.setWidth dataW) size 4096 0
        (Clocked.window beat 0 t) :=
  (slotsHold_iff fits beat).symm

/-- The weight buffer holds its beats when the ring does. -/
theorem wgtBuf_holds_iff (t : ℕ) :
    (∀ (r : Fin rows) (c : Fin cols),
      (after s₀ ins t).wgtBuf r c = ((wgtBeats ins t).getD (r * cols + c) 0).setWidth dataW) ↔
      SlotsHold (fun x : BitVec 32 => x.setWidth dataW) (rows * cols) 4096 0
        (wgtBeats ins t) := by
  constructor
  · intro holds slot within
    have pos : 0 < cols := Nat.pos_of_lt_mul_left within
    have entry := holds ⟨slot / cols, Nat.div_lt_of_lt_mul (by rwa [Nat.mul_comm])⟩
      ⟨slot % cols, Nat.mod_lt _ pos⟩
    rw [wgtBuf_eq, heldWeight, Nat.div_add_mod'] at entry
    exact entry
  · intro holds r c
    rw [wgtBuf_eq]
    exact holds _ (position_lt r c)

theorem actBuf_holds_iff (t : ℕ) :
    (∀ r : Fin rows, (after s₀ ins t).actBuf r = ((actBeats ins t).getD r 0).setWidth dataW) ↔
      SlotsHold (fun x : BitVec 32 => x.setWidth dataW) rows 4096 0 (actBeats ins t) := by
  constructor
  · intro holds slot within
    have entry := holds ⟨slot, within⟩
    rw [actBuf_eq] at entry
    exact entry
  · intro holds r
    rw [actBuf_eq]
    exact holds r r.isLt

/-- Buffers that hold their beats are not changed by the beats past their end. -/
theorem captures_of_holds
    (weights : ∀ t (r : Fin rows) (c : Fin cols),
      (after s₀ ins t).wgtBuf r c = ((wgtBeats ins t).getD (r * cols + c) 0).setWidth dataW)
    (activations : ∀ t (r : Fin rows),
      (after s₀ ins t).actBuf r = ((actBeats ins t).getD r 0).setWidth dataW) :
    Captures s₀ ins where
  weights := weights
  activations := activations
  weightsFull t full := by
    funext r c
    have within := position_lt r c
    rw [weights, weights, wgtBeats_succ, List.getD_append _ _ _ _ (by omega)]
  activationsFull t full := by
    funext r
    have within := r.isLt
    rw [activations, activations, actBeats_succ, List.getD_append _ _ _ _ (by omega)]

end Buffers

theorem weights_comeAround (fits : rows * cols ≤ 4096) (captures : Captures s₀ ins) :
    ComesAround dataW (rows * cols) (fun t => wgtBeat (ins t)) :=
  (comesAround_iff fits _).mpr fun t => (wgtBuf_holds_iff t).mp (captures.weights t)

theorem activations_comeAround (fits : rows ≤ 4096) (captures : Captures s₀ ins) :
    ComesAround dataW rows (fun t => actBeat (ins t)) :=
  (comesAround_iff fits _).mpr fun t => (actBuf_holds_iff t).mp (captures.activations t)

/-- **The buffers hold their beats exactly when** every beat that comes around to an entry
carries the operand that is there. -/
theorem operand_capture_iff (fits : rows * cols ≤ 4096) (tall : rows ≤ 4096) :
    Captures s₀ ins ↔
      ComesAround dataW (rows * cols) (fun t => wgtBeat (ins t)) ∧
        ComesAround dataW rows (fun t => actBeat (ins t)) := by
  constructor
  · intro captures
    exact ⟨weights_comeAround s₀ ins fits captures, activations_comeAround s₀ ins tall captures⟩
  · rintro ⟨weights, activations⟩
    apply captures_of_holds
    · intro t
      exact (wgtBuf_holds_iff t).mpr ((comesAround_iff fits _).mp weights t)
    · intro t
      exact (actBuf_holds_iff t).mpr ((comesAround_iff tall _).mp activations t)

/-! ## Endless streams -/

/-- A weight beat in every cycle, and no activations. -/
def weightStream (beat : ℕ → BitVec 32) (t : ℕ) : Inputs where
  sAxisWgtTdata := beat t
  sAxisWgtTvalid := true
  sAxisActTdata := 0
  sAxisActTvalid := false
  mAxisResTready := true
  coreStartI := false
  regMI := 4
  regNI := 4
  unknown := 0

theorem wgtBeats_weightStream (beat : ℕ → BitVec 32) (t : ℕ) :
    Clocked.window (fun u => wgtBeat (weightStream beat u)) 0 t = (List.range t).map beat := by
  apply Clocked.window_some
  intro k _
  rw [Nat.zero_add]
  rfl

/-- A stream of weights that comes around. -/
theorem comesAround_weightStream_iff (beat : ℕ → BitVec 32) (dataW size : ℕ) :
    ComesAround dataW size (fun t => wgtBeat (weightStream beat t)) ↔
      ∀ t, 4096 ≤ t → t % 4096 < size →
        (beat t).setWidth dataW = (beat (t % 4096)).setWidth dataW := by
  have entry {t k : ℕ} (within : k < t) : ((List.range t).map beat).getD k 0 = beat k := by
    rw [List.getD_eq_getElem _ _ (by simpa using within), List.getElem_map, List.getElem_range]
  have same (t : ℕ) (full : 4096 ≤ t) :
      ((List.range t).map beat).getD (t % 4096) 0 = beat (t % 4096) :=
    entry (by omega)
  constructor
  · intro around t full hits
    have repeats := around t (beat t) rfl
    rw [wgtBeats_weightStream, List.length_map, List.length_range] at repeats
    rw [repeats full hits, same t full]
  · intro repeats t x arrival full hits
    obtain rfl : beat t = x := Option.some.inj arrival
    rw [wgtBeats_weightStream] at full hits ⊢
    rw [List.length_map, List.length_range] at full hits ⊢
    rw [repeats t full hits, same t full]

theorem actBeats_weightStream (beat : ℕ → BitVec 32) (dataW size : ℕ) :
    ComesAround dataW size (fun t => actBeat (weightStream beat t)) := by
  intro t x arrival
  cases arrival

/-- The same operand over and over again. -/
theorem operand_capture_constant :
    Captures (blank : State 32 32 8) (weightStream fun _ => 7) :=
  (operand_capture_iff blank _ (by decide) (by decide)).mpr
    ⟨(comesAround_weightStream_iff _ _ _).mpr fun _ _ _ => rfl, actBeats_weightStream _ _ _⟩

/-- Beat 4096 overwrites the first weight. -/
theorem operand_capture_wraps :
    ¬ ∀ (s₀ : State 4 4 8) (ins : ℕ → Inputs), Captures s₀ ins := by
  intro claim
  have around := weights_comeAround blank _ (by decide)
    (claim blank (weightStream fun t => if t = 4096 then 1 else 0))
  have first := (comesAround_weightStream_iff _ _ _).mp around 4096 (le_refl _) (by decide)
  exact absurd first (by decide)

end MiniMac.Accel.MacCoreAxi
