/-
# Accel.StreamingLaw -- the array after reset

The streaming law of `Accel.SystolicArray` for runs that start at reset, and the exact
integer the accumulators hold.  Before the reset all elements are at rest, so a run is
extended to all integer time and the law of the grid needs no side condition.
-/
import MiniMac.Accel.SystolicArray
import MiniMac.Accel.WindowSum
import MiniMac.Theory.Clocked

namespace MiniMac.Accel.SystolicArray

open MiniMac.Theory

set_option autoImplicit false

variable {rows cols dataW : ℕ}

/-- Nothing is loaded and nothing is fed. -/
def idleInputs : Inputs rows cols dataW := ⟨false, fun _ => 0, fun _ _ => 0, fun _ => 0⟩

variable (ins : ℕ → Inputs rows cols dataW)

/-- The array `t` cycles after reset. -/
def after (t : ℕ) : State rows cols dataW := Clocked.run step reset ins t

/-- The array in any cycle: at rest before the reset. -/
def zafter (t : ℤ) : State rows cols dataW := Clocked.zrun step reset ins t

/-- The inputs in any cycle: idle before the reset. -/
def inputsAt (t : ℤ) : Inputs rows cols dataW := Clocked.zins idleInputs ins t

theorem zafter_natCast (t : ℕ) : zafter ins t = after ins t := Clocked.zrun_natCast t

theorem inputsAt_natCast (t : ℕ) : inputsAt ins t = ins t := by
  simp [inputsAt, Clocked.zins]

theorem zafter_succ (t : ℤ) : zafter ins (t + 1) = step (zafter ins t) (inputsAt ins t) :=
  Clocked.zrun_succ (step_reset idleInputs rfl rfl rfl) t

/-! ## The weights of one load -/

/-- Cycle `L` is the last cycle with `load_wgt`. -/
structure LoadedAt (L : ℕ) : Prop where
  load : (ins L).loadWgt = true
  held : ∀ t, L < t → (ins t).loadWgt = false

variable {ins}

theorem LoadedAt.wReg {L : ℕ} (loaded : LoadedAt ins L) (r : Fin rows) (c : Fin cols) (t : ℕ)
    (later : L < t) : (after ins t r c).wReg = (ins L).wIn r c := by
  induction t, later using Nat.le_induction with
  | base =>
      show (Pe.step _ _ _ _ _).wReg = _
      simp [Pe.step, loaded.load]
  | succ t later ih =>
      show (Pe.step _ _ _ _ _).wReg = _
      simp only [Pe.step, loaded.held t later, Bool.false_eq_true, if_false]
      exact ih

/-- The streaming law of a run, with the weights of its load. -/
theorem LoadedAt.colOut_eq {L : ℕ} (loaded : LoadedAt ins L) (c : Fin cols) (t : ℕ)
    (later : L + 2 ≤ t) (fed : 2 * c.val + 2 ≤ t) :
    colOut (after ins (t + rows)) (ins (t + rows)) c =
      (ins t).colIn c + BitVec.ofInt 32
        (∑ r : Fin rows, ((ins L).wIn r c).toInt * ((ins (t + r - 2 - 2 * c)).rowIn r).toInt) := by
  have law := SystolicArray.colOut_eq (zafter ins) (inputsAt ins) (zafter_succ ins) c t
  rw [← Nat.cast_add, zafter_natCast, inputsAt_natCast, inputsAt_natCast] at law
  rw [law, ofInt_sum]
  refine congrArg _ (Finset.sum_congr rfl fun r _ => ?_)
  have weight : ((t : ℤ) + r - 1) = ((t + r - 1 : ℕ) : ℤ) := by omega
  have operand : ((t : ℤ) + r - 2 - 2 * c) = ((t + r - 2 - 2 * c : ℕ) : ℤ) := by omega
  rw [weight, operand, zafter_natCast, inputsAt_natCast, loaded.wReg r c _ (by omega), Pe.term]

/-! ## The accumulators -/

variable (ins)

/-- The exact partial sum of row `r` in cycle `t`: each row down to it contributes the operand
it was fed, under the weight its element held when the operand was multiplied. -/
def exactSum (r : Fin rows) (c : Fin cols) (t : ℤ) : ℤ :=
  ∑ k : Fin (r + 1),
    (zafter ins (t - r - 2 + k) (k.castLE r.isLt) c).wReg.toInt *
      ((inputsAt ins (t - r - 3 + k - 2 * c)).rowIn (k.castLE r.isLt)).toInt

variable {ins}

/-- An accumulator is the word of the exact partial sum, whatever is loaded when. -/
theorem accOut_eq (north : ∀ t c, (ins t).colIn c = 0) (r : Fin rows) (c : Fin cols) (t : ℤ) :
    (zafter ins t r c).accOut = BitVec.ofInt 32 (exactSum ins r c t) := by
  let grid := grid (zafter ins) (inputsAt ins) (zafter_succ ins)
  have law := grid.partialSum_eq c (t - (r + 1 : ℕ)) (r + 1) r.isLt
  rw [sub_add_cancel] at law
  have foot : grid.partialSum ⟨r + 1, by omega⟩ c t = (zafter ins t r c).accOut := rfl
  have top : grid.north c (t - (r + 1 : ℕ)) = 0 := by
    show (inputsAt ins _).colIn c = 0
    unfold inputsAt Clocked.zins
    split
    · rfl
    · exact north _ c
  rw [foot, top, zero_add] at law
  rw [law, exactSum, ofInt_sum]
  refine Finset.sum_congr rfl fun k _ => ?_
  rw [grid.product_eq]
  show Pe.term (zafter ins _ _ c).wReg ((inputsAt ins _).rowIn _) = _
  have weight : t - ((r + 1 : ℕ) : ℤ) + (k : ℕ) - 1 = t - r - 2 + k := by push_cast; ring
  have operand : t - ((r + 1 : ℕ) : ℤ) + (k : ℕ) - 2 - 2 * c = t - r - 3 + k - 2 * c := by
    push_cast; ring
  rw [weight, operand, Pe.term]

theorem exactSum_abs_le (ins : ℕ → Inputs rows cols 8) (r : Fin rows) (c : Fin cols) (t : ℤ) :
    |exactSum ins r c t| ≤ (r + 1) * 16384 := by
  refine (Finset.abs_sum_le_sum_abs _ _).trans ?_
  refine (Finset.sum_le_sum fun k _ => byte_product_le _ _).trans ?_
  simp

/-- No accumulator of an array of bytes wraps. -/
theorem accOut_toInt {ins : ℕ → Inputs rows cols 8} (tall : rows ≤ 65535)
    (north : ∀ t c, (ins t).colIn c = 0) (r : Fin rows) (c : Fin cols) (t : ℕ) :
    (after ins t r c).accOut.toInt = exactSum ins r c t := by
  have small := abs_le.mp (exactSum_abs_le ins r c t)
  have := r.isLt
  rw [← zafter_natCast, accOut_eq north, BitVec.toInt_ofInt,
    Int.bmod_eq_of_le (by push_cast; omega) (by push_cast; omega)]

/-- **The streaming law of the array after reset**, and the exactness of its
accumulators for bytes. -/
theorem streaming_law (rows cols : ℕ) :
    (∀ (dataW : ℕ) (ins : ℕ → Inputs rows cols dataW) (L : ℕ), LoadedAt ins L →
      ∀ (c : Fin cols) (t : ℕ), L + 2 ≤ t → 2 * c.val + 2 ≤ t →
        colOut (after ins (t + rows)) (ins (t + rows)) c =
          (ins t).colIn c + BitVec.ofInt 32 (∑ r : Fin rows,
            ((ins L).wIn r c).toInt * ((ins (t + r - 2 - 2 * c)).rowIn r).toInt)) ∧
    (rows ≤ 65535 → ∀ ins : ℕ → Inputs rows cols 8, (∀ t c, (ins t).colIn c = 0) →
      ∀ (t : ℕ) (r : Fin rows) (c : Fin cols),
        (after ins t r c).accOut.toInt = exactSum ins r c t) := by
  constructor
  · intro dataW ins L loaded c t later fed
    exact loaded.colOut_eq c t later fed
  · intro tall ins north t r c
    exact accOut_toInt tall north r c t

end MiniMac.Accel.SystolicArray
