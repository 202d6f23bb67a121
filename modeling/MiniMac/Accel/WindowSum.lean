/-
# Accel.WindowSum -- what a job computes

Column `c` is captured while the partial sums of only some rows have reached its
foot with a fed operand in them.  Those rows are the window of the column; the
word a job returns is the dot product over the window, and it is the full dot
product for all operands exactly when the window is every row.
-/
import Mathlib.Algebra.BigOperators.Fin
import Mathlib.Algebra.Order.BigOperators.Group.Finset
import Mathlib.Algebra.Order.Ring.Int
import Mathlib.Algebra.Order.Ring.Abs
import Mathlib.Data.BitVec
import Mathlib.Tactic.NormNum

namespace MiniMac.Accel

set_option autoImplicit false

variable {rows cols dataW : ℕ}

/-- Row `r` is in the window of column `c`: `max 0 (rows+c+2-M-N) ≤ r < rows+c+2-N`. -/
def InWindow (rows M N c r : ℕ) : Prop := rows + c + 2 ≤ r + M + N ∧ r + N < rows + c + 2

instance (rows M N c r : ℕ) : Decidable (InWindow rows M N c r) :=
  inferInstanceAs (Decidable (_ ∧ _))

/-- The exact signed sum over the window of a column. -/
def windowSum (W : Fin rows → Fin cols → BitVec dataW) (A : Fin rows → BitVec dataW)
    (M N : ℕ) (c : Fin cols) : ℤ :=
  ∑ r : Fin rows, if InWindow rows M N c r then (W r c).toInt * (A r).toInt else 0

/-- The exact signed dot product of a column with the activations. -/
def dotProduct (W : Fin rows → Fin cols → BitVec dataW) (A : Fin rows → BitVec dataW)
    (c : Fin cols) : ℤ :=
  ∑ r : Fin rows, (W r c).toInt * (A r).toInt

/-- A word sum taken term by term is the word of the exact sum. -/
theorem ofInt_sum {n : ℕ} (f : Fin n → ℤ) :
    BitVec.ofInt 32 (∑ i, f i) = ∑ i, BitVec.ofInt 32 (f i) := by
  induction n with
  | zero => simp
  | succ n ih => rw [Fin.sum_univ_castSucc, Fin.sum_univ_castSucc, BitVec.ofInt_add, ih]

/-- The window is every row exactly when the last rows have been reached and the
first have not yet been left. -/
theorem inWindow_all_iff {M N c : ℕ} (pos : 0 < rows) :
    (∀ r : Fin rows, InWindow rows M N c r) ↔ N ≤ c + 2 ∧ rows + c + 2 ≤ M + N := by
  constructor
  · intro all
    have first := (all ⟨0, pos⟩).1
    have last := (all ⟨rows - 1, by omega⟩).2
    simp only at first last
    omega
  · rintro ⟨reached, kept⟩ r
    have := r.isLt
    exact ⟨by omega, by omega⟩

theorem windowSum_eq_dotProduct (W : Fin rows → Fin cols → BitVec dataW)
    (A : Fin rows → BitVec dataW) {M N : ℕ} {c : Fin cols}
    (all : ∀ r : Fin rows, InWindow rows M N c r) :
    windowSum W A M N c = dotProduct W A c :=
  Finset.sum_congr rfl fun r _ => if_pos (all r)

/-- Signed bytes multiply to at most `2 ^ 14` in magnitude. -/
theorem byte_product_le (w a : BitVec 8) : |w.toInt * a.toInt| ≤ 16384 := by
  have bound (x : BitVec 8) : |x.toInt| ≤ 128 := by
    have low := BitVec.le_toInt x
    have high := BitVec.toInt_lt (x := x)
    exact abs_le.mpr ⟨by simpa using low, by simpa using high.le⟩
  rw [abs_mul]
  exact (mul_le_mul (bound w) (bound a) (abs_nonneg _) (by norm_num)).trans (by norm_num)

theorem windowSum_abs_le (W : Fin rows → Fin cols → BitVec 8) (A : Fin rows → BitVec 8) (M N : ℕ)
    (c : Fin cols) : |windowSum W A M N c| ≤ rows * 16384 := by
  refine (Finset.abs_sum_le_sum_abs _ _).trans ?_
  have each (r : Fin rows) :
      |if InWindow rows M N c r then (W r c).toInt * (A r).toInt else 0| ≤ 16384 := by
    split
    · exact byte_product_le _ _
    · norm_num
  refine (Finset.sum_le_sum fun r _ => each r).trans ?_
  simp

/-- A window sum of bytes over at most 4096 rows fits its word. -/
theorem toInt_ofInt_windowSum (tall : rows ≤ 4096) (W : Fin rows → Fin cols → BitVec 8)
    (A : Fin rows → BitVec 8) (M N : ℕ) (c : Fin cols) :
    (BitVec.ofInt 32 (windowSum W A M N c)).toInt = windowSum W A M N c := by
  have small := abs_le.mp (windowSum_abs_le W A M N c)
  rw [BitVec.toInt_ofInt, Int.bmod_eq_of_le (by push_cast; omega) (by push_cast; omega)]

theorem ofInt_windowSum_eq_zero_iff (tall : rows ≤ 4096) (W : Fin rows → Fin cols → BitVec 8)
    (A : Fin rows → BitVec 8) (M N : ℕ) (c : Fin cols) :
    BitVec.ofInt 32 (windowSum W A M N c) = 0 ↔ windowSum W A M N c = 0 := by
  constructor
  · intro zero
    rw [← toInt_ofInt_windowSum tall W A M N c, zero]
    rfl
  · intro zero
    rw [zero]
    rfl

/-- A row outside the window is a row whose product the word does not see. -/
theorem windowSum_ne_dotProduct {M N : ℕ} {c : Fin cols} {r : Fin rows}
    (outside : ¬ InWindow rows M N c r) :
    ∃ (W : Fin rows → Fin cols → BitVec 8) (A : Fin rows → BitVec 8),
      BitVec.ofInt 32 (windowSum W A M N c) ≠ BitVec.ofInt 32 (dotProduct W A c) := by
  refine ⟨fun k _ => if k = r then 1 else 0, fun _ => 1, ?_⟩
  have seen : dotProduct (fun k (_ : Fin cols) => if k = r then (1 : BitVec 8) else 0)
      (fun _ => 1) c = 1 := by
    rw [dotProduct, Finset.sum_eq_single r]
    · simp
    · intro k _ other; simp [other]
    · simp
  have missed : windowSum (fun k (_ : Fin cols) => if k = r then (1 : BitVec 8) else 0)
      (fun _ => 1) M N c = 0 := by
    apply Finset.sum_eq_zero
    intro k _
    by_cases here : k = r
    · subst here; rw [if_neg outside]
    · simp [here]
  rw [seen, missed]
  decide

end MiniMac.Accel
