/-
# Theory.SkewedGrid -- what a systolic grid of multiply-accumulate cells computes

Operands enter a row at its western edge and reach column `j` after
`delay * j` further cycles.  Each cell registers the operand times its
coefficient, and adds the registered product to the partial sum that arrives
from the cell above, so a partial sum falls one row per cycle.  `drain_sum` is
the resulting law: the sum that leaves column `j` at time `t + rows` collects
from row `i` the operand that entered at `t + i - 2 - delay * j`.

Time is the integers, so the law holds in every cycle.
-/
import Mathlib.Algebra.BigOperators.Fin
import Mathlib.Tactic.Ring

namespace MiniMac.Theory

set_option autoImplicit false

universe u v

/-- The registers of a skewed grid as functions of time, with the equations its
edges impose. -/
structure SkewedGrid (A : Type u) (M : Type v) [AddCommMonoid M] (rows cols : ℕ) (delay : ℤ) where
  input : Fin rows → ℤ → A
  north : Fin cols → ℤ → M
  /-- The registered operand the cell multiplies. -/
  operand : Fin rows → Fin cols → ℤ → A
  /-- Multiplication by the cell's coefficient, as it stands in a cycle. -/
  scale : Fin rows → Fin cols → ℤ → A → M
  product : Fin rows → Fin cols → ℤ → M
  partialSum : Fin (rows + 1) → Fin cols → ℤ → M
  operand_west : ∀ i j t, j.val = 0 → operand i j (t + 1) = input i t
  operand_east : ∀ i j j' t, j'.val = j.val + 1 → operand i j' (t + delay) = operand i j t
  product_step : ∀ i j t, product i j (t + 1) = scale i j t (operand i j t)
  partialSum_north : ∀ j t, partialSum 0 j t = north j t
  partialSum_south : ∀ (i : Fin rows) j t,
    partialSum i.succ j (t + 1) = partialSum i.castSucc j t + product i j t

namespace SkewedGrid

variable {A : Type u} {M : Type v} [AddCommMonoid M] {rows cols : ℕ} {delay : ℤ}
variable (grid : SkewedGrid A M rows cols delay)

/-- An operand crosses a column in `delay` cycles. -/
theorem operand_eq (i : Fin rows) (t : ℤ) :
    ∀ (k : ℕ) (within : k < cols),
      grid.operand i ⟨k, within⟩ (t + 1 + delay * k) = grid.input i t
  | 0, within => by
      simpa using grid.operand_west i ⟨0, within⟩ t rfl
  | k + 1, within => by
      have crossed := grid.operand_east i ⟨k, by omega⟩ ⟨k + 1, within⟩ (t + 1 + delay * k) rfl
      have time : t + 1 + delay * ((k + 1 : ℕ) : ℤ) = t + 1 + delay * k + delay := by
        push_cast; ring
      rw [time, crossed]
      exact operand_eq i t k (by omega)

/-- The product a cell holds was formed two cycles after its operand entered,
plus the time the operand took to arrive. -/
theorem product_eq (i : Fin rows) (j : Fin cols) (t : ℤ) :
    grid.product i j t = grid.scale i j (t - 1) (grid.input i (t - 2 - delay * j)) := by
  have formed := grid.product_step i j (t - 1)
  have arrived := grid.operand_eq i (t - 2 - delay * j) j j.isLt
  have time : t - 2 - delay * (j : ℤ) + 1 + delay * (j : ℤ) = t - 1 := by ring
  rw [time] at arrived
  rw [← arrived, ← formed, sub_add_cancel]

/-- A partial sum falls one row per cycle and collects each row's product. -/
theorem partialSum_eq (j : Fin cols) (t : ℤ) :
    ∀ (k : ℕ) (within : k ≤ rows),
      grid.partialSum ⟨k, by omega⟩ j (t + k) =
        grid.north j t + ∑ i : Fin k, grid.product (i.castLE within) j (t + i)
  | 0, within => by
      simpa using grid.partialSum_north j t
  | k + 1, within => by
      have fell := grid.partialSum_south ⟨k, by omega⟩ j (t + k)
      have time : t + ((k + 1 : ℕ) : ℤ) = t + k + 1 := by push_cast; ring
      have above := partialSum_eq j t k (by omega)
      rw [Fin.sum_univ_castSucc, ← add_assoc, time]
      exact fell.trans (congrArg (· + _) above)

/-- **The streaming law of a skewed grid.** -/
theorem drain_sum (j : Fin cols) (t : ℤ) :
    grid.partialSum (Fin.last rows) j (t + rows) =
      grid.north j t +
        ∑ i : Fin rows, grid.scale i j (t + i - 1) (grid.input i (t + i - 2 - delay * j)) := by
  have fallen := grid.partialSum_eq j t rows (le_refl rows)
  refine fallen.trans (congrArg _ (Finset.sum_congr rfl fun i _ => ?_))
  exact grid.product_eq i j (t + i)

end SkewedGrid

end MiniMac.Theory
