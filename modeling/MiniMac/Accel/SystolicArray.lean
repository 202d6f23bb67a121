/-
# Accel.SystolicArray -- the processing elements and the grid they form

A processing element holds its weight, registers the operand that passes it, and
adds the registered signed product to the partial sum from above.  The operand
leaves it two cycles after it entered.  The array is a skewed grid with a delay
of two cycles per column, so `colOut_eq` is the grid's streaming law.
-/
import MiniMac.Theory.SkewedGrid
import Mathlib.Algebra.Order.Ring.Int
import Mathlib.Algebra.Order.Ring.Abs
import Mathlib.Data.BitVec
import Mathlib.Tactic.Positivity

namespace MiniMac.Accel

open MiniMac.Theory

set_option autoImplicit false

/-! ## One processing element -/

namespace Pe

structure State (dataW : ℕ) where
  aReg : BitVec dataW
  wReg : BitVec dataW
  mulReg : BitVec (dataW * 2)
  aOut : BitVec dataW
  accOut : BitVec 32

variable {dataW : ℕ}

def reset : State dataW := ⟨0, 0, 0, 0, 0⟩

def step (s : State dataW) (loadWgt : Bool) (aIn wIn : BitVec dataW) (accIn : BitVec 32) :
    State dataW where
  wReg := if loadWgt then wIn else s.wReg
  aReg := aIn
  mulReg := s.aReg.signExtend (dataW * 2) * s.wReg.signExtend (dataW * 2)
  aOut := s.aReg
  accOut := accIn + s.mulReg.signExtend 32

/-- The product register is wide enough for every product of two operands. -/
theorem product_toInt (a w : BitVec dataW) :
    (a.signExtend (dataW * 2) * w.signExtend (dataW * 2)).toInt = a.toInt * w.toInt := by
  rw [BitVec.toInt_mul, BitVec.toInt_signExtend_of_le (by omega),
    BitVec.toInt_signExtend_of_le (by omega)]
  rcases Nat.eq_zero_or_pos dataW with rfl | pos
  · simp [BitVec.toInt_zero_length]
  · have width : dataW * 2 = (dataW - 1) + (dataW - 1) + 2 := by omega
    have square : (2 : ℤ) ^ (dataW * 2) = 4 * (2 ^ (dataW - 1) * 2 ^ (dataW - 1)) := by
      rw [width, pow_add, pow_add]; ring
    have bound (x : BitVec dataW) : |x.toInt| ≤ 2 ^ (dataW - 1) :=
      abs_le.mpr ⟨BitVec.le_toInt x, BitVec.toInt_lt.le⟩
    have small : |a.toInt * w.toInt| ≤ 2 ^ (dataW - 1) * 2 ^ (dataW - 1) := by
      rw [abs_mul]
      exact mul_le_mul (bound a) (bound w) (abs_nonneg _) (by positivity)
    have positive : (0 : ℤ) < 2 ^ (dataW - 1) * 2 ^ (dataW - 1) := by positivity
    obtain ⟨low, high⟩ := abs_le.mp small
    apply Int.bmod_eq_of_le
    · push_cast; rw [square]; omega
    · push_cast; rw [square]; omega

/-- What a cell adds to a partial sum for operand `a` under weight `w`. -/
def term (w a : BitVec dataW) : BitVec 32 := BitVec.ofInt 32 (w.toInt * a.toInt)

theorem signExtend_product (a w : BitVec dataW) :
    (a.signExtend (dataW * 2) * w.signExtend (dataW * 2)).signExtend 32 = term w a := by
  rw [BitVec.signExtend, product_toInt, term, mul_comm]

@[simp] theorem term_zero (w : BitVec dataW) : term w 0 = 0 := by
  simp [term]

/-- An element at rest stays at rest while no operand and no sum arrives. -/
theorem step_reset (wIn : BitVec dataW) : step reset false 0 wIn 0 = (reset : State dataW) := by
  simp [step, reset, BitVec.signExtend]

end Pe

/-! ## The array -/

namespace SystolicArray

/-- The registers of the grid, one processing element per row and column. -/
abbrev State (rows cols dataW : ℕ) := Fin rows → Fin cols → Pe.State dataW

structure Inputs (rows cols dataW : ℕ) where
  loadWgt : Bool
  rowIn : Fin rows → BitVec dataW
  wIn : Fin rows → Fin cols → BitVec dataW
  colIn : Fin cols → BitVec 32

variable {rows cols dataW : ℕ}

/-- The operand wires: the row input, then each element's output. -/
def hWire (s : State rows cols dataW) (i : Inputs rows cols dataW) (r : Fin rows) :
    Fin (cols + 1) → BitVec dataW :=
  Fin.cons (i.rowIn r) fun c => (s r c).aOut

/-- The partial-sum wires: the column input, then each element's output. -/
def vWire (s : State rows cols dataW) (i : Inputs rows cols dataW) (c : Fin cols) :
    Fin (rows + 1) → BitVec 32 :=
  Fin.cons (i.colIn c) fun r => (s r c).accOut

def colOut (s : State rows cols dataW) (i : Inputs rows cols dataW) (c : Fin cols) : BitVec 32 :=
  vWire s i c (Fin.last rows)

def reset : State rows cols dataW := fun _ _ => Pe.reset

def step (s : State rows cols dataW) (i : Inputs rows cols dataW) : State rows cols dataW :=
  fun r c => Pe.step (s r c) i.loadWgt (hWire s i r c.castSucc) (i.wIn r c) (vWire s i c r.castSucc)

/-- The registers and wires of an array running for all time are a skewed grid. -/
def grid (st : ℤ → State rows cols dataW) (inp : ℤ → Inputs rows cols dataW)
    (runs : ∀ t, st (t + 1) = step (st t) (inp t)) :
    SkewedGrid (BitVec dataW) (BitVec 32) rows cols 2 where
  input r t := (inp t).rowIn r
  north c t := (inp t).colIn c
  operand r c t := (st t r c).aReg
  scale r c t a := Pe.term (st t r c).wReg a
  product r c t := (st t r c).mulReg.signExtend 32
  partialSum r c t := vWire (st t) (inp t) c r
  operand_west r c t west := by
    have here : c.castSucc = 0 := Fin.ext west
    simp [runs, step, Pe.step, here, hWire]
  operand_east r c c' t east := by
    have here : c'.castSucc = c.succ := Fin.ext east
    rw [show t + 2 = t + 1 + 1 by ring]
    simp [runs, step, Pe.step, here, hWire]
  product_step r c t := by
    simp only [runs, step, Pe.step]
    exact Pe.signExtend_product _ _
  partialSum_north c t := rfl
  partialSum_south r c t := by
    simp [vWire, runs, step, Pe.step]

/-- **The streaming law of the array**: the sum leaving column `c` collects from
row `r` the operand that entered `rows - r + 2 + 2 * c` cycles earlier. -/
theorem colOut_eq (st : ℤ → State rows cols dataW) (inp : ℤ → Inputs rows cols dataW)
    (runs : ∀ t, st (t + 1) = step (st t) (inp t)) (c : Fin cols) (t : ℤ) :
    colOut (st (t + rows)) (inp (t + rows)) c =
      (inp t).colIn c + ∑ r : Fin rows,
        Pe.term (st (t + r - 1) r c).wReg ((inp (t + r - 2 - 2 * c)).rowIn r) :=
  (grid st inp runs).drain_sum c t

/-- The array at rest stays at rest while nothing is fed. -/
theorem step_reset (i : Inputs rows cols dataW) (noLoad : i.loadWgt = false)
    (noRow : i.rowIn = fun _ => 0) (noCol : i.colIn = fun _ => 0) :
    step reset i = (reset : State rows cols dataW) := by
  funext r c
  have west : hWire reset i r c.castSucc = 0 := by
    simp only [hWire, noRow]
    refine Fin.cases rfl (fun _ => rfl) c.castSucc
  have north : vWire (reset : State rows cols dataW) i c r.castSucc = 0 := by
    simp only [vWire, noCol]
    refine Fin.cases rfl (fun _ => rfl) r.castSucc
  simp only [step, noLoad, west, north]
  exact Pe.step_reset _

end SystolicArray

end MiniMac.Accel
