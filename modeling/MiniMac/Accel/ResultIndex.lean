/-
# Accel.ResultIndex -- the result counter and the columns

While a core captures and streams, its counter indexes the column outputs and the
result buffer.  The counter is held against the dimension register, which the
software writes and the core reads anew in every cycle, and nowhere against the
number of columns.  It stays inside the array exactly when the register holds the
number of columns whenever the counter moves on from the last one
(`result_index_iff`); a register that is held at no more than that is enough.
-/
import MiniMac.Accel.ClosedForm

namespace MiniMac.Accel.MacCoreAxi

open MiniMac.Theory

set_option autoImplicit false

variable {rows cols dataW : ℕ}

/-- The phases in which the counter is an index. -/
def Phase.indexes : Phase → Bool
  | .writeRes | .streamOut => true
  | _ => false

/-- The index is one of a column. -/
def IndexInside (s : State rows cols dataW) : Prop :=
  s.state.indexes = true → s.rCnt.toNat < cols

/-- The counter of an indexing phase moves. -/
def moves (s : State rows cols dataW) (i : Inputs) : Bool :=
  match s.state with
  | .writeRes => true
  | .streamOut => i.mAxisResTready
  | _ => false

/-- A counter that moves on from the last column finds that it was the last. -/
def StopsAtLast (s : State rows cols dataW) (i : Inputs) : Prop :=
  moves s i = true → s.rCnt.toNat + 1 = cols → i.regNI.toNat = cols ∨ cols = 256

/-! ## One edge -/

section Step

variable {s : State rows cols dataW} {i : Inputs}

/-- A counter that is below `b` and does not move on from `b - 1` stays below `b`. -/
theorem index_step {b : ℕ}
    (enters : s.state = .drain → isLast s.cCnt i.regNI = true → 0 < b)
    (stops : moves s i = true → s.rCnt.toNat + 1 = b → isLast s.rCnt i.regNI = true ∨ b = 256)
    (inside : s.state.indexes = true → s.rCnt.toNat < b) :
    (step s i).state.indexes = true → (step s i).rCnt.toNat < b := by
  have next : moves s i = true → isLast s.rCnt i.regNI = false → s.rCnt.toNat < b →
      (s.rCnt + 1).toNat < b := by
    intro moving more below
    have wraps := (s.rCnt + 1).isLt
    have count : (s.rCnt + 1).toNat = (s.rCnt.toNat + 1) % 256 := by
      rw [BitVec.toNat_add]
      rfl
    rcases Nat.lt_or_ge (s.rCnt.toNat + 1) b with room | full
    · omega
    · rcases stops moving (by omega) with last | all
      · exact absurd (last.symm.trans more) (by decide)
      · omega
  intro indexes
  cases phase : s.state with
  | idle =>
      rw [step_idle phase] at indexes
      dsimp only at indexes
      split at indexes <;> cases indexes
  | loadWgt =>
      rw [step_loadWgt phase] at indexes
      cases indexes
  | feed =>
      rw [step_feed phase] at indexes
      dsimp only at indexes
      split at indexes <;> cases indexes
  | drain =>
      rw [step_drain phase] at indexes ⊢
      cases last : isLast s.cCnt i.regNI with
      | false =>
          rw [last] at indexes
          cases indexes
      | true => exact enters phase last
  | writeRes =>
      have below := inside (by rw [phase]; rfl)
      rw [step_writeRes phase]
      cases last : isLast s.rCnt i.regNI with
      | false => exact next (by rw [moves, phase]) last below
      | true => exact Nat.lt_of_le_of_lt (Nat.zero_le _) below
  | streamOut =>
      have below := inside (by rw [phase]; rfl)
      rw [step_streamOut phase] at indexes ⊢
      cases taken : i.mAxisResTready with
      | false => exact below
      | true =>
          cases last : isLast s.rCnt i.regNI with
          | false => exact next (by rw [moves, phase]; exact taken) last below
          | true =>
              rw [taken, last] at indexes
              cases indexes

/-- A counter that moves on from the last column leaves the array. -/
theorem index_leaves (moving : moves s i = true) (last : s.rCnt.toNat + 1 = cols)
    (other : i.regNI.toNat ≠ cols) (few : cols ≠ 256) : ¬ IndexInside (step s i) := by
  have more : isLast s.rCnt i.regNI = false := by
    by_contra stops
    have here := (isLast_iff _ _).mp (by simpa using stops)
    omega
  have count : (s.rCnt + 1).toNat = cols := by
    have small := s.rCnt.isLt
    rw [BitVec.toNat_add]
    show (s.rCnt.toNat + 1) % 256 = cols
    omega
  intro inside
  cases phase : s.state with
  | writeRes =>
      rw [IndexInside, step_writeRes phase, more] at inside
      exact absurd (inside rfl) (by dsimp only; rw [if_neg Bool.false_ne_true, count]; omega)
  | streamOut =>
      have taken : i.mAxisResTready = true := by
        rw [moves, phase] at moving
        exact moving
      rw [IndexInside, step_streamOut phase, more, taken] at inside
      exact absurd (inside rfl) (by dsimp only; rw [if_pos rfl, count]; omega)
  | _ =>
      rw [moves, phase] at moving
      cases moving

end Step

/-! ## Runs -/

variable (s₀ : State rows cols dataW) (ins : ℕ → Inputs)

/-- In no cycle of the run does the index leave the array. -/
def IndexStaysInside : Prop := ∀ t, IndexInside (after s₀ ins t)

/-- **The index stays inside the array exactly when** the counter never moves on from the last
column with another dimension in the register. -/
theorem result_index_iff (pos : 0 < cols) :
    IndexStaysInside s₀ ins ↔ ∀ t, StopsAtLast (after s₀ ins t) (ins t) := by
  constructor
  · intro inside t moving last
    by_contra other
    push Not at other
    exact index_leaves moving last other.1 other.2 (inside (t + 1))
  · intro stops t
    induction t with
    | zero =>
        intro indexes
        cases indexes
    | succ t ih =>
        refine index_step (fun _ _ => pos) (fun moving last => ?_) ih
        refine (stops t moving last).imp (fun here => ?_) id
        exact (isLast_iff _ _).mpr (last.trans here.symm)

/-- A dimension that fits and is held keeps the index inside. -/
theorem stopsAtLast_of_held {n : BitVec 8} (fits : n.toNat ≤ cols) (held : ∀ t, (ins t).regNI = n)
    (t : ℕ) : StopsAtLast (after s₀ ins t) (ins t) := by
  have below : ∀ t, (after s₀ ins t).state.indexes = true →
      (after s₀ ins t).rCnt.toNat < n.toNat := by
    intro t
    induction t with
    | zero =>
        intro indexes
        cases indexes
    | succ t ih =>
        refine index_step (fun _ last => ?_) (fun _ last => .inl ?_) ih
        · have count := (isLast_iff _ _).mp last
          rw [held] at count
          omega
        · rw [isLast_iff, held]
          exact last
  intro moving last
  have indexes : (after s₀ ins t).state.indexes = true := by
    unfold moves at moving
    split at moving <;> simp_all [Phase.indexes]
  have count := below t indexes
  rw [held]
  omega

/-- One column, and a job of one. -/
theorem result_index_one_column :
    IndexStaysInside (blank : State 1 1 8) (jobInputs [] [] 1 1) :=
  (result_index_iff blank (jobInputs [] [] 1 1) Nat.one_pos).mpr
    (stopsAtLast_of_held blank _ (n := 1) (by decide) fun _ => rfl)

/-- One column, and a job of two. -/
theorem result_index_leaves :
    ¬ ∀ (rows cols dataW : ℕ) (s₀ : State rows cols dataW) (ins : ℕ → Inputs), 0 < cols →
      IndexStaysInside s₀ ins := by
  intro claim
  have inside := claim 1 1 8 blank (jobInputs [] [] 1 2) Nat.one_pos 6
  exact absurd (inside (by decide)) (by decide)

end MiniMac.Accel.MacCoreAxi
