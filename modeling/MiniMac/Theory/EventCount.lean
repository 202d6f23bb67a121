/-
# Theory.EventCount -- how often something happens

The number of the cycles of a span in which a property holds.  Two rules read it
off a machine: a counter that is cleared at the start of the span has counted it
(`counter_eq`), and a quantity that pays for every event bounds it
(`occurrences_le_potential`).
-/
import MiniMac.Theory.Latest
import Mathlib.Algebra.Order.Interval.Finset.SuccPred
import Mathlib.Data.Nat.SuccPred

namespace MiniMac.Theory

set_option autoImplicit false

open Classical in
/-- The number of the cycles from `a` up to and without `b` in which `P` holds. -/
noncomputable def occurrences (P : ℕ → Prop) (a b : ℕ) : ℕ := ((Finset.Ico a b).filter P).card

variable {P : ℕ → Prop} {a b : ℕ}

theorem occurrences_empty (order : b ≤ a) : occurrences P a b = 0 := by
  rw [occurrences, Finset.Ico_eq_empty_of_le order]
  rfl

theorem occurrences_succ_of (order : a ≤ b) (happens : P b) :
    occurrences P a (b + 1) = occurrences P a b + 1 := by
  classical
  rw [occurrences, ← Finset.insert_Ico_right_eq_Ico_add_one order, Finset.filter_insert,
    if_pos happens, Finset.card_insert_of_notMem (by simp)]
  rfl

theorem occurrences_succ_of_not (order : a ≤ b) (none : ¬ P b) :
    occurrences P a (b + 1) = occurrences P a b := by
  classical
  rw [occurrences, ← Finset.insert_Ico_right_eq_Ico_add_one order, Finset.filter_insert,
    if_neg none]
  rfl

/-- **The counter rule**: what adds `k` in the cycles of a span with the event, and starts
the span at zero, is `k` times their number. -/
theorem counter_eq {w k : ℕ} {count : ℕ → BitVec w} (order : a ≤ b) (start : count a = 0)
    (counts : ∀ t, a ≤ t → t < b → P t → count (t + 1) = count t + BitVec.ofNat w k)
    (keeps : ∀ t, a ≤ t → t < b → ¬ P t → count (t + 1) = count t) :
    count b = BitVec.ofNat w (k * occurrences P a b) := by
  induction b, order using Nat.le_induction with
  | base =>
      rw [occurrences_empty (le_refl a), Nat.mul_zero]
      exact start
  | succ t low ih =>
      have earlier := ih (fun u low' high => counts u low' (by omega))
        (fun u low' high => keeps u low' (by omega))
      by_cases happens : P t
      · rw [occurrences_succ_of low happens, counts t low (by omega) happens, earlier,
          Nat.mul_add_one, BitVec.ofNat_add]
      · rw [occurrences_succ_of_not low happens, keeps t low (by omega) happens, earlier]

/-- **The potential rule**: what an event costs bounds the events of a span. -/
theorem occurrences_le_potential (potential : ℕ → ℕ)
    (pays : ∀ t, a ≤ t → t < b → P t → potential (t + 1) < potential t)
    (keeps : ∀ t, a ≤ t → t < b → ¬ P t → potential (t + 1) ≤ potential t) :
    occurrences P a b ≤ potential a := by
  rcases Nat.lt_or_ge b a with before | order
  · rw [occurrences_empty (le_of_lt before)]
    exact Nat.zero_le _
  · have balance : ∀ t, a ≤ t → t ≤ b → occurrences P a t + potential t ≤ potential a := by
      intro t low
      induction t, low using Nat.le_induction with
      | base =>
          intro _
          rw [occurrences_empty (le_refl a), Nat.zero_add]
      | succ t low ih =>
          intro high
          have earlier := ih (by omega)
          by_cases happens : P t
          · have paid := pays t low (by omega) happens
            rw [occurrences_succ_of low happens]
            omega
          · have kept := keeps t low (by omega) happens
            rw [occurrences_succ_of_not low happens]
            omega
    exact le_trans (Nat.le_add_right _ _) (balance b order (le_refl b))

end MiniMac.Theory
