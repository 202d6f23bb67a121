/-
# Theory.LeadsTo -- what a fair run gets to

The liveness rules of a run.  `wait`: what lasts until its trigger comes gets to
the trigger, when the trigger cannot stay away while it lasts.  `climb`: what gets
from each rung to the next gets to the top.  `chain`: what can always go on does so for ever.
-/
import Mathlib.Order.Nat
import Mathlib.Data.Nat.Find
import Mathlib.Logic.Function.Iterate
import Mathlib.Tactic.Common

namespace MiniMac.Theory.LeadsTo

set_option autoImplicit false

/-- **The wait rule**: the property lasts up to the first trigger. -/
theorem wait (P trigger : ℕ → Prop) {t : ℕ} (start : P t)
    (keep : ∀ u, t ≤ u → P u → ¬ trigger u → P (u + 1))
    (fair : (∀ u, t ≤ u → P u) → ∃ u, t ≤ u ∧ trigger u) :
    ∃ u, t ≤ u ∧ trigger u ∧ ∀ v, t ≤ v → v ≤ u → P v := by
  classical
  have lasts {u : ℕ} (quiet : ∀ v, t ≤ v → v < u → ¬ trigger v) :
      ∀ v, t ≤ v → v ≤ u → P v := by
    intro v low
    induction v, low using Nat.le_induction with
    | base =>
        intro _
        exact start
    | succ v low ih =>
        intro high
        exact keep v low (ih (by omega)) (quiet v low (by omega))
  have comes : ∃ u, t ≤ u ∧ trigger u := by
    by_contra never
    push Not at never
    obtain ⟨u, later, triggers⟩ :=
      fair fun u later => lasts (fun v low _ => never v low) u later (le_refl u)
    exact never u later triggers
  refine ⟨Nat.find comes, (Nat.find_spec comes).1, (Nat.find_spec comes).2, lasts ?_⟩
  intro v low high triggers
  exact Nat.find_min comes high ⟨low, triggers⟩

/-- **The climb**: `rung k` holds in some cycle for every `k` up to the top. -/
theorem climb (rung : ℕ → ℕ → Prop) {n t : ℕ} (start : rung 0 t)
    (next : ∀ k u, k < n → t ≤ u → rung k u → ∃ v, u ≤ v ∧ rung (k + 1) v) :
    ∃ u, t ≤ u ∧ rung n u := by
  have reached : ∀ k, k ≤ n → ∃ u, t ≤ u ∧ rung k u := by
    intro k
    induction k with
    | zero =>
        intro _
        exact ⟨t, le_refl t, start⟩
    | succ k ih =>
        intro within
        obtain ⟨u, later, here⟩ := ih (by omega)
        obtain ⟨v, after, there⟩ := next k u (by omega) later here
        exact ⟨v, le_trans later after, there⟩
  exact reached n (le_refl n)

/-- **The chain**: where every good point has a good one to go on with, there is a whole run of
good points. -/
theorem chain {α : Type*} (good : α → Prop) (next : α → α → Prop) {a : α} (start : good a)
    (goes : ∀ a, good a → ∃ a', good a' ∧ next a a') :
    ∃ run : ℕ → α, run 0 = a ∧ ∀ n, good (run n) ∧ next (run n) (run (n + 1)) := by
  choose! f good_f next_f using goes
  refine ⟨fun n => f^[n] a, rfl, fun n => ?_⟩
  have here : good (f^[n] a) := by
    induction n with
    | zero => exact start
    | succ n ih =>
        rw [Function.iterate_succ_apply']
        exact good_f _ ih
  refine ⟨here, ?_⟩
  show next (f^[n] a) (f^[n + 1] a)
  rw [Function.iterate_succ_apply']
  exact next_f _ here

end MiniMac.Theory.LeadsTo
