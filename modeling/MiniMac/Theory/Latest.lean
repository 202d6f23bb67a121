/-
# Theory.Latest -- registers as the trace of an event

A register that is loaded in the cycles of an event, and keeps its word in the
others, holds in a cycle what the latest event before it has loaded.
-/
import Mathlib.Data.BitVec
import Mathlib.Order.Interval.Finset.Nat
import Mathlib.Tactic.Ring

namespace MiniMac.Theory

set_option autoImplicit false

universe u

/-- `u` is the latest cycle before `t` with the event. -/
structure Latest (event : ℕ → Bool) (t u : ℕ) : Prop where
  before : u < t
  happens : event u = true
  quiet : ∀ v, u < v → v < t → event v = false

variable {event : ℕ → Bool} {t u : ℕ}

namespace Latest

theorem succ (happens : event t = true) : Latest event (t + 1) t :=
  ⟨Nat.lt_succ_self t, happens, fun v low high => by omega⟩

/-- The latest event stays the latest over a cycle without one. -/
theorem succ_iff (none : event t = false) : Latest event (t + 1) u ↔ Latest event t u := by
  constructor
  · intro latest
    have other : u ≠ t := by
      rintro rfl
      exact absurd (none.symm.trans latest.happens) (by decide)
    have within := latest.before
    exact ⟨by omega, latest.happens, fun v low high => latest.quiet v low (by omega)⟩
  · intro latest
    have within := latest.before
    refine ⟨by omega, latest.happens, fun v low high => ?_⟩
    by_cases last : v = t
    · rw [last, none]
    · exact latest.quiet v low (by omega)

theorem unique {v : ℕ} (here : Latest event t u) (there : Latest event t v) : u = v := by
  have one : ¬ u < v := fun order =>
    absurd ((here.quiet v order there.before).symm.trans there.happens) (by decide)
  have other : ¬ v < u := fun order =>
    absurd ((there.quiet u order here.before).symm.trans here.happens) (by decide)
  omega

/-- After an event there is a latest one, at it or after it. -/
theorem exists_ge (happens : event u = true) (before : u < t) :
    ∃ v, u ≤ v ∧ Latest event t v := by
  induction t, before using Nat.le_induction with
  | base => exact ⟨u, le_refl u, succ happens⟩
  | succ t before ih =>
      cases now : event t with
      | true => exact ⟨t, Nat.le_of_succ_le before, succ now⟩
      | false =>
          obtain ⟨v, low, latest⟩ := ih
          exact ⟨v, low, (succ_iff now).mpr latest⟩

theorem exists_or_quiet (event : ℕ → Bool) (t : ℕ) :
    (∃ u, Latest event t u) ∨ ∀ u < t, event u = false := by
  by_cases some : ∃ u < t, event u = true
  · obtain ⟨u, before, happens⟩ := some
    obtain ⟨v, -, latest⟩ := exists_ge happens before
    exact .inl ⟨v, latest⟩
  · refine .inr fun u before => ?_
    by_contra happens
    exact some ⟨u, before, by simpa using happens⟩

end Latest

/-- The span since the latest event starts in cycle `r`; without one it starts in cycle 0. -/
inductive Since (event : ℕ → Bool) (t : ℕ) : ℕ → Prop
  | start (quiet : ∀ u < t, event u = false) : Since event t 0
  | after {u : ℕ} (latest : Latest event t u) : Since event t (u + 1)

namespace Since

variable {r : ℕ}

theorem le (since : Since event t r) : r ≤ t := by
  cases since with
  | start quiet => exact Nat.zero_le t
  | after latest => exact latest.before

theorem quiet (since : Since event t r) (low : r ≤ u) (high : u < t) : event u = false := by
  cases since with
  | start quiet => exact quiet u high
  | after latest => exact latest.quiet u low high

end Since

/-! ## Loaded registers -/

section Register

variable {α : Type u} {reg : ℕ → α} {val : ℕ → α}
  (next : ∀ t, reg (t + 1) = if event t then val t else reg t)

include next

/-- **A register holds what the latest event has loaded.** -/
theorem register_latest (latest : Latest event t u) : reg t = val u := by
  induction t with
  | zero => exact absurd latest.before (Nat.not_lt_zero u)
  | succ t ih =>
      rw [next]
      cases now : event t with
      | true =>
          obtain rfl := latest.unique (Latest.succ now)
          rfl
      | false => exact ih ((Latest.succ_iff now).mp latest)

/-- A register that nothing has loaded is as at the start. -/
theorem register_start (quiet : ∀ u < t, event u = false) : reg t = reg 0 := by
  induction t with
  | zero => rfl
  | succ t ih =>
      rw [next, quiet t (Nat.lt_succ_self t)]
      exact ih fun u early => quiet u (Nat.lt_succ_of_lt early)

end Register

end MiniMac.Theory
