/-
# Theory.StickyBit -- a flag one agent sets and another clears

The flag goes up with an event and stays up until it is cleared; where both fall
in one cycle the clear wins.  An event is therefore remembered exactly when it
is not cleared in its own cycle (`remembered_iff`), and a flag that is up
remembers an event that no clear has followed (`exists_event`).
-/
import Mathlib.Tactic.Common

namespace MiniMac.Theory

set_option autoImplicit false

/-- A flag beside the events and the clears of every cycle. -/
structure StickyBit (event clear flag : ℕ → Bool) : Prop where
  next : ∀ t, flag (t + 1) = (!clear t && (event t || flag t))

namespace StickyBit

variable {event clear flag : ℕ → Bool} (sticky : StickyBit event clear flag)

include sticky

/-- Over a span without clears the flag collects the events. -/
theorem up_iff {t n : ℕ} (quiet : ∀ u, t ≤ u → u < t + n → clear u = false) :
    flag (t + n) = true ↔ flag t = true ∨ ∃ u, t ≤ u ∧ u < t + n ∧ event u = true := by
  induction n with
  | zero =>
      constructor
      · intro up
        exact .inl up
      · rintro (up | ⟨u, low, high, -⟩)
        · exact up
        · omega
  | succ n ih =>
      have earlier := ih fun u low high => quiet u low (by omega)
      have next : flag (t + (n + 1)) = (event (t + n) || flag (t + n)) := by
        rw [← Nat.add_assoc, sticky.next, quiet (t + n) (by omega) (by omega)]
        rfl
      rw [next, Bool.or_eq_true, earlier]
      constructor
      · rintro (now | up | ⟨u, low, high, before⟩)
        · exact .inr ⟨t + n, by omega, by omega, now⟩
        · exact .inl up
        · exact .inr ⟨u, low, by omega, before⟩
      · rintro (up | ⟨u, low, high, happens⟩)
        · exact .inr (.inl up)
        · by_cases last : u = t + n
          · exact .inl (last ▸ happens)
          · exact .inr (.inr ⟨u, low, by omega, happens⟩)

/-- The flag is up from the cycle after the event until the next clear. -/
def Remembers (clear flag : ℕ → Bool) (t : ℕ) : Prop :=
  ∀ n, (∀ u, t < u → u ≤ t + n → clear u = false) → flag (t + 1 + n) = true

/-- **An event is remembered exactly when no clear falls in its own cycle.** -/
theorem remembered_iff {t : ℕ} (happens : event t = true) :
    Remembers clear flag t ↔ clear t = false := by
  have first : flag (t + 1) = !clear t := by
    rw [sticky.next, happens]
    simp
  constructor
  · intro remembers
    have up := remembers 0 fun u low high => by omega
    rw [Nat.add_zero, first] at up
    simpa using up
  · intro cleared n quiet
    apply (sticky.up_iff fun u low high => quiet u (by omega) (by omega)).mpr
    left
    rw [first, cleared]
    rfl

/-- A flag that is up, and was down at the start, remembers an event. -/
theorem exists_event {t : ℕ} (start : flag 0 = false) (up : flag t = true) :
    ∃ u, u < t ∧ event u = true ∧ ∀ v, u ≤ v → v < t → clear v = false := by
  induction t with
  | zero => exact absurd (start.symm.trans up) (by decide)
  | succ t ih =>
      rw [sticky.next] at up
      simp only [Bool.and_eq_true, Bool.not_eq_true', Bool.or_eq_true] at up
      obtain ⟨kept, now | earlier⟩ := up
      · refine ⟨t, by omega, now, ?_⟩
        intro v low high
        obtain rfl : v = t := by omega
        exact kept
      · obtain ⟨u, before, happens, quiet⟩ := ih earlier
        refine ⟨u, by omega, happens, ?_⟩
        intro v low high
        by_cases last : v = t
        · rw [last, kept]
        · exact quiet v low (by omega)

end StickyBit

end MiniMac.Theory
