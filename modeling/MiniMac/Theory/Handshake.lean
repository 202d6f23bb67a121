/-
# Theory.Handshake -- a valid/ready stream as seen at its source

A source offers a beat in some cycles, and a beat is transferred in a cycle in
which the sink is ready.  `Held` is the rule that an offered beat stays until it is
transferred.  A source whose offers last one cycle keeps the rule only by being
always met by a ready sink (`held_iff_of_pulse`).
-/
import MiniMac.Theory.Clocked

namespace MiniMac.Theory.Handshake

set_option autoImplicit false

universe u

variable {α : Type u} {offer : ℕ → Option α} {ready : ℕ → Bool} {a b n : ℕ}

/-- The beats transferred in the cycles `a ≤ t < a + n`. -/
def transfers (offer : ℕ → Option α) (ready : ℕ → Bool) (a n : ℕ) : List α :=
  Clocked.window (fun t => if ready t then offer t else none) a n

/-- A beat that is offered between `a` and `b` and not taken is offered again. -/
def Held (offer : ℕ → Option α) (ready : ℕ → Bool) (a b : ℕ) : Prop :=
  ∀ t, a ≤ t → t < b → ∀ x, offer t = some x → ready t = false → offer (t + 1) = some x

theorem transfers_succ (offer : ℕ → Option α) (ready : ℕ → Bool) (a n : ℕ) :
    transfers offer ready a (n + 1) =
      transfers offer ready a n ++ (if ready (a + n) then offer (a + n) else none).toList := rfl

/-- A sink that meets every offer gets them all. -/
theorem transfers_of_met (met : ∀ t, a ≤ t → t < a + n → offer t ≠ none → ready t = true) :
    transfers offer ready a n = Clocked.window offer a n := by
  induction n with
  | zero => rfl
  | succ n ih =>
      rw [transfers_succ, Clocked.window_succ, ih fun t low high => met t low (by omega)]
      have last := met (a + n) (by omega) (by omega)
      cases here : offer (a + n) with
      | none => simp
      | some x => rw [last (by simp [here]), if_pos rfl]

/-- A sink that meets all offers but perhaps the last gets the first of them. -/
theorem transfers_prefix (met : ∀ t, a ≤ t → t < a + n → offer t ≠ none → ready t = true) :
    transfers offer ready a (n + 1) <+: Clocked.window offer a (n + 1) := by
  rw [transfers_succ, transfers_of_met met, Clocked.window_succ]
  refine (List.prefix_append_right_inj _).mpr ?_
  cases ready (a + n) with
  | true => exact List.prefix_refl _
  | false => exact List.nil_prefix

/-- **Offers of one cycle are held exactly when the sink meets them.** -/
theorem held_iff_of_pulse (pulse : ∀ t, a ≤ t → t < b → offer t ≠ none → offer (t + 1) = none) :
    Held offer ready a b ↔ ∀ t, a ≤ t → t < b → offer t ≠ none → ready t = true := by
  constructor
  · intro held t low high up
    by_contra stalled
    obtain ⟨x, here⟩ := Option.ne_none_iff_exists'.mp up
    have again := held t low high x here (by simpa using stalled)
    rw [pulse t low high up] at again
    cases again
  · intro met t low high x here stalled
    have taken := met t low high (by simp [here])
    rw [stalled] at taken
    cases taken

end MiniMac.Theory.Handshake
