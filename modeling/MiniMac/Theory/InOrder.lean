/-
# Theory.InOrder -- pairing requests and responses by position

A port accepts requests in some cycles and responds in others.  The response at
the position of a request is the one with as many responses before it as there
were requests before the request (`Pairs`); a request has at most one.  A path
with a fixed latency pairs every request with the response that many cycles
later (`Delayed.pairs`).
-/
import Mathlib.Data.Nat.Count
import Mathlib.Tactic.Common

namespace MiniMac.Theory.InOrder

set_option autoImplicit false

/-- The number of events before cycle `t`. -/
def events (b : ℕ → Bool) (t : ℕ) : ℕ := Nat.count (fun u => b u = true) t

@[simp] theorem events_zero (b : ℕ → Bool) : events b 0 = 0 := Nat.count_zero _

theorem events_succ (b : ℕ → Bool) (t : ℕ) :
    events b (t + 1) = events b t + if b t = true then 1 else 0 := Nat.count_succ _ t

theorem events_mono (b : ℕ → Bool) {t u : ℕ} (upto : t ≤ u) : events b t ≤ events b u :=
  Nat.count_monotone _ upto

theorem events_le (b : ℕ → Bool) (t : ℕ) : events b t ≤ t := Nat.count_le _

/-- A span without events leaves the count alone. -/
theorem events_quiet {b : ℕ → Bool} {t n : ℕ} (quiet : ∀ u, t ≤ u → u < t + n → b u = false) :
    events b (t + n) = events b t := by
  induction n with
  | zero => rfl
  | succ n ih =>
      have before := ih fun u low high => quiet u low (by omega)
      rw [← Nat.add_assoc, events_succ, quiet (t + n) (by omega) (by omega), before]
      rfl

/-- The count of either of two events that never fall together. -/
theorem events_or {a b : ℕ → Bool} (t : ℕ) (apart : ∀ u < t, a u = true → b u = false) :
    events (fun u => a u || b u) t = events a t + events b t := by
  induction t with
  | zero => rfl
  | succ t ih =>
      rw [events_succ, events_succ, events_succ, ih fun u hu => apart u (by omega)]
      have here := apart t (by omega)
      cases first : a t with
      | false => simp; omega
      | true => simp [here first]; omega

/-- The response of cycle `u` stands at the position of the request of cycle `t`. -/
structure Pairs (accept respond : ℕ → Bool) (t u : ℕ) : Prop where
  accepts : accept t = true
  responds : respond u = true
  later : t < u
  position : events respond u = events accept t

variable {accept respond : ℕ → Bool}

/-- A request has one response. -/
theorem Pairs.unique {t u v : ℕ} (first : Pairs accept respond t u)
    (second : Pairs accept respond t v) : u = v :=
  Nat.count_injective first.responds second.responds (first.position.trans second.position.symm)

/-- Responses come in the order of their requests. -/
theorem Pairs.order {s t u v : ℕ} (first : Pairs accept respond s u)
    (second : Pairs accept respond t v) (earlier : s < t) : u < v := by
  have more : events accept s < events accept t := Nat.count_strict_mono first.accepts earlier
  rw [← first.position, ← second.position] at more
  by_contra late
  have := events_mono respond (Nat.le_of_not_lt late)
  omega

/-- A path that responds a fixed number of cycles after each request, and only then. -/
structure Delayed (latency : ℕ) (accept respond : ℕ → Bool) : Prop where
  early : ∀ t < latency, respond t = false
  delayed : ∀ t, respond (t + latency) = accept t

theorem Delayed.events_eq {latency : ℕ} (path : Delayed latency accept respond) (t : ℕ) :
    events respond (t + latency) = events accept t := by
  induction t with
  | zero =>
      have quiet := events_quiet (b := respond) (t := 0) (n := latency)
        fun u _ high => path.early u (by omega)
      exact quiet.trans rfl
  | succ t ih =>
      rw [show t + 1 + latency = t + latency + 1 by omega, events_succ, events_succ, ih,
        path.delayed]

theorem Delayed.pairs {latency : ℕ} (path : Delayed latency accept respond)
    (positive : 0 < latency) {t : ℕ} (accepts : accept t = true) :
    Pairs accept respond t (t + latency) :=
  ⟨accepts, (path.delayed t).trans accepts, by omega, path.events_eq t⟩

/-- A response comes from the request a latency earlier. -/
theorem Delayed.request {latency : ℕ} (path : Delayed latency accept respond) {u : ℕ}
    (responds : respond u = true) : ∃ t, u = t + latency ∧ accept t = true := by
  by_cases soon : u < latency
  · rw [path.early u soon] at responds
    cases responds
  · refine ⟨u - latency, by omega, ?_⟩
    rw [← path.delayed, Nat.sub_add_cancel (by omega)]
    exact responds

end MiniMac.Theory.InOrder
