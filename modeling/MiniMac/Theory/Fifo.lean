/-
# Theory.Fifo -- a queue in time

In every cycle a queue may give up its head and take in one entry; what enters
leaves in a later cycle.  Everything that entered has left, in order, or is still
inside (`conserved`), so the `k`-th entry that leaves is the `k`-th that entered
(`left_eq`) and the length counts the entries inside.  A queue that is popped a
fixed number of cycles after each entry is a delay line (`delay`), and so is a
shift register (`shift_head`).
-/
import MiniMac.Theory.Clocked
import MiniMac.Theory.InOrder

namespace MiniMac.Theory

set_option autoImplicit false

universe u

open Clocked

/-- The contents of a queue beside what enters and leaves in every cycle. -/
structure Fifo {α : Type u} (enter leave : ℕ → Option α) (contents : ℕ → List α) : Prop where
  start : contents 0 = []
  next : ∀ t, ∃ rest, contents t = (leave t).toList ++ rest ∧
    contents (t + 1) = rest ++ (enter t).toList

namespace Fifo

variable {α : Type u} {enter leave : ℕ → Option α} {contents : ℕ → List α}
  (fifo : Fifo enter leave contents)

include fifo

/-- **Conservation**: what entered is what left followed by what is inside. -/
theorem conserved (t : ℕ) : window enter 0 t = window leave 0 t ++ contents t := by
  induction t with
  | zero => rw [window_zero, window_zero, fifo.start, List.append_nil]
  | succ t ih =>
      obtain ⟨rest, before, after⟩ := fifo.next t
      rw [window_succ, window_succ, ih, before, after, Nat.zero_add, List.append_assoc,
        List.append_assoc, List.append_assoc]

theorem length_eq (t : ℕ) :
    (window enter 0 t).length = (window leave 0 t).length + (contents t).length := by
  rw [fifo.conserved, List.length_append]

/-- What leaves was the head. -/
theorem head_of_leave {t : ℕ} {x : α} (leaves : leave t = some x) :
    (contents t).head? = some x := by
  obtain ⟨rest, before, -⟩ := fifo.next t
  rw [before, leaves]
  rfl

/-- **Order**: an entry that leaves had as many enter before it as left before it. -/
theorem left_eq {t : ℕ} {x : α} (leaves : leave t = some x) :
    (window enter 0 t)[(window leave 0 t).length]? = some x := by
  rw [fifo.conserved, List.getElem?_append_right (le_refl _), Nat.sub_self,
    ← List.head?_eq_getElem?]
  exact fifo.head_of_leave leaves

end Fifo

open InOrder

/-- The events of a window are as many as the cycles with one. -/
theorem window_length {α : Type u} (f : ℕ → Option α) (t : ℕ) :
    (window f 0 t).length = events (fun u => (f u).isSome) t := by
  induction t with
  | zero => rfl
  | succ t ih =>
      rw [window_succ, events_succ, List.length_append, ih, Nat.zero_add]
      cases f t <;> rfl

/-- A later window continues an earlier one. -/
theorem window_getElem? {α : Type u} {f : ℕ → Option α} {t u : ℕ} (later : t < u) {x : α}
    (event : f t = some x) : (window f 0 u)[(window f 0 t).length]? = some x := by
  obtain ⟨n, rfl⟩ : ∃ n, u = t + 1 + n := ⟨u - (t + 1), by omega⟩
  have first : (window f 0 (t + 1))[(window f 0 t).length]? = some x := by
    rw [window_succ, List.getElem?_append_right (le_refl _), Nat.sub_self, Nat.zero_add, event]
    rfl
  rw [window_add, List.getElem?_append_left, first]
  rw [window_succ, List.length_append, Nat.zero_add, event]
  simp

namespace Fifo

variable {α : Type u} {enter leave : ℕ → Option α} {contents : ℕ → List α} {pops : ℕ → Bool}
  {latency : ℕ}

/-- A queue popped a fixed number of cycles after each entry is never popped empty. -/
theorem nonempty_of_pop (fifo : Fifo enter leave contents)
    (head : ∀ t, leave t = if pops t then (contents t).head? else none) (positive : 0 < latency)
    (path : Delayed latency (fun t => (enter t).isSome) pops) {t : ℕ} (pop : pops t = true) :
    contents t ≠ [] := by
  obtain ⟨s, rfl, entered⟩ := path.request pop
  -- fewer pops so far than entries
  have pops_le : (window leave 0 (s + latency)).length ≤ events pops (s + latency) := by
    rw [window_length]
    apply Nat.count_mono_left
    intro u _ left
    by_contra silent
    simp [head, silent] at left
  have fewer : events pops (s + latency) < (window enter 0 (s + latency)).length := by
    rw [path.events_eq, window_length]
    exact Nat.count_strict_mono entered (by omega)
  have conserved := fifo.length_eq (s + latency)
  intro none
  rw [none, List.length_nil] at conserved
  omega

/-- **Such a queue is a delay line.** -/
theorem delay (fifo : Fifo enter leave contents)
    (head : ∀ t, leave t = if pops t then (contents t).head? else none) (positive : 0 < latency)
    (path : Delayed latency (fun t => (enter t).isSome) pops) (t : ℕ) :
    leave (t + latency) = enter t := by
  have left (u : ℕ) : (leave u).isSome = pops u := by
    rw [head]
    cases pop : pops u with
    | false => rfl
    | true =>
        obtain ⟨x, rest, queue⟩ := List.exists_cons_of_ne_nil
          (fifo.nonempty_of_pop head positive path pop)
        rw [queue]
        rfl
  have same : (leave (t + latency)).isSome = (enter t).isSome := by
    rw [left, path.delayed]
  have position : (window leave 0 (t + latency)).length = (window enter 0 t).length := by
    rw [window_length, window_length, funext left]
    exact path.events_eq t
  cases entered : enter t with
  | none =>
      rw [entered, Option.isSome_none] at same
      exact Option.not_isSome_iff_eq_none.mp (by rw [same]; exact Bool.false_ne_true)
  | some x =>
      rw [entered] at same
      obtain ⟨y, leaves⟩ := Option.isSome_iff_exists.mp same
      have out := fifo.left_eq leaves
      rw [position, window_getElem? (Nat.lt_add_of_pos_right positive) entered] at out
      rw [leaves, out]

end Fifo

/-! ## A shift register -/

section Shift

variable {α : Type u} {line : ℕ → List α} {x : ℕ → α} {d : α} {n : ℕ}

/-- A shift register holds what was put in, behind what it began with. -/
theorem shift_eq (start : line 0 = List.replicate n d)
    (next : ∀ t, line (t + 1) = (line t).tail ++ [x t]) (positive : 0 < n) (t : ℕ) :
    line t = (List.replicate n d ++ (List.range t).map x).drop t := by
  induction t with
  | zero => rw [start, List.range_zero, List.map_nil, List.append_nil, List.drop_zero]
  | succ t ih =>
      have long : t + 1 ≤ (List.replicate n d ++ (List.range t).map x).length := by
        simp
        omega
      rw [next, ih, List.tail_drop, List.range_succ, List.map_append, ← List.append_assoc,
        List.drop_append_of_le_length long]
      rfl

/-- Its head is what it began with, and then what was put in `n` cycles before. -/
theorem shift_head (start : line 0 = List.replicate n d)
    (next : ∀ t, line (t + 1) = (line t).tail ++ [x t]) (positive : 0 < n) :
    (∀ t < n, (line t).head? = some d) ∧ ∀ t, (line (t + n)).head? = some (x t) := by
  have head (t : ℕ) : (line t).head? = (List.replicate n d ++ (List.range t).map x)[t]? := by
    rw [shift_eq start next positive t, List.head?_drop]
  constructor
  · intro t soon
    rw [head, List.getElem?_append_left (by simpa using soon)]
    simp [soon]
  · intro t
    rw [head, List.getElem?_append_right (by simp), List.length_replicate, Nat.add_sub_cancel]
    simp [positive]

end Shift

end MiniMac.Theory
