/-
# Theory.RingSlots -- slots filled through a wrapping pointer

Values arrive one at a time and each goes to the slot its position has modulo
`depth`.  `ringSlot` is what a slot holds after a list of arrivals: the last one
that hit it, or the blank it started with.  A slot that should keep the arrival of
its own position does so over a whole run exactly when every later arrival that hits
it looks the same (`slotsHold_iff`).
-/
import MiniMac.Theory.Clocked
import Mathlib.Data.List.GetD
import Mathlib.Data.List.Induction

namespace MiniMac.Theory

set_option autoImplicit false

universe u

variable {α : Type u}

/-- The slot after the arrivals, latest first. -/
def ringSlotRev (depth : ℕ) (blank : α) (slot : ℕ) : List α → α
  | [] => blank
  | x :: earlier =>
      if earlier.length % depth = slot then x else ringSlotRev depth blank slot earlier

/-- What slot `slot` of a ring of `depth` slots holds after the arrivals. -/
def ringSlot (depth : ℕ) (blank : α) (slot : ℕ) (arrivals : List α) : α :=
  ringSlotRev depth blank slot arrivals.reverse

variable {depth : ℕ} {blank : α} {slot : ℕ}

@[simp] theorem ringSlot_nil : ringSlot depth blank slot [] = blank := rfl

theorem ringSlot_snoc (arrivals : List α) (x : α) :
    ringSlot depth blank slot (arrivals ++ [x]) =
      if arrivals.length % depth = slot then x else ringSlot depth blank slot arrivals := by
  simp [ringSlot, ringSlotRev]

/-- Until the ring wraps, a slot holds the arrival of its own position. -/
theorem ringSlot_of_length_le (arrivals : List α) (fits : arrivals.length ≤ depth) :
    ringSlot depth blank slot arrivals = arrivals.getD slot blank := by
  induction arrivals using List.reverseRecOn with
  | nil => simp
  | append_singleton earlier x ih =>
      rw [List.length_append, List.length_singleton] at fits
      rw [ringSlot_snoc, ih (by omega), Nat.mod_eq_of_lt (by omega)]
      rcases Nat.lt_trichotomy slot earlier.length with before | rfl | past
      · rw [if_neg (by omega), List.getD_append _ _ _ _ before]
      · rw [if_pos rfl, List.getD_append_right _ _ _ _ (Nat.le_refl _), Nat.sub_self]
        rfl
      · rw [if_neg (by omega), List.getD_eq_default _ _ (by omega),
          List.getD_eq_default _ _ (by simp; omega)]

/-! ## The latest arrival of a slot -/

/-- A slot holds the last of the arrivals that came to it. -/
theorem ringSlot_latest (arrivals : List α) (within : slot < depth) :
    ringSlot depth blank slot arrivals =
      if slot < arrivals.length then
        arrivals.getD (slot + depth * ((arrivals.length - 1 - slot) / depth)) blank
      else blank := by
  induction arrivals using List.reverseRecOn with
  | nil => rfl
  | append_singleton earlier x ih =>
      rw [ringSlot_snoc, List.length_append, List.length_singleton, Nat.add_sub_cancel]
      by_cases hit : earlier.length % depth = slot
      · have whole := Nat.mod_add_div earlier.length depth
        have rounds : (earlier.length - slot) / depth = earlier.length / depth := by
          rw [show earlier.length - slot = depth * (earlier.length / depth) by omega,
            Nat.mul_div_cancel_left _ (by omega)]
        rw [if_pos hit, if_pos (by have := Nat.mod_le earlier.length depth; omega), rounds, ← hit,
          whole, List.getD_append_right _ _ _ _ (le_refl _), Nat.sub_self]
        rfl
      · rw [if_neg hit, ih]
        rcases Nat.lt_trichotomy slot earlier.length with before | same | past
        · -- the arrival goes to another slot, so the round of this one is the same
          have rounds : (earlier.length - slot) / depth = (earlier.length - 1 - slot) / depth := by
            obtain ⟨d, split⟩ : ∃ d, earlier.length = slot + d + 1 := ⟨_, (by omega :
              earlier.length = slot + (earlier.length - slot - 1) + 1)⟩
            rw [show earlier.length - slot = d + 1 by omega,
              show earlier.length - 1 - slot = d by omega, Nat.succ_div, if_neg]
            · rfl
            · rintro ⟨k, turns⟩
              apply hit
              rw [split, show slot + d + 1 = slot + depth * k by omega, Nat.add_mul_mod_self_left,
                Nat.mod_eq_of_lt within]
          have inside : slot + depth * ((earlier.length - 1 - slot) / depth) < earlier.length := by
            have := Nat.mul_div_le (earlier.length - 1 - slot) depth
            omega
          rw [if_pos before, if_pos (by omega), rounds, List.getD_append _ _ _ _ inside]
        · rw [same] at hit within
          exact absurd (Nat.mod_eq_of_lt within) hit
        · rw [if_neg (by omega), if_neg (by omega)]

theorem blocks_length (block : ℕ → List α) {size n : ℕ} (each : ∀ j < n, (block j).length = size) :
    ((List.range n).flatMap block).length = size * n := by
  induction n with
  | zero => rfl
  | succ n ih =>
      rw [List.range_succ, List.flatMap_append, List.length_append,
        ih fun j low => each j (by omega), List.flatMap_singleton, each n (Nat.lt_succ_self n),
        Nat.mul_succ]

/-- An entry of blocks of one size, laid end to end. -/
theorem blocks_getD (block : ℕ → List α) {size n : ℕ} (each : ∀ j < n, (block j).length = size)
    {j p : ℕ} (earlier : j < n) (inside : p < size) :
    ((List.range n).flatMap block).getD (size * j + p) blank = (block j).getD p blank := by
  induction n with
  | zero => exact absurd earlier (Nat.not_lt_zero j)
  | succ n ih =>
      have before : ∀ k < n, (block k).length = size := fun k low => each k (by omega)
      have total := blocks_length block before
      rw [List.range_succ, List.flatMap_append, List.flatMap_singleton]
      rcases Nat.lt_succ_iff_lt_or_eq.mp earlier with here | rfl
      · have room : size * j + p < size * n := by
          have := Nat.mul_le_mul_left size (Nat.succ_le_of_lt here)
          rw [Nat.mul_succ] at this
          omega
        rw [List.getD_append _ _ _ _ (by rw [total]; exact room)]
        exact ih before here
      · rw [List.getD_append_right _ _ _ _ (by rw [total]; omega), total, Nat.add_sub_cancel_left]

/-- **Blocks through a ring**: with a block size that divides the depth, a slot holds its
entry of the block that was the first of the current round. -/
theorem ringSlot_blocks (block : ℕ → List α) {size rounds n : ℕ} (depth_eq : depth = size * rounds)
    (each : ∀ j ≤ n, (block j).length = size) (inside : slot < size) (turn : 0 < rounds) :
    ringSlot depth blank slot ((List.range (n + 1)).flatMap block) =
      (block (rounds * (n / rounds))).getD slot blank := by
  have total := blocks_length block (n := n + 1) fun j low => each j (by omega)
  have within : slot < depth := by
    rw [depth_eq]
    exact Nat.lt_of_lt_of_le inside (Nat.le_mul_of_pos_right size turn)
  have round : (size * (n + 1) - 1 - slot) / depth = n / rounds := by
    rw [depth_eq, ← Nat.div_div_eq_div_mul]
    congr 1
    rw [show size * (n + 1) - 1 - slot = size * n + (size - 1 - slot) by rw [Nat.mul_succ]; omega,
      Nat.mul_add_div (by omega), Nat.div_eq_of_lt (by omega), Nat.add_zero]
  have first : rounds * (n / rounds) ≤ n := Nat.mul_div_le n rounds
  rw [ringSlot_latest _ within, total, if_pos (by rw [Nat.mul_succ]; omega), round, depth_eq,
    Nat.mul_assoc, Nat.add_comm slot]
  exact blocks_getD block (fun j low => each j (by omega)) (Nat.lt_succ_of_le first) inside

/-! ## Slots that keep their first arrival -/

section Keeping

universe v

variable {β : Type v} (look : α → β) (size : ℕ)

/-- The slots below `size` look like the arrivals of their own positions. -/
def SlotsHold (depth : ℕ) (blank : α) (arrivals : List α) : Prop :=
  ∀ slot < size, look (ringSlot depth blank slot arrivals) = look (arrivals.getD slot blank)

/-- An arrival that comes to a slot again looks like the first one there. -/
def Repeats (depth : ℕ) (blank : α) (arrivals : List α) (x : α) : Prop :=
  depth ≤ arrivals.length → arrivals.length % depth < size →
    look x = look (arrivals.getD (arrivals.length % depth) blank)

variable {look size}

theorem slotsHold_snoc_iff (fits : size ≤ depth) {arrivals : List α} {x : α}
    (holds : SlotsHold look size depth blank arrivals) :
    SlotsHold look size depth blank (arrivals ++ [x]) ↔
      Repeats look size depth blank arrivals x := by
  constructor
  · intro next full within
    have slot := next _ within
    have earlier : arrivals.length % depth < arrivals.length := by omega
    rw [ringSlot_snoc, if_pos rfl, List.getD_append _ _ _ _ earlier] at slot
    exact slot
  · intro repeats slot within
    rw [ringSlot_snoc]
    by_cases hit : arrivals.length % depth = slot
    · rw [if_pos hit]
      rcases Nat.lt_or_ge arrivals.length depth with first | full
      · rw [Nat.mod_eq_of_lt first] at hit
        rw [← hit, List.getD_append_right _ _ _ _ (Nat.le_refl _), Nat.sub_self]
        rfl
      · subst hit
        have low := Nat.mod_lt arrivals.length (show 0 < depth by omega)
        rw [List.getD_append _ _ _ _ (by omega)]
        exact repeats full within
    · rw [if_neg hit, holds slot within]
      rcases Nat.lt_trichotomy slot arrivals.length with before | same | past
      · rw [List.getD_append _ _ _ _ before]
      · rw [same] at within hit
        exact absurd (Nat.mod_eq_of_lt (by omega)) hit
      · rw [List.getD_eq_default _ _ (by omega), List.getD_eq_default _ _ (by simp; omega)]

/-- **The slots of a run keep their first arrivals exactly when** every arrival repeats the
first one of its slot. -/
theorem slotsHold_iff (fits : size ≤ depth) (arrives : ℕ → Option α) :
    (∀ t, SlotsHold look size depth blank (Clocked.window arrives 0 t)) ↔
      ∀ t x, arrives t = some x →
        Repeats look size depth blank (Clocked.window arrives 0 t) x := by
  have next (t : ℕ) : Clocked.window arrives 0 (t + 1) =
      Clocked.window arrives 0 t ++ (arrives t).toList := by
    rw [Clocked.window_succ, Nat.zero_add]
  constructor
  · intro holds t x arrival
    have after := holds (t + 1)
    rw [next, arrival] at after
    exact (slotsHold_snoc_iff fits (holds t)).mp after
  · intro repeats t
    induction t with
    | zero =>
        intro slot within
        rfl
    | succ t ih =>
        rw [next]
        cases arrival : arrives t with
        | none =>
            rw [Option.toList_none, List.append_nil]
            exact ih
        | some x => exact (slotsHold_snoc_iff fits ih).mpr (repeats t x arrival)

end Keeping

end MiniMac.Theory
