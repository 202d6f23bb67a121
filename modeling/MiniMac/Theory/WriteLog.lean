/-
# Theory.WriteLog -- a word store as the replay of its writes

A store maps addresses to words.  A write names one address and what becomes of
the word there, so a byte-masked write and a full-word write are the same kind
of thing.  `replay` applies a log of writes in order; it is the reference a
memory is compared with.  `copyWords` is the forward word copy, as the replay of
its assignments.
-/
import Mathlib.Logic.Function.Basic
import Mathlib.Data.List.Induction

namespace MiniMac.Theory

set_option autoImplicit false

universe u v

/-- One write: the address, and the new word as a function of the old. -/
structure Write (A : Type u) (W : Type v) where
  address : A
  effect : W → W

namespace Write

variable {A : Type u} {W : Type v} [DecidableEq A]

/-- The write of a whole word. -/
def store (a : A) (word : W) : Write A W := ⟨a, fun _ => word⟩

def apply (m : A → W) (w : Write A W) : A → W :=
  Function.update m w.address (w.effect (m w.address))

theorem apply_of_ne {m : A → W} {w : Write A W} {a : A} (other : a ≠ w.address) :
    apply m w a = m a := Function.update_of_ne other _ _

@[simp] theorem apply_store (m : A → W) (a : A) (word : W) :
    apply m (store a word) = Function.update m a word := rfl

end Write

variable {A : Type u} {W : Type v} [DecidableEq A]

/-- The store after a log of writes, applied in order. -/
def replay (m : A → W) (log : List (Write A W)) : A → W := log.foldl Write.apply m

@[simp] theorem replay_nil (m : A → W) : replay m ([] : List (Write A W)) = m := rfl

theorem replay_append (m : A → W) (first rest : List (Write A W)) :
    replay m (first ++ rest) = replay (replay m first) rest := List.foldl_append

@[simp] theorem replay_cons (m : A → W) (w : Write A W) (rest : List (Write A W)) :
    replay m (w :: rest) = replay (w.apply m) rest := rfl

theorem replay_snoc (m : A → W) (log : List (Write A W)) (w : Write A W) :
    replay m (log ++ [w]) = w.apply (replay m log) := by
  rw [replay_append, replay_cons, replay_nil]

/-- A word no write of the log addresses is unchanged. -/
theorem replay_frame {m : A → W} {log : List (Write A W)} {a : A}
    (untouched : ∀ w ∈ log, a ≠ w.address) : replay m log a = m a := by
  induction log generalizing m with
  | nil => rfl
  | cons w rest ih =>
      rw [replay_cons, ih fun w' member => untouched w' (List.mem_cons_of_mem _ member)]
      exact Write.apply_of_ne (untouched w (List.mem_cons_self ..))

/-- A log does the same to one word in every store that has it. -/
theorem replay_congr {m m' : A → W} {log : List (Write A W)} {a : A} (same : m a = m' a) :
    replay m log a = replay m' log a := by
  induction log generalizing m m' with
  | nil => exact same
  | cons w rest ih =>
      rw [replay_cons, replay_cons]
      apply ih
      by_cases here : a = w.address
      · subst here
        simp [Write.apply, same]
      · rw [Write.apply_of_ne here, Write.apply_of_ne here, same]

/-- If all writes of an address store one word, a log that writes it leaves that word. -/
theorem replay_hit {m : A → W} {log : List (Write A W)} {a : A} {word : W}
    (same : ∀ w ∈ log, w.address = a → w = Write.store a word) (hit : ∃ w ∈ log, w.address = a) :
    replay m log a = word := by
  induction log using List.reverseRecOn with
  | nil => obtain ⟨w, member, _⟩ := hit; cases member
  | append_singleton earlier w ih =>
      rw [replay_snoc]
      by_cases here : w.address = a
      · rw [same w (by simp) here, Write.apply_store, Function.update_self]
      · rw [Write.apply_of_ne (Ne.symm here)]
        refine ih (fun w' member => same w' (List.mem_append_left _ member)) ?_
        obtain ⟨w', member, address⟩ := hit
        rcases List.mem_append.mp member with before | last
        · exact ⟨w', before, address⟩
        · rw [List.mem_singleton.mp last] at address
          exact absurd address here

/-- The store after `n` assignments in order, each of the word then at `src k` to `dst k`. -/
def copyWords (m : A → W) (src dst : ℕ → A) : ℕ → A → W
  | 0 => m
  | n + 1 => Function.update (copyWords m src dst n) (dst n) (copyWords m src dst n (src n))

section Copy

variable {m : A → W} {src dst : ℕ → A} {n : ℕ}

/-- A copy leaves alone what is not in its destination. -/
theorem copyWords_frame {a : A} (outside : ∀ k < n, a ≠ dst k) : copyWords m src dst n a = m a := by
  induction n with
  | zero => rfl
  | succ n ih =>
      rw [copyWords, Function.update_of_ne (outside n (Nat.lt_succ_self n))]
      exact ih fun k before => outside k (Nat.lt_succ_of_lt before)

/-- A copy to a destination apart from its source moves every word as it was. -/
theorem copyWords_hit (apart : ∀ j < n, ∀ k < n, src k ≠ dst j)
    (distinct : ∀ j < n, ∀ k < n, dst j = dst k → j = k) {k : ℕ} (within : k < n) :
    copyWords m src dst n (dst k) = m (src k) := by
  induction n with
  | zero => exact absurd within (Nat.not_lt_zero k)
  | succ n ih =>
      rw [copyWords]
      rcases Nat.lt_succ_iff_lt_or_eq.mp within with earlier | rfl
      · have other : dst k ≠ dst n := by
          intro same
          have := distinct k within n (Nat.lt_succ_self n) same
          omega
        rw [Function.update_of_ne other]
        exact ih (fun i hi j hj => apart i (by omega) j (by omega))
          (fun i hi j hj => distinct i (by omega) j (by omega)) earlier
      · rw [Function.update_self]
        exact copyWords_frame fun j before => apart j (by omega) k within

/-- A copy onto itself changes nothing. -/
theorem copyWords_self (n : ℕ) : copyWords m src src n = m := by
  induction n with
  | zero => rfl
  | succ n ih =>
      rw [copyWords, ih]
      exact Function.update_eq_self _ _

/-- If one word of the store is unlike the others, the copy moves it at most once: what is
unlike them afterwards is that word, or its copy. -/
theorem copyWords_stray {P : W → Prop} {x : A} (others : ∀ a, a ≠ x → P (m a))
    (once : ∀ i j, i < j → j < n → src i = x → src j ≠ dst i) {a : A}
    (stray : ¬ P (copyWords m src dst n a)) : a = x ∨ ∃ i < n, a = dst i ∧ src i = x := by
  induction n generalizing a with
  | zero =>
      left
      by_contra other
      exact stray (others a other)
  | succ n ih =>
      have before {b : A} := ih (a := b) fun i j low high => once i j low (by omega)
      rw [copyWords] at stray
      by_cases here : a = dst n
      · rw [here, Function.update_self] at stray
        rcases before stray with origin | ⟨i, earlier, moved, origin⟩
        · exact .inr ⟨n, Nat.lt_succ_self n, here, origin⟩
        · exact absurd moved (once i n earlier (Nat.lt_succ_self n) origin)
      · rw [Function.update_of_ne here] at stray
        rcases before stray with origin | ⟨i, earlier, moved, origin⟩
        · exact .inl origin
        · exact .inr ⟨i, by omega, moved, origin⟩

end Copy

end MiniMac.Theory
