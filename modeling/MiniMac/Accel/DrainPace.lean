/-
# Accel.DrainPace -- a word takes three cycles

The engine takes a word, puts up its request and sees the grant in three different
cycles, and the first word is on the port two cycles after the stream begins.  So the
last of `N` words is not granted before cycle `3 * N + 1` of a drain.
-/
import MiniMac.Accel.ResultDrain

namespace MiniMac.Accel.MacDma

open MiniMac.Theory

set_option autoImplicit false

variable {rows cols dataW : ℕ}

/-- The first cycle of a drain in which a pair with `k` words written can look like this. -/
def due (k : ℕ) (s : State rows cols dataW) : ℕ :=
  match s.dma.state with
  | .runArray => if s.core.mAxisResTvalid then 1 else 0
  | .resWrite => if s.dma.mReqO then 3 * k + 4 else 3 * k + 3
  | _ => 3 * k + 2

namespace Drain

variable {s : State rows cols dataW} {ins : ℕ → Inputs} {N : ℕ} {base : BitVec 32}

/-- A drain is never ahead of its time. -/
theorem due_le (drain : Drain s ins N base) (t : ℕ) : ∃ k, k ≤ N ∧
    Stage N base s.core.resBuf k (after s ins t) ∧
    wordWrites s ins t = (List.range k).map (resWrite base s.core.resBuf) ∧
    due k (after s ins t) ≤ t := by
  have pos := drain.pos
  have fits := drain.fits
  have small := drain.small
  induction t with
  | zero =>
      refine ⟨0, Nat.zero_le N, .awaiting drain.start, rfl, ?_⟩
      have begins : due 0 s = 0 := by simp [due, drain.start.phase, drain.start.silent]
      exact begins.le
  | succ t ih =>
      obtain ⟨k, upto, stage, words, early⟩ := ih
      have quiet := drain.quiet t
      have silent (none : wordWrite (after s ins t) (ins t) = none) :
          wordWrites s ins (t + 1) = (List.range k).map (resWrite base s.core.resBuf) := by
        rw [wordWrites_succ, words, none]
        exact List.append_nil _
      rw [after_succ]
      cases stage with
      | awaiting at_ =>
          have next := at_.step quiet pos fits small
          refine ⟨0, upto, .offered next, silent (Stage.wordWrite_none (by simp [at_.phase])), ?_⟩
          simp [due, next.phase, next.valid]
      | offered at_ =>
          have next := at_.step quiet pos fits small
          refine ⟨0, upto, .opened next, silent (Stage.wordWrite_none (by simp [at_.phase])), ?_⟩
          simp only [due, at_.phase, at_.valid, if_true] at early
          simp only [due, next.phase]
          omega
      | opened at_ =>
          have next := at_.step quiet fits small
          refine ⟨k, upto, .fresh next, silent (Stage.wordWrite_none (by simp [at_.phase])), ?_⟩
          simp only [due, at_.phase] at early
          simp only [due, next.phase, next.noRequest, Bool.false_eq_true, if_false]
          omega
      | fresh at_ =>
          have next := at_.step quiet small
          refine ⟨k, upto, .asking next, silent (by simp [wordWrite, granted, at_.noRequest]), ?_⟩
          simp only [due, at_.phase, at_.noRequest, Bool.false_eq_true, if_false] at early
          simp only [due, next.phase, next.request, if_true]
          omega
      | asking at_ =>
          simp only [due, at_.phase, at_.request, if_true] at early
          cases taken : (ins t).memGnt with
          | false =>
              have next := at_.stall quiet fits small taken
              refine ⟨k, upto, .asking next, silent (by simp [wordWrite, granted, taken]), ?_⟩
              simp only [due, next.phase, next.request, if_true]
              omega
          | true =>
              obtain ⟨next, elsewhere, -⟩ := Stage.asking_taken at_ quiet fits small taken
              refine ⟨k + 1, at_.within, next, ?_, ?_⟩
              · rw [wordWrites_succ, words, Stage.wordWrite_asking at_ taken, List.range_succ,
                  List.map_append]
                rfl
              · cases next with
                | opened next =>
                    simp only [due, next.phase]
                    omega
                | finished next =>
                    simp only [due, next.phase]
                    omega
                | stuck next =>
                    simp only [due, next.phase]
                    omega
                | fresh next => exact absurd next.phase elsewhere
                | asking next => exact absurd next.phase elsewhere
      | finished at_ =>
          have next := at_.step quiet
          refine ⟨N, upto, .finished next, silent (Stage.wordWrite_none (by simp [at_.phase])), ?_⟩
          simp only [due, at_.phase] at early
          simp only [due, next.phase]
          omega
      | stuck at_ =>
          have next := at_.step quiet
          refine ⟨N, upto, .stuck next, silent (Stage.wordWrite_none (by simp [at_.phase])), ?_⟩
          simp only [due, at_.phase] at early
          simp only [due, next.phase]
          omega

/-- **The last word comes late.** -/
theorem last_late (drain : Drain s ins N base) {T : ℕ}
    (before : (wordWrites s ins T).length = N - 1)
    (last : (wordWrite (after s ins T) (ins T)).isSome = true) : 3 * N + 1 ≤ T := by
  have pos := drain.pos
  obtain ⟨k, -, -, words, early⟩ := drain.due_le T
  obtain ⟨_, _, _, _, asking⟩ := drain.last_word before last
  rw [words, List.length_map, List.length_range] at before
  simp only [due, asking.phase, asking.request, if_true] at early
  omega

end Drain

end MiniMac.Accel.MacDma
