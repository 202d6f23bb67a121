/-
# Accel.JobCompletion -- when the end of a job is seen

The done register follows the cores' one-cycle pulses and forgets them, so the
enabled cores are covered only in a cycle after all of them pulse together, and
the completion lasts only while they keep pulsing.  A start in the very cycle in
which the previous operation closes is lost: the closing assignment comes last.
`job_completes_iff` says that nothing else can go wrong.
-/
import MiniMac.Accel.MacMulticore
import Mathlib.Tactic.FinCases

namespace MiniMac.Accel.MacMulticore

open MiniMac.Theory

set_option autoImplicit false

variable (ins : ℕ → Inputs)

/-! ## Jobs -/

/-- Every enabled core has pulsed in the cycles after `g` and before `t`. -/
def PulsedBefore (en : BitVec 4) (g t : ℕ) : Prop :=
  ∀ k : Fin 4, en.getLsbD k = true → ∃ u, g < u ∧ u < t ∧ (ins u).coreDone.getLsbD k = true

/-- A job over the cores `en`, started in cycle `g` and observed up to cycle `U`: the
first pulse of the last core is in cycle `T`, and after it the DMA is not done
before `U`. -/
structure Job (en : BitVec 4) (g T U : ℕ) : Prop where
  start : globalStart (after ins g) = true
  mask : ∀ t, g ≤ t → t ≤ U → coreEn (after ins t) = en
  noStart : ∀ t, g < t → t ≤ U → globalStart (after ins t) = false
  pulsed : PulsedBefore ins en g (T + 1)
  first : ¬ PulsedBefore ins en g T
  observed : T < U
  waiting : ∀ t, T < t → t < U → (ins t).dmaDoneI = false

/-- The completion is up from the cycle after the last pulse, and it sets the done
flag when the DMA is done. -/
def Completes (T U : ℕ) : Prop :=
  (∀ t, T < t → t ≤ U → doneO (after ins t) = true) ∧
    ((ins U).dmaDoneI = true → (after ins (U + 1)).regs.stickyDone = true)

/-- The operation before closes in the cycle of the start. -/
def Swallowed (g : ℕ) : Prop := doneO (after ins g) = true ∧ (ins g).dmaDoneI = true

/-! ## One edge -/

section Step

variable {ins} {t : ℕ}

theorem coreDoneR_succ (noStart : globalStart (after ins t) = false) :
    (after ins (t + 1)).coreDoneR = (ins t).coreDone := by
  rw [after_succ]
  simp [step, noStart]

theorem coreDoneR_start (start : globalStart (after ins t) = true) :
    (after ins (t + 1)).coreDoneR = 0 := by
  rw [after_succ]
  simp [step, start]

/-- Without a start the operation stays open unless it closes. -/
theorem operationActiveR_succ (noStart : globalStart (after ins t) = false)
    (noClose : doneO (after ins t) = false ∨ (ins t).dmaDoneI = false) :
    (after ins (t + 1)).operationActiveR = (after ins t).operationActiveR := by
  have open_ : (doneO (after ins t) && (ins t).dmaDoneI) = false := by
    rcases noClose with h | h <;> simp [h]
  rw [doneO] at open_
  rw [after_succ]
  simp [step, noStart, open_]

theorem operationActiveR_start (start : globalStart (after ins t) = true) :
    (after ins (t + 1)).operationActiveR = true ↔ ¬ Swallowed ins t := by
  rw [after_succ, Swallowed, doneO]
  cases active : (after ins t).operationActiveR <;>
    cases covered : covers (coreEn (after ins t)) (after ins t).coreDoneR <;>
      simp [step, start, active, covered]

theorem stickyDone_succ (t : ℕ) : (after ins (t + 1)).regs.stickyDone =
    (!MacCfgRegs.clearsDone (regsInputs (after ins t) (ins t)) &&
      (doneO (after ins t) && (ins t).dmaDoneI || (after ins t).regs.stickyDone)) := by
  rw [after_succ]
  exact MacCfgRegs.step_stickyDone _ _

end Step

/-! ## Whole jobs -/

namespace Job

variable {ins} {en : BitVec 4} {g T U : ℕ}

/-- The last core pulses in `T`, after the start. -/
theorem start_lt (job : Job ins en g T U) : g < T := by
  by_contra early
  apply job.first
  intro k enabled
  obtain ⟨u, low, high, _⟩ := job.pulsed k enabled
  omega

/-- The cores are covered in a cycle exactly when they all pulse in the cycle before. -/
theorem covers_succ (job : Job ins en g T U) {t : ℕ} (low : g < t) (high : t < U) :
    covers (coreEn (after ins (t + 1))) (after ins (t + 1)).coreDoneR =
      covers en (ins t).coreDone := by
  rw [job.mask (t + 1) (by omega) (by omega), coreDoneR_succ (job.noStart t low (by omega))]

/-- Before the last core's first pulse the operation cannot be complete. -/
theorem doneO_early (job : Job ins en g T U) {t : ℕ} (low : g < t) (high : t ≤ T) :
    doneO (after ins t) = false := by
  have observed := job.observed
  have uncovered : covers (coreEn (after ins t)) (after ins t).coreDoneR = false := by
    by_contra covered
    rw [Bool.not_eq_false, covers_iff, job.mask t (by omega) (by omega)] at covered
    apply job.first
    intro k enabled
    have pulse := covered k enabled
    obtain ⟨u, rfl⟩ : ∃ u, t = u + 1 := ⟨t - 1, by omega⟩
    rcases Nat.eq_or_lt_of_le (Nat.le_of_lt_succ low) with rfl | later
    · rw [coreDoneR_start job.start] at pulse
      simp at pulse
    · rw [coreDoneR_succ (job.noStart u later (by omega))] at pulse
      exact ⟨u, later, by omega, pulse⟩
  rw [doneO, uncovered, Bool.and_false]

/-- Up to the end of the observation the operation is open if its start was taken. -/
theorem operationActiveR_eq (job : Job ins en g T U) :
    ∀ t, g < t → t ≤ U →
      ((after ins t).operationActiveR = true ↔ ¬ Swallowed ins g) := by
  intro t low
  induction t, low using Nat.le_induction with
  | base =>
      intro _
      exact operationActiveR_start job.start
  | succ t low ih =>
      intro upto
      have noClose : doneO (after ins t) = false ∨ (ins t).dmaDoneI = false := by
        rcases Nat.lt_or_ge T t with late | early
        · exact .inr (job.waiting t late upto)
        · exact .inl (job.doneO_early low early)
      rw [operationActiveR_succ (job.noStart t low (by omega)) noClose]
      exact ih (by omega)

/-- The completion in a cycle after the last pulse. -/
theorem doneO_succ (job : Job ins en g T U) {t : ℕ} (low : T ≤ t) (high : t < U) :
    doneO (after ins (t + 1)) = true ↔
      ¬ Swallowed ins g ∧ covers en (ins t).coreDone = true := by
  have started := job.start_lt
  rw [doneO, Bool.and_eq_true, job.covers_succ (by omega) high,
    job.operationActiveR_eq (t + 1) (by omega) (by omega)]

end Job

/-- **A job's end is seen exactly when** its start was not swallowed, the enabled
cores pulse together from the last core's first pulse on until the DMA is done, and
no clearing write meets the completion. -/
theorem job_completes_iff (en : BitVec 4) (g T U : ℕ) (job : Job ins en g T U) :
    Completes ins T U ↔
      ¬ Swallowed ins g ∧
      (∀ t, T ≤ t → t < U → ∀ k : Fin 4, en.getLsbD k = true → (ins t).coreDone.getLsbD k = true) ∧
      ((ins U).dmaDoneI = true →
        MacCfgRegs.clearsDone (regsInputs (after ins U) (ins U)) = false) := by
  have observed := job.observed
  have flag (up : doneO (after ins U) = true) (done : (ins U).dmaDoneI = true) :
      (after ins (U + 1)).regs.stickyDone = true ↔
        MacCfgRegs.clearsDone (regsInputs (after ins U) (ins U)) = false := by
    rw [stickyDone_succ, up, done]
    simp
  constructor
  · rintro ⟨up, sets⟩
    have each (t : ℕ) (low : T ≤ t) (high : t < U) :=
      (job.doneO_succ low high).mp (up (t + 1) (by omega) (by omega))
    refine ⟨(each T (le_refl T) observed).1, ?_, ?_⟩
    · intro t low high
      exact (covers_iff _ _).mp (each t low high).2
    · intro done
      exact (flag (up U observed (le_refl U)) done).mp (sets done)
  · rintro ⟨taken, together, unwritten⟩
    have up (t : ℕ) (low : T < t) (high : t ≤ U) : doneO (after ins t) = true := by
      obtain ⟨u, rfl⟩ : ∃ u, t = u + 1 := ⟨t - 1, by omega⟩
      refine (job.doneO_succ (by omega) high).mpr ⟨taken, ?_⟩
      exact (covers_iff _ _).mpr (together u (by omega) (by omega))
    refine ⟨up, ?_⟩
    intro done
    exact (flag (up U observed (le_refl U)) done).mpr (unwritten done)

/-! ## Four cores after one start -/

/-- A start written to CTRL, then the given done pulses; the DMA is done in cycle 7. -/
def startThen (pulses : ℕ → BitVec 4) (t : ℕ) : Inputs where
  paddr := 0
  psel := decide (t = 0)
  penable := decide (t = 0)
  pwrite := decide (t = 0)
  pwdata := 1
  dmaBusyI := false
  dmaDoneI := decide (t = 7)
  dmaInputsDoneI := false
  dmaWgtDoneI := false
  dmaActDoneI := false
  dmaResDoneI := false
  coreDone := pulses t

/-- The cores' pulses as the launch staggers them. -/
def staggered (t : ℕ) : BitVec 4 :=
  if t = 3 then 0b0001 else if t = 4 then 0b1010 else if t = 5 then 0b0100 else 0

theorem startThen_staggered : Job (startThen staggered) 0b1111 1 5 7 where
  start := rfl
  mask := by decide
  noStart := show ∀ t, 2 ≤ t → t ≤ 7 → globalStart (after (startThen staggered) t) = false by decide
  pulsed k _ := by
    fin_cases k
    · exact ⟨3, by decide, by decide, rfl⟩
    · exact ⟨4, by decide, by decide, rfl⟩
    · exact ⟨5, by decide, by decide, rfl⟩
    · exact ⟨4, by decide, by decide, rfl⟩
  first early := by
    obtain ⟨u, low, high, pulse⟩ := early 2 rfl
    obtain rfl | rfl | rfl : u = 2 ∨ u = 3 ∨ u = 4 := by omega
    all_goals exact absurd pulse (by decide)
  observed := by decide
  waiting t _ before := decide_eq_false (by omega)

/-- All four pulses from cycle 3 on. -/
def together (t : ℕ) : BitVec 4 := if 3 ≤ t then 0b1111 else 0

theorem startThen_together : Job (startThen together) 0b1111 1 3 7 where
  start := rfl
  mask := by decide
  noStart := show ∀ t, 2 ≤ t → t ≤ 7 → globalStart (after (startThen together) t) = false by decide
  pulsed k _ := ⟨3, by decide, by decide, by revert k; decide⟩
  first early := by
    obtain ⟨u, low, high, pulse⟩ := early 0 rfl
    obtain rfl : u = 2 := by omega
    exact absurd pulse (by decide)
  observed := by decide
  waiting t _ before := decide_eq_false (by omega)

/-- Cores that keep pulsing together are seen to complete. -/
theorem job_completes_together : Completes (startThen together) 3 7 :=
  (job_completes_iff _ _ _ _ _ startThen_together).mpr
    ⟨by unfold Swallowed; decide, by decide, by decide⟩

/-- Cores that finish one after another, as they are started, are never seen to
complete. -/
theorem staggered_job_incomplete :
    ¬ ∀ (ins : ℕ → Inputs) (en : BitVec 4) (g T U : ℕ), Job ins en g T U → Completes ins T U := by
  intro claim
  have up := (claim _ _ _ _ _ startThen_staggered).1 6 (by decide) (by decide)
  exact absurd up (by decide)

end MiniMac.Accel.MacMulticore
