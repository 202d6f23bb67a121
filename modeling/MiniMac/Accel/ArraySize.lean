/-
# Accel.ArraySize -- the 32x32 instance against the 4x4 instance

The array size decides where a weight beat lands in the buffer and which rows a
column's window covers.  Sixteen weight beats fill the first half of row 0 of a
32x32 buffer, and with `M = N = 4` the windows of its first four columns lie in
rows 26 to 32, where there are no activations.  So the shipped instance returns
zeros, and it agrees with the verified one exactly when that one does too.
-/
import MiniMac.Accel.ClosedForm

namespace MiniMac.Accel.MacCoreAxi

set_option autoImplicit false

variable {rows cols : ℕ}

/-- On the 32x32 instance the four words are zero. -/
theorem windowSum_shipped (weights activations : List (BitVec 8)) (four : activations.length = 4)
    (c : Fin 32) (within : c.val < 4) :
    windowSum (weightAt weights : Fin 32 → Fin 32 → BitVec 8) (activationAt activations) 4 4 c =
      0 := by
  apply Finset.sum_eq_zero
  intro r _
  split
  · rename_i seen
    have far : activations.length ≤ r := by
      have := seen.1
      omega
    have zero : activationAt activations r = (0 : BitVec 8) := List.getD_eq_default _ _ far
    simp [zero]
  · rfl

/-- **The shipped array agrees with the verified array exactly on the operands for
which the verified array returns zeros.** -/
theorem shipped_agrees_iff (weights activations : List (BitVec 8)) (sixteen : weights.length = 16)
    (four : activations.length = 4) (s₀ : State 4 4 8) (s₁ : State 32 32 8) (ins : ℕ → Inputs)
    (s : ℕ) (run : LoadsAndStarts 8 weights activations 4 4 ins s) (T : ℕ) (late : s + 18 < T) :
    resBeats s₁ ins 0 T = resBeats s₀ ins 0 T ↔
      ∀ c : Fin 4, windowSum (weightAt weights : Fin 4 → Fin 4 → BitVec 8)
        (activationAt activations) 4 4 c = 0 := by
  have verified := run.beats_eq s₀ (by decide) (by decide) (by decide) (by omega) (by omega)
    T (by omega)
  have shipped := run.beats_eq s₁ (by decide) (by decide) (by decide) (by omega) (by omega)
    T (by omega)
  rw [verified, shipped, jobWords, jobWords, List.ofFn_inj, funext_iff]
  apply forall_congr'
  intro c
  have zero := windowSum_shipped weights activations four (c.castLE (by decide)) c.isLt
  rw [Prod.mk.injEq, and_iff_left rfl, zero, eq_comm]
  exact ofInt_windowSum_eq_zero_iff (by decide) _ _ 4 4 _

/-- Weights whose products cancel in each window of the 4x4 instance. -/
def cancelWeights : List (BitVec 8) := [1, 1, 1, 9, -2, -1, 1, 1, 7, -1, 0, 2, 5, 4, -1, -1]

/-- There the two agree. -/
theorem shipped_agrees_on_zero :
    resBeats (blank : State 32 32 8) (jobStream cancelWeights [2, 1, 1, 3] 4 4) 0 40 =
      resBeats (blank : State 4 4 8) (jobStream cancelWeights [2, 1, 1, 3] 4 4) 0 40 :=
  (shipped_agrees_iff cancelWeights [2, 1, 1, 3] rfl rfl blank blank _ 20
    (jobStream_runs cancelWeights [2, 1, 1, 3] 4 4) 40 (by decide)).mpr (by decide)

/-- The directed test's first vector tells the two instances apart. -/
theorem shipped_disagrees :
    ¬ ∀ (weights activations : List (BitVec 8)), weights.length = 16 → activations.length = 4 →
      ∀ (s₀ : State 4 4 8) (s₁ : State 32 32 8) (ins : ℕ → Inputs) (s : ℕ),
        LoadsAndStarts 8 weights activations 4 4 ins s → ∀ T, s + 18 < T →
          resBeats s₁ ins 0 T = resBeats s₀ ins 0 T := by
  intro claim
  have run := jobStream_runs testWeights testActivations 4 4
  have same := claim testWeights testActivations rfl rfl blank blank _ _ run 40 (by decide)
  have verified := run.beats_eq (blank : State 4 4 8) (by decide) (by decide) (by decide)
    (by decide) (by decide) 40 (by decide)
  have shipped := run.beats_eq (blank : State 32 32 8) (by decide) (by decide) (by decide)
    (by decide) (by decide) 40 (by decide)
  have first := congrArg (fun beats => (beats[0]?).map Prod.fst)
    (shipped.symm.trans (same.trans verified))
  have zero := windowSum_shipped testWeights testActivations rfl 0 (by decide)
  have left : (jobWords (weightAt testWeights : Fin 32 → Fin 32 → BitVec 8)
      (activationAt testActivations) 4 4 (by decide))[0]?.map Prod.fst = some 0 := by
    exact (jobWords_word _ _ _ (0 : Fin 4)).trans
      (congrArg (fun x => some (BitVec.ofInt 32 x)) zero)
  have right : (jobWords (weightAt testWeights : Fin 4 → Fin 4 → BitVec 8)
      (activationAt testActivations) 4 4 (by decide))[0]?.map Prod.fst = some 5 := by
    decide
  exact absurd (left.symm.trans (first.trans right)) (by decide)

end MiniMac.Accel.MacCoreAxi
