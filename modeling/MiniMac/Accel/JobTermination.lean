/-
# Accel.JobTermination -- which jobs come to an end

The feed and the drain end when their counter stands at the dimension less one, and
the comparison is made on 32 bits: less one than zero is a value no 8-bit counter
takes.  A job whose two dimensions are not zero returns to the idle phase with one
done pulse, also when it is wider than the array; any other feeds or drains for ever
(`job_terminates_iff`).
-/
import MiniMac.Accel.ClosedForm
import Mathlib.Data.Nat.Find

namespace MiniMac.Accel.MacCoreAxi

open MiniMac.Theory

set_option autoImplicit false

variable {rows cols dataW : ℕ}

section Step

variable {s : State rows cols dataW} {i : Inputs}

theorem isLast_zero (cnt : BitVec 8) : isLast cnt 0 = false := by
  by_contra last
  have count := (isLast_iff cnt 0).mp (by simpa using last)
  cases count

/-- The done output is set on the way back to the idle phase, and cleared there. -/
theorem step_coreDoneO :
    (step s i).coreDoneO =
      if s.state = .idle then false
      else if (step s i).state = .idle then true else s.coreDoneO := by
  cases phase : s.state <;> simp [step, fsm, phase, capture, defaults] <;> split <;> simp_all

end Step

/-! ## Started jobs -/

variable (s₀ : State rows cols dataW) (ins : ℕ → Inputs) (s : ℕ)

/-- The core has not been idle after cycle `s`, up to cycle `t`. -/
def Running (t : ℕ) : Prop := ∀ u, s < u → u ≤ t → (after s₀ ins u).state ≠ .idle

/-- A job of `m` by `n` is started in cycle `s`; while it runs the dimensions are held and the
result port is ready. -/
structure Started (m n : BitVec 8) : Prop where
  idle : (after s₀ ins s).state = .idle
  launch : (ins s).coreStartI = true
  held : ∀ t, s < t → Running s₀ ins s t →
    (ins t).regMI = m ∧ (ins t).regNI = n ∧ (ins t).mAxisResTready = true

/-- The core is idle again in cycle `e`, and pulses done in that cycle and in no other. -/
structure Returns (e : ℕ) : Prop where
  later : s < e
  idle : (after s₀ ins e).state = .idle
  first : ∀ t, s < t → t < e → (after s₀ ins t).state ≠ .idle
  pulse : ∀ t, s < t → t ≤ e + 1 → ((after s₀ ins t).coreDoneO = true ↔ t = e)

def Terminates : Prop := ∃ e, Returns s₀ ins s e

variable {s₀ ins s}

namespace Started

variable {m n : BitVec 8} (started : Started s₀ ins s m n)

include started

theorem loads : (after s₀ ins (s + 1)).state = .loadWgt := by
  rw [after_succ, step_idle started.idle, started.launch]
  rfl

/-- The first return to the idle phase pulses done. -/
theorem returns {e : ℕ} (later : s < e) (idle : (after s₀ ins e).state = .idle)
    (first : ∀ t, s < t → t < e → (after s₀ ins t).state ≠ .idle) : Returns s₀ ins s e := by
  have early : ∀ t, s < t → t < e → (after s₀ ins t).coreDoneO = false := by
    intro t low
    induction t, low using Nat.le_induction with
    | base =>
        intro _
        rw [after_succ, step_coreDoneO, if_pos started.idle]
    | succ t low ih =>
        intro before
        have busy := first t low (by omega)
        have busy' := first (t + 1) (by omega) before
        rw [after_succ] at busy'
        rw [after_succ, step_coreDoneO, if_neg busy, if_neg busy']
        exact ih (by omega)
  refine ⟨later, idle, first, fun t low high => ?_⟩
  rcases Nat.lt_trichotomy t e with before | rfl | behind
  · simp [early t low before]
    omega
  · obtain ⟨u, rfl⟩ : ∃ u, t = u + 1 := ⟨t - 1, by omega⟩
    have inside : s < u := by
      rcases Nat.lt_or_ge s u with inside | same
      · exact inside
      · obtain rfl : u = s := by omega
        exact absurd (idle.symm.trans started.loads) (by decide)
    rw [after_succ] at idle ⊢
    rw [step_coreDoneO, if_neg (first u inside (Nat.lt_succ_self u)), if_pos idle]
    simp
  · obtain rfl : t = e + 1 := by omega
    rw [after_succ, step_coreDoneO, if_pos idle]
    simp

/-- A job of no rows or no columns feeds or drains for ever. -/
theorem stuck (none : m = 0 ∨ n = 0) (t : ℕ) : s < t → Running s₀ ins s t := by
  let busy (st : State rows cols dataW) : Prop :=
    st.state = .loadWgt ∨ st.state = .feed ∨ st.state = .drain ∧ n = 0
  have stays : ∀ t, s < t → busy (after s₀ ins t) ∧ Running s₀ ins s t := by
    intro t low
    induction t, low using Nat.le_induction with
    | base =>
        refine ⟨.inl started.loads, fun u low high => ?_⟩
        obtain rfl : u = s + 1 := by omega
        simp [started.loads]
    | succ t low ih =>
        obtain ⟨phase, running⟩ := ih
        obtain ⟨regM, regN, -⟩ := started.held t low running
        have next : busy (after s₀ ins (t + 1)) := by
          rw [after_succ]
          rcases phase with phase | phase | ⟨phase, rfl⟩
          · rw [step_loadWgt phase]
            exact .inr (.inl rfl)
          · rw [step_feed phase, regM]
            rcases none with rfl | rfl
            · rw [isLast_zero]
              exact .inr (.inl rfl)
            · cases isLast (after s₀ ins t).rCnt m with
              | false => exact .inr (.inl rfl)
              | true => exact .inr (.inr ⟨rfl, rfl⟩)
          · rw [step_drain phase, regN, isLast_zero]
            exact .inr (.inr ⟨rfl, rfl⟩)
        refine ⟨next, fun u low' high => ?_⟩
        rcases Nat.le_succ_iff.mp high with before | rfl
        · exact running u low' before
        · rcases next with phase | phase | ⟨phase, -⟩ <;> simp [phase]
  intro later
  exact (stays t later).2

end Started

/-! ## Jobs that end -/

/-- The run with the dimensions held for ever. -/
def heldFrom (ins : ℕ → Inputs) (s : ℕ) (m n : BitVec 8) (t : ℕ) : Inputs :=
  if s < t then
    { ins t with
      regMI := m
      regNI := n
      mAxisResTready := true }
  else ins t

namespace Started

variable {m n : BitVec 8} (started : Started s₀ ins s m n)

include started

/-- While the job runs, it is that of the run with the dimensions held for ever. -/
theorem same_until (t : ℕ) :
    (∀ u, s < u → u < t → (after s₀ (heldFrom ins s m n) u).state ≠ .idle) →
      after s₀ ins t = after s₀ (heldFrom ins s m n) t := by
  induction t using Nat.strong_induction_on with
  | _ t ih =>
      intro busy
      refine Clocked.run_congr fun u before => ?_
      unfold heldFrom
      split
      · next later =>
          have running : Running s₀ ins s u := by
            intro v low high
            rw [ih v (by omega) fun w low' high' => busy w low' (by omega)]
            exact busy v low (by omega)
          obtain ⟨regM, regN, ready⟩ := started.held u later running
          rw [← regM, ← regN, ← ready]
      · rfl

/-- With the dimensions held for ever the job is back in the idle phase. -/
theorem held_idle (m_ne : m ≠ 0) (n_ne : n ≠ 0) :
    ∃ e, s < e ∧ (after s₀ (heldFrom ins s m n) e).state = .idle := by
  have held {t : ℕ} (later : s < t) : heldFrom ins s m n t =
      { ins t with
        regMI := m
        regNI := n
        mAxisResTready := true } := if_pos later
  have m_pos : m.toNat ≠ 0 := fun zero => m_ne (BitVec.eq_of_toNat_eq zero)
  have n_pos : n.toNat ≠ 0 := fun zero => n_ne (BitVec.eq_of_toNat_eq zero)
  have run : Scheduled s₀ (heldFrom ins s m n) s m.toNat n.toNat := by
    refine ⟨?_, ?_, by omega, m.isLt, by omega, n.isLt, ?_⟩
    · rw [← started.same_until s fun u low high => by omega]
      exact started.idle
    · rw [heldFrom, if_neg (Nat.lt_irrefl s)]
      exact started.launch
    · intro t later _
      rw [held later]
      exact ⟨(BitVec.ofNat_toNat 8 m).symm ▸ rfl, (BitVec.ofNat_toNat 8 n).symm ▸ rfl⟩
  have ready : JobAt.Ready (heldFrom ins s m n) s m.toNat n.toNat := by
    refine ⟨fun t low _ => ?_, fun t low _ => ?_⟩
    · rw [held (by omega)]
    · rw [held (by omega)]
      exact (BitVec.ofNat_toNat 8 n).symm ▸ rfl
  exact ⟨_, by omega, (run.done ready).1⟩

theorem terminates (m_ne : m ≠ 0) (n_ne : n ≠ 0) : Terminates s₀ ins s := by
  classical
  have ends := started.held_idle m_ne n_ne
  obtain ⟨later, idle⟩ := Nat.find_spec ends
  have first : ∀ t, s < t → t < Nat.find ends →
      (after s₀ (heldFrom ins s m n) t).state ≠ .idle :=
    fun t low high idle => Nat.find_min ends high ⟨low, idle⟩
  refine ⟨Nat.find ends, started.returns later ?_ fun t low high => ?_⟩
  · rw [started.same_until _ first]
    exact idle
  · rw [started.same_until t fun u low' high' => first u low' (by omega)]
    exact first t low high

end Started

/-- **A job comes to an end exactly when** neither of its dimensions is zero. -/
theorem job_terminates_iff {m n : BitVec 8} (started : Started s₀ ins s m n) :
    Terminates s₀ ins s ↔ m ≠ 0 ∧ n ≠ 0 := by
  constructor
  · rintro ⟨e, returns⟩
    by_contra none
    have zero : m = 0 ∨ n = 0 := by
      by_contra both
      exact none ⟨fun h => both (.inl h), fun h => both (.inr h)⟩
    exact started.stuck zero e returns.later e returns.later (le_refl e) returns.idle
  · rintro ⟨m_ne, n_ne⟩
    exact started.terminates m_ne n_ne

/-- A job of its own, started in cycle 0. -/
theorem jobInputs_started (M N : ℕ) :
    Started (blank : State 1 1 8) (jobInputs [] [] M N) 0 (BitVec.ofNat 8 M)
      (BitVec.ofNat 8 N) where
  idle := rfl
  launch := rfl
  held _ _ _ := ⟨rfl, rfl, rfl⟩

/-- Three rows by two columns, on an array of one cell. -/
theorem job_terminates_wide : Terminates (blank : State 1 1 8) (jobInputs [] [] 3 2) 0 :=
  (job_terminates_iff (jobInputs_started 3 2)).mpr ⟨by decide, by decide⟩

/-- A job without rows. -/
theorem job_feeds_forever :
    ¬ ∀ (rows cols dataW : ℕ) (s₀ : State rows cols dataW) (ins : ℕ → Inputs) (s : ℕ)
      (m n : BitVec 8), Started s₀ ins s m n → Terminates s₀ ins s := by
  intro claim
  obtain ⟨e, returns⟩ := claim 1 1 8 blank _ 0 _ _ (jobInputs_started 0 1)
  exact (jobInputs_started 0 1).stuck (.inl rfl) e returns.later e returns.later (le_refl e)
    returns.idle

end MiniMac.Accel.MacCoreAxi
