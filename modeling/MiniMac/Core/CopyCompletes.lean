/-
# Core.CopyCompletes -- every transfer comes to its end

A memory that takes requests again and again, and answers the open read again and
again, lets a transfer complete.  The length 0 is no exception: the loop tests the
count after a word is moved, so it is the transfer of four bytes.
-/
import MiniMac.Core.ForwardCopy
import MiniMac.Theory.LeadsTo

namespace MiniMac.Core.CopySystem

open MiniMac.Theory

set_option autoImplicit false

/-- The memory grants and answers again and again. -/
structure Fair (ins : ℕ → Inputs) : Prop where
  grants : ∀ t, ∃ u, t ≤ u ∧ (ins u).memGnt = true
  answers : ∀ t, ∃ u, t ≤ u ∧ (ins u).answer = some 0

/-! ## Progress of one word -/

section Words

variable {s₀ : State} {ins : ℕ → Inputs} (fair : Fair ins) {x : Transfer} {k t : ℕ}

include fair

/-- A request that is put up again whenever it is refused is granted. -/
theorem Fair.takes (asks : ∀ u, t ≤ u → granted (after s₀ ins u) (ins u) = false →
    (after s₀ ins (u + 1)).dma.reqO = true) :
    ∃ u, t ≤ u ∧ granted (after s₀ ins u) (ins u) = true := by
  by_contra never
  push Not at never
  obtain ⟨u, later, free⟩ := fair.grants (t + 1)
  obtain ⟨v, rfl⟩ : ∃ v, u = v + 1 := ⟨u - 1, by omega⟩
  have up := asks v (by omega) (by simpa using never v (by omega))
  exact never (v + 1) (by omega) (by rw [granted, up, free]; rfl)

theorem Fair.fetched (at_ : Fetching x k (after s₀ ins t)) :
    ∃ u, t ≤ u ∧ Waiting x k (after s₀ ins u) := by
  obtain ⟨u, later, grant, lasts⟩ := LeadsTo.wait
    (fun u => Fetching x k (after s₀ ins u)) (fun u => granted (after s₀ ins u) (ins u) = true) at_
    (fun u _ at_ refused => at_.stall (by simpa using refused))
    (fun always => fair.takes fun u later refused => by
      rw [after_succ, step, DmaMaster.step_fetch (always u later).phase]
      simp [dmaInputs, refused])
  exact ⟨u + 1, by omega, ((lasts u later (le_refl u)).read grant).1⟩

omit fair in
/-- The answer to the open read ends the wait. -/
theorem Waiting.stored {s : State} {i : Inputs} (at_ : Waiting x k s) (answer : i.answer = some 0) :
    Storing x k (CopySystem.step s i) := by
  rcases (at_.step (i := i)).1 with waits | stores
  · have phase := waits.phase
    have valid : (dmaInputs s i).rvalidI = true := by
      simp [dmaInputs, response, answer, at_.opened]
    rw [CopySystem.step, DmaMaster.step_response at_.phase valid] at phase
    cases phase
  · exact stores

theorem Fair.answered (at_ : Waiting x k (after s₀ ins t)) :
    ∃ u, t ≤ u ∧ Storing x k (after s₀ ins u) := by
  obtain ⟨u, later, stores, -⟩ := LeadsTo.wait
    (fun u => Waiting x k (after s₀ ins u)) (fun u => Storing x k (after s₀ ins (u + 1))) at_
    (fun u _ at_ waits => (at_.step (i := ins u)).1.resolve_right waits)
    (fun always => by
      obtain ⟨u, later, answer⟩ := fair.answers t
      exact ⟨u, later, (always u later).stored answer⟩)
  exact ⟨u + 1, by omega, stores⟩

theorem Fair.written (at_ : Storing x k (after s₀ ins t)) :
    ∃ u, t ≤ u ∧ (Fetching x (k + 1) (after s₀ ins u) ∨
      x.words = k + 1 ∧ Copied x (after s₀ ins u)) := by
  obtain ⟨u, later, grant, lasts⟩ := LeadsTo.wait
    (fun u => Storing x k (after s₀ ins u)) (fun u => granted (after s₀ ins u) (ins u) = true) at_
    (fun u _ at_ refused => at_.stall (by simpa using refused))
    (fun always => fair.takes fun u later refused => by
      rw [after_succ, step, DmaMaster.step_store (always u later).phase refused])
  exact ⟨u + 1, by omega, ((lasts u later (le_refl u)).written grant).1⟩

end Words

/-! ## A whole transfer -/

section Runs

variable {s₀ : State} {ins : ℕ → Inputs} {s : ℕ}

/-- The words before `k` are copied, and word `k` is next, if there is one. -/
def Reached (x : Transfer) (k : ℕ) (s : State) : Prop :=
  Fetching x k s ∨ x.words = k ∧ Copied x s

/-- An accepted transfer of some length completes. -/
theorem Accepted.completes (accepted : Accepted s₀ ins s) (length : 0 < (ins s).lengthI.toNat)
    (fair : Fair ins) : ∃ d, DoneAfter s₀ ins s d := by
  classical
  obtain ⟨u, later, reached⟩ := LeadsTo.climb
    (fun k t => Reached (transferAt s₀ ins s) k (after s₀ ins t))
    (n := (transferAt s₀ ins s).words) (t := s + 1) (.inl (accepted.fetching length)) (by
      rintro k t below - (at_ | ⟨count, -⟩)
      · obtain ⟨u, later, waits⟩ := fair.fetched at_
        obtain ⟨v, after, stores⟩ := fair.answered waits
        obtain ⟨w, behind, next⟩ := fair.written stores
        exact ⟨w, by omega, next⟩
      · omega)
  have copied : Copied (transferAt s₀ ins s) (after s₀ ins u) := by
    rcases reached with at_ | ⟨-, copied⟩
    · have within := at_.within
      unfold Transfer.words at within
      omega
    · exact copied
  have ends : ∃ d, s < d ∧ (after s₀ ins d).dma.doneO = true := by
    refine ⟨u + 1, by omega, ?_⟩
    rw [after_succ, step, DmaMaster.step_done copied.phase]
  refine ⟨Nat.find ends, (Nat.find_spec ends).1, (Nat.find_spec ends).2, ?_⟩
  intro t before low
  have early := Nat.find_min ends before
  simpa [low] using early

/-! ## The length 0 -/

/-- The same start with four bytes to move. -/
def fourBytes (ins : ℕ → Inputs) (s : ℕ) : ℕ → Inputs :=
  Function.update ins s { ins s with lengthI := 4 }

/-- The two runs differ in the byte count only, which both take for the last word. -/
structure LeftOnly (s s' : State) : Prop where
  same : s' = { s with dma := { s.dma with bytesLeft := 4 } }
  none : s.dma.bytesLeft = 0

theorem LeftOnly.step {s s' : State} (at_ : LeftOnly s s') (i : Inputs)
    (busy : s.dma.state ≠ .idle) : LeftOnly (step s i) (step s' i) := by
  obtain ⟨rfl, none⟩ := at_
  have engine : DmaMaster.step { s.dma with bytesLeft := 4 } (dmaInputs s i) =
        { DmaMaster.step s.dma (dmaInputs s i) with bytesLeft := 4 } ∧
      (DmaMaster.step s.dma (dmaInputs s i)).bytesLeft = 0 := by
    unfold DmaMaster.step
    cases phase : s.dma.state with
    | idle => exact absurd phase busy
    | fetch => exact ⟨rfl, none⟩
    | waitR =>
        dsimp only
        split <;> exact ⟨rfl, none⟩
    | store =>
        dsimp only
        rw [none]
        split <;> exact ⟨rfl, rfl⟩
    | done => exact ⟨rfl, none⟩
  refine ⟨?_, engine.2⟩
  show CopySystem.step _ i = _
  unfold CopySystem.step
  congr 1
  exact engine.1

theorem LeftOnly.start {s : State} {i : Inputs}
    (accepted : DmaMaster.accepts s.dma (dmaInputs s i) = true) (zero : i.lengthI = 0) :
    LeftOnly (CopySystem.step s i) (CopySystem.step s { i with lengthI := 4 }) ∧
      (CopySystem.step s i).dma.state ≠ .idle := by
  have engine : (CopySystem.step s i).dma = _ := DmaMaster.step_accepts accepted
  refine ⟨⟨?_, ?_⟩, ?_⟩
  · rw [engine]
    unfold CopySystem.step
    congr 1
    exact DmaMaster.step_accepts accepted
  · rw [engine]
    exact zero
  · rw [engine]
    exact DmaMaster.Phase.noConfusion

theorem Accepted.fourBytes_start (accepted : Accepted s₀ ins s) :
    after s₀ (fourBytes ins s) s = after s₀ ins s ∧ Accepted s₀ (fourBytes ins s) s := by
  have here : after s₀ (fourBytes ins s) s = after s₀ ins s :=
    Clocked.run_congr fun u before => Function.update_of_ne (by omega) _ _
  refine ⟨here, ?_⟩
  unfold Accepted
  rw [here, fourBytes, Function.update_self]
  exact accepted

theorem Accepted.transferAt_fourBytes (accepted : Accepted s₀ ins s) :
    transferAt s₀ (fourBytes ins s) s = { transferAt s₀ ins s with length := 4 } := by
  rw [transferAt, accepted.fourBytes_start.1, fourBytes, Function.update_self]
  rfl

/-- **A transfer of no bytes runs as one of four bytes.** -/
theorem Accepted.leftOnly (accepted : Accepted s₀ ins s) (zero : (ins s).lengthI = 0) {t : ℕ}
    (later : s < t) :
    (∀ u, s < u → u < t → (after s₀ ins u).dma.doneO = false) →
      LeftOnly (after s₀ ins t) (after s₀ (fourBytes ins s) t) ∧
        ((after s₀ ins t).dma.doneO = false → (after s₀ ins t).dma.state ≠ .idle) := by
  obtain ⟨here, accepted'⟩ := accepted.fourBytes_start
  induction t, later using Nat.le_induction with
  | base =>
      intro _
      obtain ⟨start, busy⟩ := LeftOnly.start accepted zero
      rw [after_succ, after_succ, here, fourBytes, Function.update_self]
      exact ⟨start, fun _ => busy⟩
  | succ t later ih =>
      intro silent
      obtain ⟨at_, busy⟩ := ih fun u low high => silent u low (by omega)
      have working := busy (silent t later (Nat.lt_succ_self t))
      have same : fourBytes ins s t = ins t := Function.update_of_ne (by omega) _ _
      rw [after_succ, after_succ, same]
      refine ⟨at_.step (ins t) working, fun notDone idle => ?_⟩
      have done : (step (after s₀ ins t) (ins t)).dma.doneO = true :=
        DmaMaster.step_done_of_idle working idle
      exact absurd (notDone.symm.trans done) Bool.false_ne_true

theorem Fair.fourBytes (fair : Fair ins) : Fair (fourBytes ins s) := by
  have same (u : ℕ) : (CopySystem.fourBytes ins s u).memGnt = (ins u).memGnt ∧
      (CopySystem.fourBytes ins s u).answer = (ins u).answer := by
    unfold CopySystem.fourBytes
    by_cases here : u = s
    · subst here
      simp
    · simp [here]
  constructor
  · intro t
    obtain ⟨u, later, free⟩ := fair.grants t
    exact ⟨u, later, (same u).1.trans free⟩
  · intro t
    obtain ⟨u, later, answer⟩ := fair.answers t
    exact ⟨u, later, (same u).2.trans answer⟩

end Runs

end MiniMac.Core.CopySystem
