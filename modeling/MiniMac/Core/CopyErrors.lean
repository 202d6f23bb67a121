/-
# Core.CopyErrors -- what the error flag says

A start that the idle engine takes is refused when an address is misaligned, and
then sets the error flag and nothing else.  Nothing clears the flag, not even the
start of a good transfer, while `done_o` and the done flag of the register file are
cleared by one.  The flag describes the latest start exactly as long as no good
start follows a refused one (`error_flag_iff`).
-/
import MiniMac.Core.DmaMaster
import MiniMac.Theory.Clocked
import MiniMac.Theory.StickyBit

namespace MiniMac.Core.DmaMaster

open MiniMac.Theory

set_option autoImplicit false

/-- A start that the idle engine refuses. -/
def refuses (s : State) (i : Inputs) : Bool :=
  s.state == .idle && i.startI && !aligned i.srcAddrI i.dstAddrI

/-- The port is quiet in the phases without a request. -/
def QuietPort (s : State) : Prop :=
  s.state = .idle ∨ s.state = .waitR ∨ s.state = .done → s.reqO = false

/-! ## One edge -/

section Step

variable {s : State} {i : Inputs}

theorem step_refuses (refused : refuses s i = true) :
    step s i =
      { s with
        doneO := false
        errO := true } := by
  simp only [refuses, Bool.and_eq_true, beq_iff_eq, Bool.not_eq_true'] at refused
  obtain ⟨⟨phase, start⟩, place⟩ := refused
  simp [step, phase, start, place]

/-- The flag goes up with a refused start and stays up. -/
theorem step_errO (s : State) (i : Inputs) : (step s i).errO = (refuses s i || s.errO) := by
  cases phase : s.state with
  | idle =>
      cases start : i.startI <;> cases place : aligned i.srcAddrI i.dstAddrI <;>
        simp [step, refuses, phase, start, place]
  | fetch => simp [step, refuses, phase]
  | waitR => cases valid : i.rvalidI <;> simp [step, refuses, phase, valid]
  | store => cases grant : i.gntI <;> simp [step, refuses, phase, grant]
  | done => simp [step, refuses, phase]

/-- An idle engine that does not accept a start keeps its transfer registers. -/
theorem step_idle_registers (phase : s.state = .idle) (refused : accepts s i = false) :
    (step s i).busyO = s.busyO ∧ (step s i).currSrc = s.currSrc ∧
      (step s i).currDst = s.currDst ∧ (step s i).bytesLeft = s.bytesLeft := by
  obtain ⟨err, rests⟩ := step_rests phase refused
  rw [rests]
  exact ⟨rfl, rfl, rfl, rfl⟩

theorem QuietPort.step (quiet : QuietPort s) : QuietPort (step s i) := by
  intro phases
  cases phase : s.state with
  | idle =>
      have start := quiet (.inl phase)
      cases accepted : accepts s i with
      | true => rw [step_accepts accepted] at phases; simp at phases
      | false => rw [(step_idle phase accepted).2.1, start]
  | fetch =>
      rw [step_fetch phase] at phases ⊢
      cases grant : i.gntI <;> simp_all
  | waitR =>
      have start := quiet (.inr (.inl phase))
      cases valid : i.rvalidI with
      | false => rw [step_waitR phase valid, start]
      | true => rw [step_response phase valid] at phases; simp at phases
  | store =>
      cases grant : i.gntI with
      | false => rw [step_store phase grant] at phases; simp [phase] at phases
      | true => rw [step_stored phase grant]
  | done =>
      rw [step_done phase]
      exact quiet (.inr (.inr phase))

end Step

/-! ## Runs -/

section Runs

variable (s₀ : State) (ins : ℕ → Inputs)

/-- The engine after `t` cycles from reset. -/
def after (t : ℕ) : State := Clocked.run step (reset s₀) ins t

def acceptsAt (t : ℕ) : Bool := accepts (after s₀ ins t) (ins t)

def refusesAt (t : ℕ) : Bool := refuses (after s₀ ins t) (ins t)

/-- The engine in cycle `u` is as a start refused in cycle `t` leaves it. -/
structure LeftAlone (t u : ℕ) : Prop where
  err : (after s₀ ins u).errO = true
  req : (after s₀ ins u).reqO = false
  busy : (after s₀ ins u).busyO = (after s₀ ins t).busyO
  currSrc : (after s₀ ins u).currSrc = (after s₀ ins t).currSrc
  currDst : (after s₀ ins u).currDst = (after s₀ ins t).currDst
  bytesLeft : (after s₀ ins u).bytesLeft = (after s₀ ins t).bytesLeft

/-- The error flag describes the latest start. -/
structure DescribesStart : Prop where
  /-- A refused start is an error until a start is accepted. -/
  refused : ∀ t u, refusesAt s₀ ins t = true → t < u →
    (∀ v, t < v → v < u → acceptsAt s₀ ins v = false) → LeftAlone s₀ ins t u
  /-- An accepted start is no error up to the cycle in which its transfer is done. -/
  accepted : ∀ t u, acceptsAt s₀ ins t = true → t < u →
    (∀ v, t < v → v < u → (after s₀ ins v).state ≠ .idle) → (after s₀ ins u).errO = false

theorem errO_sticky : StickyBit (refusesAt s₀ ins) (fun _ => false)
    (fun t => (after s₀ ins t).errO) where
  next _ := step_errO _ _

/-- The flag is up exactly after a refused start. -/
theorem errO_iff (t : ℕ) :
    (after s₀ ins t).errO = true ↔ ∃ u, u < t ∧ refusesAt s₀ ins u = true := by
  have since := (errO_sticky s₀ ins).up_iff (t := 0) (n := t) fun _ _ _ => rfl
  have start : (after s₀ ins 0).errO = false := rfl
  simpa [start] using since

section

variable {s₀ ins}

theorem idle_of_refusesAt {t : ℕ} (refused : refusesAt s₀ ins t = true) :
    (after s₀ ins t).state = .idle := by
  simp only [refusesAt, refuses, Bool.and_eq_true, beq_iff_eq] at refused
  exact refused.1.1

theorem quietPort (t : ℕ) : QuietPort (after s₀ ins t) :=
  Clocked.invariant (P := QuietPort) (fun _ => rfl) (fun _ _ quiet => quiet.step) t

theorem leftAlone {t u : ℕ} (refused : refusesAt s₀ ins t = true) (later : t < u)
    (quiet : ∀ v, t < v → v < u → acceptsAt s₀ ins v = false) :
    (after s₀ ins u).state = .idle ∧ LeftAlone s₀ ins t u := by
  have phase := idle_of_refusesAt refused
  induction u, later using Nat.le_induction with
  | base =>
      have edge : after s₀ ins (t + 1) = { after s₀ ins t with
        doneO := false
        errO := true } := step_refuses refused
      have port := quietPort t (.inl phase)
      refine ⟨?_, ?_, ?_, ?_, ?_, ?_, ?_⟩ <;> rw [edge]
      · exact phase
      · exact port
  | succ u later ih =>
      obtain ⟨idle, alone⟩ := ih fun v low high => quiet v low (by omega)
      have refused' : accepts (after s₀ ins u) (ins u) = false := quiet u later (by omega)
      obtain ⟨still, port, -⟩ := step_idle idle refused'
      obtain ⟨busy, currSrc, currDst, bytesLeft⟩ := step_idle_registers idle refused'
      refine ⟨still, ?_, port.trans alone.req, busy.trans alone.busy,
        currSrc.trans alone.currSrc, currDst.trans alone.currDst,
        bytesLeft.trans alone.bytesLeft⟩
      exact (errO_iff _ _ _).mpr ⟨t, by omega, refused⟩

end

/-- **The flag describes the latest start exactly when** no start is accepted after one that
was refused. -/
theorem error_flag_iff :
    DescribesStart s₀ ins ↔
      ∀ t u, refusesAt s₀ ins t = true → t < u → acceptsAt s₀ ins u = false := by
  constructor
  · intro describes t u refused later
    by_contra accepted
    have clear := describes.accepted u (u + 1) (by simpa using accepted) (by omega)
      fun v low high => by omega
    have up := (errO_iff s₀ ins (u + 1)).mpr ⟨t, by omega, refused⟩
    exact absurd (clear.symm.trans up) (by decide)
  · intro never
    refine ⟨fun t u refused later quiet => (leftAlone refused later quiet).2, ?_⟩
    intro t u accepted later busy
    by_contra up
    obtain ⟨v, before, refused⟩ := (errO_iff _ _ u).mp (by simpa using up)
    rcases Nat.lt_trichotomy v t with earlier | same | within
    · exact absurd ((never v t refused earlier).symm.trans accepted) (by decide)
    · rw [same, refusesAt, refuses] at refused
      rw [acceptsAt, accepts] at accepted
      simp_all
    · exact busy v within before (idle_of_refusesAt refused)

end Runs

/-! ## A good start after a refused one -/

/-- Everything at rest. -/
def still : State where
  busyO := false
  doneO := false
  errO := false
  reqO := false
  addrO := 0
  weO := false
  wdataO := 0
  state := .idle
  currSrc := 0
  currDst := 0
  dataBuffer := 0
  bytesLeft := 0

/-- A start from an odd address, and one from an even one in the next cycle. -/
def refusedThenGood (t : ℕ) : Inputs where
  srcAddrI := if t = 0 then 1 else 0x10000000
  dstAddrI := 0x10000020
  lengthI := 4
  startI := decide (t < 2)
  gntI := true
  rvalidI := true
  rdataI := 0

/-- The good transfer runs with the error of the refused one. -/
theorem error_flag_stays :
    ¬ ∀ (s₀ : State) (ins : ℕ → Inputs), DescribesStart s₀ ins := by
  intro claim
  have clear := (claim still refusedThenGood).accepted 1 2 (by decide) (by decide)
    fun v low high => by omega
  exact absurd clear (by decide)

end MiniMac.Core.DmaMaster
