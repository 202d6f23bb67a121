/-
# Accel.FillPort -- a word asked for twice is streamed once

A request stays up for one cycle after its grant, so a read may be granted a
second time.  On a path that answers every granted read a fixed number of cycles
after its grant (`Served`), the second answer comes one cycle after the first, in
the fill phase, which does not look at it; and every earlier read is answered by
then.  So the answer an engine takes in a wait phase is that of the grant it
waits for, at every latency and for every delay of the grants (`Served.answer`).

`PortStage` is what the request line and the open reads can be in each phase.
-/
import MiniMac.Accel.AxiStreamDma
import MiniMac.Theory.InOrder

namespace MiniMac.Accel.AxiStreamDma

open MiniMac.Theory.InOrder

set_option autoImplicit false

/-- A read of the engine is granted. -/
def readTaken (s : State) (i : Inputs) : Bool := i.mGntI && !s.mWeO

/-- The engine runs on a path that grants what it asks for, when it likes, and answers
every granted read `latency` cycles after its grant. -/
structure Served (latency : ℕ) (dma : ℕ → State) (ins : ℕ → Inputs) : Prop where
  positive : 0 < latency
  next : ∀ t, dma (t + 1) = step (dma t) (ins t)
  noAbort : ∀ t, (ins t).abortI = false
  grants : ∀ t, (ins t).mGntI = true → (dma t).mReqO = true
  answers : Delayed latency (fun t => readTaken (dma t) (ins t)) fun t => (ins t).mRvalidI
  /-- No input fill is under way at the beginning. -/
  start : (dma 0).state.fills = false
  /-- Nor is a read asked for. -/
  noRead : (dma 0).mReqO = true → (dma 0).mWeO = true

/-! ## One edge at the port -/

section Edge

variable {s : State} {i : Inputs}

/-- Outside the fill phases an edge never puts up a read. -/
theorem step_noRead (noAbort : i.abortI = false) (past : s.state.fills = false) :
    (step s i).mReqO = true → (step s i).mWeO = true := by
  cases phase : s.state <;> simp only [phase, Phase.fills, reduceCtorEq] at past
  · cases start : i.startI with
    | false => simp [step_idle noAbort phase start, defaults]
    | true => simp [step_start noAbort phase start, defaults]
  · rw [step_runArray noAbort phase]
    split <;> simp [defaults]
  · simp [step_drainRes noAbort phase, defaults]
  · simp [step_resWrite noAbort phase]

/-- In the fill phases an edge puts up no write. -/
theorem step_reads (noAbort : i.abortI = false) (fills : s.state.fills = true)
    (up : (step s i).mReqO = true) : (step s i).mWeO = false := by
  revert up
  cases phase : s.state <;> simp only [phase, Phase.fills, Bool.false_eq_true] at fills <;>
    simp [step, noAbort, fsm, phase, defaults, request] <;> split <;> simp

/-- The engine goes on to a fill phase from idle, by a start, or from a fill phase. -/
theorem step_enters (noAbort : i.abortI = false) (past : s.state.fills = false) :
    (step s i).state.fills = false ∨
      (step s i).state = Channel.wgt.fill ∧ (step s i).mReqO = false := by
  by_cases start : s.state = .idle ∧ i.startI = true
  · right
    rw [step_start noAbort start.1 start.2]
    exact ⟨rfl, rfl⟩
  · left
    exact step_stays past noAbort fun idle => by simpa [idle] using start

/-- With its words in, a channel is left without a request. -/
theorem step_filled {ch : Channel} (noAbort : i.abortI = false) (phase : s.state = ch.fill)
    (none : s.bytesLeft = 0) :
    (step s i).mReqO = false ∧
      ((step s i).state.fills = false ∨ (step s i).state = Channel.act.fill) := by
  cases ch with
  | wgt =>
      rw [step_wgtDone noAbort phase none]
      exact ⟨rfl, .inr rfl⟩
  | act =>
      rw [step_actDone noAbort phase none]
      exact ⟨rfl, .inl rfl⟩

/-- Without an answer the wait goes on, and the request goes down. -/
theorem step_stall {ch : Channel} (noAbort : i.abortI = false) (phase : s.state = ch.wait)
    (silent : i.mRvalidI = false) : step s i = defaults s := by
  cases ch <;> simp only [Channel.wait] at phase <;> simp [step, noAbort, fsm, phase, silent]

end Edge

/-! ## The open reads -/

section Port

variable (latency : ℕ) (dma : ℕ → State) (ins : ℕ → Inputs)

/-- Every read granted before `t` has its answer before cycle `u`. -/
def AnsweredBy (t u : ℕ) : Prop :=
  ∀ s < t, readTaken (dma s) (ins s) = true → s + latency < u

/-- What the request line and the open reads can be in cycle `t`. -/
inductive PortStage (t : ℕ) : Prop
  | rest (past : (dma t).state.fills = false)
      (noRead : (dma t).mReqO = true → (dma t).mWeO = true)
      (answered : AnsweredBy latency dma ins t (t + 1))
  | fresh (ch : Channel) (phase : (dma t).state = ch.fill) (down : (dma t).mReqO = false)
      (answered : AnsweredBy latency dma ins t (t + 1))
  | asking (ch : Channel) (phase : (dma t).state = ch.fill)
      (up : (dma t).mReqO = true) (reads : (dma t).mWeO = false)
      (place : (dma t).mAddrO = (dma t).currAddr) (more : (dma t).bytesLeft ≠ 0)
      (answered : AnsweredBy latency dma ins t t)
  /-- The grant of cycle `g` is not answered yet; the lingering request may be granted
  in the cycle after it. -/
  | waiting (ch : Channel) (g : ℕ) (granted : readTaken (dma g) (ins g) = true)
      (asked : (dma g).state = ch.fill) (place : (dma g).mAddrO = (dma t).currAddr)
      (later : g < t) (within : t ≤ g + latency)
      (waits : ∀ u, g < u → u ≤ t → (dma u).state = ch.wait)
      (lingers : (dma t).mReqO = true → t = g + 1)
      (answered : AnsweredBy latency dma ins g (g + 1))
      (again : ∀ s, g < s → s < t → readTaken (dma s) (ins s) = true → s = g + 1)

variable {latency dma ins}

theorem AnsweredBy.mono {t u v : ℕ} (answered : AnsweredBy latency dma ins t u) (upto : u ≤ v) :
    AnsweredBy latency dma ins t v :=
  fun s before reads => Nat.lt_of_lt_of_le (answered s before reads) upto

/-- A cycle without a read granted leaves the open reads alone. -/
theorem AnsweredBy.succ {t u : ℕ} (answered : AnsweredBy latency dma ins t u)
    (quiet : readTaken (dma t) (ins t) = false) : AnsweredBy latency dma ins (t + 1) u := by
  intro s before reads
  rcases Nat.lt_succ_iff_lt_or_eq.mp before with earlier | rfl
  · exact answered s earlier reads
  · rw [quiet] at reads
    cases reads

namespace Served

variable (served : Served latency dma ins)

include served

/-- A request that is down is not granted. -/
theorem notTaken {t : ℕ} (noRead : (dma t).mReqO = true → (dma t).mWeO = true) :
    readTaken (dma t) (ins t) = false := by
  by_contra taken
  simp only [readTaken, Bool.not_eq_false, Bool.and_eq_true, Bool.not_eq_true'] at taken
  have writes := noRead (served.grants t taken.1)
  rw [taken.2] at writes
  cases writes

/-- In a wait, the only answer is the one of the grant that is waited for. -/
theorem rvalid_iff {t g : ℕ} (granted : readTaken (dma g) (ins g) = true)
    (later : g < t) (within : t ≤ g + latency)
    (answered : AnsweredBy latency dma ins g (g + 1))
    (again : ∀ s, g < s → s < t → readTaken (dma s) (ins s) = true → s = g + 1) :
    (ins t).mRvalidI = true ↔ t = g + latency := by
  have positive := served.positive
  constructor
  · intro valid
    obtain ⟨s, rfl, reads⟩ := served.answers.request valid
    rcases Nat.lt_trichotomy s g with before | rfl | after
    · have := answered s before reads
      omega
    · rfl
    · have := again s after (by omega) reads
      omega
  · rintro rfl
    exact (served.answers.delayed g).trans granted

theorem next_rest {t : ℕ} (past : (dma t).state.fills = false)
    (noRead : (dma t).mReqO = true → (dma t).mWeO = true)
    (answered : AnsweredBy latency dma ins t (t + 1)) : PortStage latency dma ins (t + 1) := by
  have noRead' := step_noRead (served.noAbort t) past
  rw [← served.next] at noRead'
  have answered' := (answered.succ (served.notTaken noRead)).mono (Nat.le_succ _)
  have enters := step_enters (served.noAbort t) past
  rw [← served.next] at enters
  rcases enters with past' | ⟨phase, down⟩
  · exact .rest past' noRead' answered'
  · exact .fresh .wgt phase down answered'

theorem next_fresh {t : ℕ} {ch : Channel} (phase : (dma t).state = ch.fill)
    (down : (dma t).mReqO = false) (answered : AnsweredBy latency dma ins t (t + 1)) :
    PortStage latency dma ins (t + 1) := by
  have quiet : readTaken (dma t) (ins t) = false :=
    served.notTaken fun up => absurd (down.symm.trans up) Bool.false_ne_true
  have noGrant : (ins t).mGntI = false := by
    by_contra grant
    have up := served.grants t (by simpa using grant)
    rw [down] at up
    cases up
  by_cases none : (dma t).bytesLeft = 0
  · have filled := step_filled (served.noAbort t) phase none
    rw [← served.next] at filled
    have answered' := (answered.succ quiet).mono (Nat.le_succ _)
    rcases filled with ⟨down', past | act⟩
    · exact .rest past (fun up => absurd (down'.symm.trans up) Bool.false_ne_true) answered'
    · exact .fresh .act act down' answered'
  · have engine := (served.next t).trans (step_fill (served.noAbort t) phase none)
    refine .asking ch ?_ ?_ ?_ ?_ ?_ (answered.succ quiet)
    · simp [engine, request, noGrant, phase]
    · simp [engine, request]
    · simp [engine, request]
    · simp [engine, request, defaults]
    · simpa [engine, request, defaults] using none

theorem next_asking {t : ℕ} {ch : Channel} (phase : (dma t).state = ch.fill)
    (reads : (dma t).mWeO = false) (place : (dma t).mAddrO = (dma t).currAddr)
    (more : (dma t).bytesLeft ≠ 0) (answered : AnsweredBy latency dma ins t t) :
    PortStage latency dma ins (t + 1) := by
  have engine := (served.next t).trans (step_fill (served.noAbort t) phase more)
  cases grant : (ins t).mGntI with
  | false =>
      have quiet : readTaken (dma t) (ins t) = false := by simp [readTaken, grant]
      refine .asking ch ?_ ?_ ?_ ?_ ?_ ((answered.succ quiet).mono (Nat.le_succ _))
      · simp [engine, request, grant, phase]
      · simp [engine, request]
      · simp [engine, request]
      · simp [engine, request, defaults]
      · simpa [engine, request, defaults] using more
  | true =>
      have positive := served.positive
      refine .waiting ch t ?_ phase ?_ (Nat.lt_succ_self t) (by omega) ?_ (fun _ => rfl)
        (answered.mono (Nat.le_succ _)) ?_
      · simp [readTaken, grant, reads]
      · rw [place, engine]
        rfl
      · intro u low high
        obtain rfl : u = t + 1 := by omega
        simp [engine, request, grant]
      · intro s low high
        omega

/-- The answer ends the wait. -/
theorem next_answered {t g : ℕ} {ch : Channel} (phase : (dma t).state = ch.wait)
    (answer : t = g + latency) (valid : (ins t).mRvalidI = true)
    (answered : AnsweredBy latency dma ins g (g + 1))
    (again : ∀ s, g < s → s < t + 1 → readTaken (dma s) (ins s) = true → s = g + 1) :
    PortStage latency dma ins (t + 1) := by
  have positive := served.positive
  have engine := (served.next t).trans (step_wait (served.noAbort t) phase valid)
  refine .fresh ch ?_ ?_ ?_
  · rw [engine]
  · rw [engine]
    cases ch <;> rfl
  · intro s before reads
    rcases Nat.lt_trichotomy s g with earlier | rfl | after
    · have := answered s earlier reads
      omega
    · omega
    · have := again s after before reads
      omega

theorem next_stage {t : ℕ} (stage : PortStage latency dma ins t) :
    PortStage latency dma ins (t + 1) := by
  cases stage with
  | rest past noRead answered => exact served.next_rest past noRead answered
  | fresh ch phase down answered => exact served.next_fresh phase down answered
  | asking ch phase up reads place more answered =>
      exact served.next_asking phase reads place more answered
  | waiting ch g granted asked place later within waits lingers answered again =>
      have phase := waits t later (le_refl t)
      -- a read granted in this cycle is one of the lingering request
      have again' : ∀ s, g < s → s < t + 1 → readTaken (dma s) (ins s) = true → s = g + 1 := by
        intro s low high reads
        rcases Nat.lt_succ_iff_lt_or_eq.mp high with earlier | rfl
        · exact again s low earlier reads
        · refine lingers (served.grants s ?_)
          simp only [readTaken, Bool.and_eq_true] at reads
          exact reads.1
      have rvalid := served.rvalid_iff granted later within answered again
      by_cases answer : t = g + latency
      · exact served.next_answered phase answer (rvalid.mpr answer) answered again'
      · have silent : (ins t).mRvalidI = false := by
          by_contra valid
          exact answer (rvalid.mp (by simpa using valid))
        have engine := (served.next t).trans (step_stall (served.noAbort t) phase silent)
        refine .waiting ch g granted asked ?_ (by omega) (by omega) ?_ ?_ answered again'
        · rw [place, engine]
          rfl
        · intro u low high
          rcases Nat.lt_succ_iff_lt_or_eq.mp (Nat.lt_succ_of_le high) with before | rfl
          · exact waits u low (by omega)
          · rw [engine]
            exact phase
        · intro up
          rw [engine] at up
          cases up

theorem stage (t : ℕ) : PortStage latency dma ins t := by
  induction t with
  | zero =>
      exact .rest served.start served.noRead fun s before _ => absurd before (Nat.not_lt_zero s)
  | succ t ih => exact served.next_stage ih

/-- **The answer an engine takes** is that of a granted read of the word it works on. -/
theorem answer {t : ℕ} {ch : Channel} (phase : (dma t).state = ch.wait)
    (valid : (ins t).mRvalidI = true) :
    ∃ g, t = g + latency ∧ readTaken (dma g) (ins g) = true ∧ (dma g).state = ch.fill ∧
      (dma g).mAddrO = (dma t).currAddr ∧ ∀ u, g < u → u ≤ t → (dma u).state = ch.wait := by
  cases served.stage t with
  | rest past _ _ => simp [phase] at past
  | fresh _ phase' _ _ => simp [phase] at phase'
  | asking _ phase' _ _ _ _ _ => simp [phase] at phase'
  | waiting ch' g granted asked place later within waits _ answered again =>
      obtain rfl : ch' = ch := Channel.wait_inj.mp ((waits t later (le_refl t)).symm.trans phase)
      have answer := (served.rvalid_iff granted later within answered again).mp valid
      exact ⟨g, answer, granted, asked, place, waits⟩

/-- A read granted in a fill phase is one of the request that is up. -/
theorem asked {t : ℕ} {ch : Channel} (phase : (dma t).state = ch.fill)
    (taken : readTaken (dma t) (ins t) = true) : (dma t).bytesLeft ≠ 0 ∧ (ins t).mGntI = true := by
  have grant : (ins t).mGntI = true := (Bool.and_eq_true_iff.mp taken).1
  refine ⟨?_, grant⟩
  cases served.stage t with
  | rest past _ _ => simp [phase] at past
  | fresh _ _ down _ => exact absurd (down.symm.trans (served.grants t grant)) Bool.false_ne_true
  | asking _ _ _ _ _ more _ => exact more
  | waiting _ _ _ _ _ later _ waits _ _ _ =>
      exact absurd ((waits t later (le_refl t)).symm.trans phase) Channel.wait_ne_fill

/-- After a granted read the engine is at work, and asks for nothing but the same again. -/
theorem behind {g : ℕ} (taken : readTaken (dma g) (ins g) = true) :
    (dma (g + 1)).state ≠ .idle ∧
      ((dma (g + 1)).mReqO = true → (dma (g + 1)).mAddrO = (dma g).mAddrO) := by
  have grant : (ins g).mGntI = true := (Bool.and_eq_true_iff.mp taken).1
  have up := served.grants g grant
  rw [served.next]
  cases served.stage g with
  | rest _ noRead _ => rw [served.notTaken noRead] at taken; cases taken
  | fresh _ _ down _ => exact absurd (down.symm.trans up) Bool.false_ne_true
  | asking ch phase _ _ place more _ =>
      rw [step_fill (served.noAbort g) phase more]
      refine ⟨?_, fun _ => place.symm⟩
      simp only [request, grant, if_true]
      exact Channel.idle_ne_wait.symm
  | waiting ch g' _ _ _ later _ waits _ _ _ =>
      have phase := waits g later (le_refl g)
      cases valid : (ins g).mRvalidI with
      | true =>
          rw [step_wait (served.noAbort g) phase valid]
          refine ⟨Channel.idle_ne_fill.symm, fun up => ?_⟩
          cases ch <;> exact absurd up Bool.false_ne_true
      | false =>
          rw [step_stall (served.noAbort g) phase valid]
          refine ⟨?_, fun up => absurd up Bool.false_ne_true⟩
          simp only [defaults, phase]
          exact Channel.idle_ne_wait.symm

/-- After it the engine waits until the answer. -/
theorem waits {g : ℕ} {ch : Channel} (phase : (dma g).state = ch.fill)
    (taken : readTaken (dma g) (ins g) = true) {u : ℕ} (later : g < u) :
    u ≤ g + latency → (dma u).state = ch.wait := by
  induction u, later using Nat.le_induction with
  | base =>
      intro _
      obtain ⟨more, grant⟩ := served.asked phase taken
      rw [served.next, step_fill (served.noAbort g) phase more]
      simp [request, grant]
  | succ u later ih =>
      intro within
      have wait := ih (by omega)
      -- an answer now would be one to a grant before `g`, with a wait since then
      have silent : (ins u).mRvalidI = false := by
        by_contra valid
        obtain ⟨g', rfl, -, -, -, since⟩ := served.answer wait (by simpa using valid)
        exact Channel.wait_ne_fill ((since g (by omega) (by omega)).symm.trans phase)
      rw [served.next, step_stall (served.noAbort u) wait silent]
      exact wait

/-- **A read granted in a fill phase is streamed** when its answer comes. -/
theorem taken_beat {g : ℕ} {ch : Channel} (phase : (dma g).state = ch.fill)
    (taken : readTaken (dma g) (ins g) = true) :
    ch.beat (dma (g + latency + 1)) = some (ins (g + latency)).mRdataI := by
  have wait := served.waits phase taken (Nat.lt_add_of_pos_right served.positive) (le_refl _)
  have valid : (ins (g + latency)).mRvalidI = true := (served.answers.delayed g).trans taken
  rw [served.next, beat_step (served.noAbort _), if_pos ⟨wait, valid⟩]

end Served

end Port

end MiniMac.Accel.AxiStreamDma
