/-
# System.JobStatus -- which jobs are reported done

The done flag of STATUS is set in a cycle in which the registered done pulses of the
enabled cores are all up and the engine has seen the last word.  Core 0 pulses with its
last word, which the engine draws out of it, one in three cycles; the results of the
other cores are dropped, so they are through with theirs, pulse and forget it before.
-/
import MiniMac.Accel.LaunchStagger
import MiniMac.System.JobQueue

namespace MiniMac.Accel.MacCoreAxi

set_option autoImplicit false

variable {rows cols dataW : ℕ} {s₀ : State rows cols dataW} {ins : ℕ → Inputs}

/-- The last word leaves with the done pulse, on the way back to the idle phase. -/
theorem step_last {s : State rows cols dataW} {i : Inputs}
    (last : (step s i).mAxisResTlast = true) :
    (step s i).coreDoneO = true ∧ (step s i).state = .idle := by
  cases phase : s.state with
  | streamOut =>
      rw [step_streamOut phase] at last ⊢
      exact ⟨if_pos last, if_pos last⟩
  | _ => simp [step, fsm, phase, capture, defaults] at last

/-- A core that is started at most once, with a willing result port, has pulsed and rests
after the time of a job. -/
theorem settled_after {a s c M N : ℕ} (idle : (after s₀ ins a).state = .idle) (order : a ≤ s)
    (once : ∀ t, a ≤ t → t < c → (ins t).coreStartI = true → t = s)
    (m_pos : 0 < M) (m_lt : M < 256) (n_pos : 0 < N) (n_lt : N < 256)
    (held : ∀ t, s < t → t < c →
      (ins t).regMI = BitVec.ofNat 8 M ∧ (ins t).regNI = BitVec.ofNat 8 N)
    (ready : ∀ t, (ins t).mAxisResTready = true) {t : ℕ}
    (late : s + 2 + (M + N + N) + N < t) (upto : t ≤ c) :
    (after s₀ ins t).state = .idle ∧ (after s₀ ins t).coreDoneO = false := by
  have noStart (u : ℕ) (low : a ≤ u) (high : u < c) (other : u ≠ s) :
      (ins u).coreStartI = false :=
    eq_false_of_ne_true fun start => other (once u low high start)
  have rests : ∀ u, s + 2 + (M + N + N) + N ≤ u → u ≤ c → (after s₀ ins u).state = .idle := by
    cases start : (ins s).coreStartI with
    | true =>
        have run : Scheduled s₀ ins s M N := {
          idle := idle_until s₀ ins idle (fun u low high => noStart u low (by omega) high.ne) s
            order (le_refl s)
          launch := start
          m_pos := m_pos
          m_lt := m_lt
          n_pos := n_pos
          n_lt := n_lt
          dims := fun u low high => held u low (by omega) }
        have done := run.done
          ⟨fun u _ _ => ready u, fun u low high => (held u (by omega) (by omega)).2⟩
        exact idle_until s₀ ins done.1 fun u low high => noStart u (by omega) high (by omega)
    | false =>
        intro u low high
        refine idle_until s₀ ins (b := c) idle (fun v low' high' => ?_) u (by omega) high
        by_cases here : v = s
        · rw [here, start]
        · exact noStart v low' high' here
  obtain ⟨u, rfl⟩ : ∃ u, t = u + 1 := ⟨t - 1, by omega⟩
  refine ⟨rests (u + 1) (by omega) upto, ?_⟩
  rw [after_succ, step_coreDoneO, if_pos (rests u (by omega) (by omega))]

end MiniMac.Accel.MacCoreAxi

namespace MiniMac.System

open MiniMac.Theory MiniMac.Accel
open MiniMac.Accel.AxiStreamDma (Channel)

set_option autoImplicit false

variable {rows cols : ℕ} {Cell : Type}

/-! ## The other three cores -/

section Cores

/-- The cores by number. -/
def coreOf (s : MacSubsystem.State rows cols 8) : Fin 4 → MacCoreAxi.State rows cols 8
  | 0 => s.core0
  | 1 => s.core1
  | 2 => s.core2
  | 3 => s.core3

variable (s₀ : MacSubsystem.State rows cols 8) (ins : ℕ → MacSubsystem.Inputs)

def multicoreInputsAt (t : ℕ) : MacMulticore.Inputs :=
  MacSubsystem.multicoreInputs (MacSubsystem.after s₀ ins t) (ins t)

/-- The multicore in the accelerator runs as one on its own. -/
theorem multicore_eq (t : ℕ) : (MacSubsystem.after s₀ ins t).multicore =
    MacMulticore.after (multicoreInputsAt s₀ ins) t :=
  Clocked.eq_run (x := fun u => (MacSubsystem.after s₀ ins u).multicore) rfl (fun _ => rfl) t

theorem delay_pos : ∀ c : Fin 4, c ≠ 0 → 0 < MacMulticore.delay c ∧ MacMulticore.delay c < 3 := by
  decide

/-- The start pulse of a core. -/
def pulseAt (t : ℕ) (c : Fin 4) : Bool :=
  MacMulticore.pulsesAt (multicoreInputsAt s₀ ins) t c

/-- What a core other than core 0 sees: its results are taken at once. -/
def otherInputsAt (c : Fin 4) (t : ℕ) : MacCoreAxi.Inputs :=
  MacSubsystem.coreInputs (MacSubsystem.after s₀ ins t) (ins t) (pulseAt s₀ ins t c) true

/-- Such a core runs as a core on its own. -/
theorem coreOf_eq {c : Fin 4} (other : c ≠ 0) (t : ℕ) : coreOf (MacSubsystem.after s₀ ins t) c =
    MacCoreAxi.after (coreOf s₀ c) (otherInputsAt s₀ ins c) t := by
  refine Clocked.eq_run (x := fun u => coreOf (MacSubsystem.after s₀ ins u) c) ?_ ?_ t
  · match c with
    | 1 => rfl
    | 2 => rfl
    | 3 => rfl
  · intro u
    have pulse : pulseAt s₀ ins u c = MacMulticore.coreStart (MacSubsystem.after s₀ ins u).multicore
        (multicoreInputsAt s₀ ins u) c := by
      rw [multicore_eq]
      rfl
    match c with
    | 1 => rw [otherInputsAt, pulse]; rfl
    | 2 => rw [otherInputsAt, pulse]; rfl
    | 3 => rw [otherInputsAt, pulse]; rfl

/-- A pulse comes from a launch, its delay before. -/
theorem launch_of_pulseAt {t : ℕ} {c : Fin 4} (pulse : pulseAt s₀ ins t c = true) :
    ∃ l, t = l + MacMulticore.delay c ∧ coreLaunchAt s₀ ins l = true := by
  obtain ⟨l, now, launched⟩ := (MacMulticore.pulse_iff _ t c).mp pulse
  refine ⟨l, now, ?_⟩
  rw [MacMulticore.launchesAt, ← multicore_eq, MacMulticore.launches, Bool.and_eq_true,
    Bool.and_eq_true] at launched
  exact launched.1.1

/-- The cores other than core 0 rest, and no pulse is on its way to them. -/
structure OthersRest (t : ℕ) : Prop where
  idle : ∀ c : Fin 4, c ≠ 0 → (coreOf (MacSubsystem.after s₀ ins t) c).state = .idle
  quiet : ∀ l < t, t < l + 3 → coreLaunchAt s₀ ins l = false

theorem othersRest_reset : OthersRest s₀ ins 0 where
  idle c other := by
    match c with
    | 1 => rfl
    | 2 => rfl
    | 3 => rfl
  quiet l before := absurd before (Nat.not_lt_zero l)

variable {s₀ ins}

/-- Without a launch they go on resting. -/
theorem OthersRest.stay {t : ℕ} (rest : OthersRest s₀ ins t)
    (none : coreLaunchAt s₀ ins t = false) : OthersRest s₀ ins (t + 1) where
  idle c other := by
    have noPulse : pulseAt s₀ ins t c = false := by
      by_contra up
      obtain ⟨l, now, launched⟩ := launch_of_pulseAt s₀ ins (by simpa using up)
      have delay := delay_pos c other
      rw [rest.quiet l (by omega) (by omega)] at launched
      cases launched
    have idle := rest.idle c other
    rw [coreOf_eq s₀ ins other] at idle ⊢
    rw [MacCoreAxi.after_succ, MacCoreAxi.step_idle idle]
    simp [otherInputsAt, MacSubsystem.coreInputs, noPulse]
  quiet l before recent := by
    rcases Nat.lt_succ_iff_lt_or_eq.mp before with earlier | rfl
    · exact rest.quiet l earlier (by omega)
    · exact none

theorem OthersRest.until {t u : ℕ} (rest : OthersRest s₀ ins t) (later : t ≤ u) :
    (∀ v, t ≤ v → v < u → coreLaunchAt s₀ ins v = false) → OthersRest s₀ ins u := by
  induction u, later using Nat.le_induction with
  | base =>
      intro _
      exact rest
  | succ u later ih =>
      intro none
      exact (ih fun v low high => none v low (by omega)).stay (none u later (Nat.lt_succ_self u))

end Cores

/-! ## A job in the other cores -/

namespace JobRun

variable [DecidableEq Cell] {latency : ℕ} {inside : BitVec 32 → Prop} {cell : BitVec 32 → Cell}
variable {mem : ℕ → Cell → BitVec 32} {s₀ : MacSubsystem.State rows cols 8}
variable {ins : ℕ → MacSubsystem.Inputs} {weights activations : List (BitVec 32)}
variable {job : JobConfig} {b f T : ℕ}
variable (run : JobRun latency inside cell mem s₀ ins weights activations job b)
variable (fill : Filled s₀ ins job b f) (grant : LastGrant s₀ ins job b f T)

include run fill grant

/-- Before the last word is granted the other cores are through, and their pulses are over. -/
theorem others_settled (rest : OthersRest s₀ ins b) {c : Fin 4} (other : c ≠ 0) {t : ℕ}
    (late : streamsAt f job + T ≤ t) (upto : t ≤ streamsAt f job + T + 1) :
    (coreOf (MacSubsystem.after s₀ ins t) c).state = .idle ∧
      (coreOf (MacSubsystem.after s₀ ins t) c).coreDoneO = false := by
  have fits := run.fits
  have long := fill.long
  have pace := grant.late
  have pos := fits.n_pos
  have streams : streamsAt f job = f + 1 + 2 + (job.m + job.n + job.n) := rfl
  have delay := delay_pos c other
  have idle := rest.idle c other
  rw [coreOf_eq s₀ ins other] at idle ⊢
  refine MacCoreAxi.settled_after (a := b) (s := f + 1 + MacMulticore.delay c)
    (c := streamsAt f job + T + 1) idle (by omega) ?_ fits.m_pos fits.m_lt fits.n_pos fits.n_lt ?_
    (fun _ => rfl) (by omega) upto
  · intro u low high start
    obtain ⟨l, now, launched⟩ := launch_of_pulseAt s₀ ins start
    rcases Nat.lt_or_ge l b with before | inside
    · rw [rest.quiet l before (by omega)] at launched
      cases launched
    · have launch := (run.coreLaunch_iff fill inside (grant.busy.earlier (by omega))).mp launched
      omega
  · intro u low high
    obtain ⟨-, config⟩ := run.held u (by omega) (grant.busy.earlier (by omega))
    exact ⟨config.dimM, config.dimN⟩

/-- So they rest at its end. -/
theorem others_end (rest : OthersRest s₀ ins b) : OthersRest s₀ ins (streamsAt f job + T + 1) where
  idle c other := (run.others_settled fill grant rest other (Nat.le_succ _) (le_refl _)).1
  quiet l before recent := by
    have pace := grant.late
    have long := fill.long
    have pos := run.fits.n_pos
    have streams : streamsAt f job = f + 1 + 2 + (job.m + job.n + job.n) := rfl
    by_contra launched
    have inside : l ≤ streamsAt f job + T := Nat.le_of_lt_succ before
    have launch : l = f + 1 :=
      (run.coreLaunch_iff fill (by omega) (grant.busy.earlier inside)).mp (by simpa using launched)
    omega

omit run fill in
/-- Core 0 pulses with its last word. -/
theorem core0_pulse : (coreAt s₀ ins (streamsAt f job + T)).coreDoneO = true ∧
    (coreAt s₀ ins (streamsAt f job + T + 1)).coreDoneO = false := by
  obtain ⟨u, now⟩ : ∃ u, streamsAt f job + T = u + 1 := ⟨f + 2 + (job.m + job.n + job.n) + T, by
    rw [streamsAt]
    omega⟩
  have marked := grant.marked
  rw [now] at marked ⊢
  obtain ⟨pulse, idle⟩ :=
    MacCoreAxi.step_last (s := coreAt s₀ ins u) (i := coreInputsAt s₀ ins u) marked
  refine ⟨pulse, ?_⟩
  exact (MacCoreAxi.step_coreDoneO (s := coreAt s₀ ins (u + 1))
    (i := coreInputsAt s₀ ins (u + 1))).trans (if_pos idle)

end JobRun

/-! ## The done flag -/

section Flag

variable {s₀ : MacSubsystem.State rows cols 8} {ins : ℕ → MacSubsystem.Inputs}

theorem coreDoneR_succ (t : ℕ) : (MacSubsystem.after s₀ ins (t + 1)).multicore.coreDoneR =
    if (regsAt s₀ ins t).startO then 0 else (multicoreInputsAt s₀ ins t).coreDone := rfl

/-- The registered pulse of core 0. -/
theorem coreDoneR_zero (t : ℕ) (low : (coreAt s₀ ins t).coreDoneO = false) :
    (MacSubsystem.after s₀ ins (t + 1)).multicore.coreDoneR.getLsbD 0 = false := by
  rw [coreDoneR_succ]
  split
  · rfl
  · exact (done_bits _ _ _ _).1.trans low

/-- Behind the end of a job core 0 does not pulse. -/
theorem Rest.pulse_low (steady : AxiStreamDma.Steady (dmaAt s₀ ins) (dmaInputsAt s₀ ins))
    {weights activations : List (BitVec 32)} {a : ℕ} (rest : Rest s₀ ins weights activations a)
    (low : (coreAt s₀ ins a).coreDoneO = false) {u : ℕ} (later : a ≤ u)
    (noStart : ∀ v, a ≤ v → v < u → (regsAt s₀ ins v).startO = false) :
    (coreAt s₀ ins u).coreDoneO = false := by
  rcases Nat.eq_or_lt_of_le later with rfl | after
  · exact low
  · obtain ⟨v, rfl⟩ : ∃ v, u = v + 1 := ⟨u - 1, by omega⟩
    have idle := (rest.until steady (Nat.le_of_lt_succ after) fun w low' high =>
      noStart w low' (by omega)).core
    exact (MacCoreAxi.step_coreDoneO (s := coreAt s₀ ins v) (i := coreInputsAt s₀ ins v)).trans
      (if_pos idle)

theorem stickyDone_succ (t : ℕ) : (regsAt s₀ ins (t + 1)).stickyDone =
    (!MacCfgRegs.clearsDone (regsInputsAt s₀ ins t) &&
      ((regsInputsAt s₀ ins t).doneI || (regsAt s₀ ins t).stickyDone)) :=
  MacCfgRegs.step_stickyDone _ _

theorem doneI_eq (t : ℕ) : (regsInputsAt s₀ ins t).doneI =
    ((MacSubsystem.after s₀ ins t).multicore.operationActiveR &&
      MacMulticore.covers (regsAt s₀ ins t).coreEnO
        (MacSubsystem.after s₀ ins t).multicore.coreDoneR && (dmaAt s₀ ins t).resDoneO) := rfl

theorem operationActiveR_succ (t : ℕ) :
    (MacSubsystem.after s₀ ins (t + 1)).multicore.operationActiveR =
      if (regsInputsAt s₀ ins t).doneI then false
      else if (regsAt s₀ ins t).startO then true
      else (MacSubsystem.after s₀ ins t).multicore.operationActiveR := rfl

/-- A start finds the done flag cleared by its own write. -/
theorem stickyDone_start {b : ℕ} (start : (regsAt s₀ ins b).startO = true) :
    (regsAt s₀ ins b).stickyDone = false := by
  cases b with
  | zero => cases start
  | succ b =>
      have write : MacCfgRegs.startsJob (regsInputsAt s₀ ins b) = true :=
        (MacCfgRegs.step_startO _ _).symm.trans start
      have clears : MacCfgRegs.clearsDone (regsInputsAt s₀ ins b) = true := by
        rw [MacCfgRegs.startsJob, Bool.and_eq_true, Bool.and_eq_true] at write
        rw [MacCfgRegs.clearsDone, write.1.1, write.1.2,
          ← BitVec.getLsbD_eq_getElem (by decide), write.2]
        rfl
      rw [stickyDone_succ, clears]
      rfl

end Flag

/-- Core 0 is not covered by a record without its pulse. -/
theorem covers_low {en done : BitVec 4} (enabled : en.getLsbD 0 = true)
    (low : done.getLsbD 0 = false) : MacMulticore.covers en done = false := by
  by_contra covered
  have pulse := (MacMulticore.covers_iff en done).mp (by simpa using covered) 0 enabled
  exact absurd (low.symm.trans pulse) (by decide)

/-- The pulse of core 0 alone covers a mask with core 0 only if it is the only core. -/
theorem covers_first : ∀ {en : BitVec 4}, en.getLsbD 0 = true →
    (MacMulticore.covers en 0b0001 = true ↔ en = 0b0001) := by
  decide

/-- Up to cycle `t` the job that started in cycle `b` is watched: no other start comes, the
mask is held and nothing clears the done flag. -/
structure Watched (s₀ : MacSubsystem.State rows cols 8) (ins : ℕ → MacSubsystem.Inputs)
    (b : ℕ) (en : BitVec 4) (t : ℕ) : Prop where
  noStart : ∀ u, b < u → u < t → (regsAt s₀ ins u).startO = false
  mask : ∀ u, b ≤ u → u < t → (regsAt s₀ ins u).coreEnO = en
  noClear : ∀ u, b ≤ u → u < t → MacCfgRegs.clearsDone (regsInputsAt s₀ ins u) = false

namespace JobRun

variable [DecidableEq Cell] {latency : ℕ} {inside : BitVec 32 → Prop} {cell : BitVec 32 → Cell}
variable {mem : ℕ → Cell → BitVec 32} {s₀ : MacSubsystem.State rows cols 8}
variable {ins : ℕ → MacSubsystem.Inputs} {weights activations : List (BitVec 32)}
variable {job : JobConfig} {b f T : ℕ} {en : BitVec 4}
variable (run : JobRun latency inside cell mem s₀ ins weights activations job b)
variable (fill : Filled s₀ ins job b f) (grant : LastGrant s₀ ins job b f T)
variable (others : OthersRest s₀ ins b)
variable (record : (MacSubsystem.after s₀ ins b).multicore.coreDoneR.getLsbD 0 = false)

/-- The cycle in which the job has ended. -/
abbrev endsAt (f : ℕ) (job : JobConfig) (T : ℕ) : ℕ := streamsAt f job + T + 1

include run fill grant

omit fill in
/-- The engine has not seen the last word before the end. -/
theorem resDone_low (u : ℕ) (later : b < u) (before : u < endsAt f job T) :
    (dmaAt s₀ ins u).resDoneO = false := by
  have ends : endsAt f job T = streamsAt f job + T + 1 := rfl
  have steady := run.steady
  induction u, later using Nat.le_induction with
  | base =>
      rw [Nat.succ_eq_add_one, steady.next,
        AxiStreamDma.step_start (steady.noAbort b) run.rest.engine run.start]
  | succ u later ih =>
      by_contra up
      rw [steady.next, Bool.not_eq_false] at up
      rcases AxiStreamDma.step_resDone (steady.noAbort u) up with early | idle
      · rw [ih (by omega)] at early
        cases early
      · rw [← steady.next] at idle
        exact grant.busy (u + 1) (by omega) (by omega) idle

include record

omit fill in
theorem doneI_before (enabled : (regsAt s₀ ins b).coreEnO.getLsbD 0 = true) (u : ℕ)
    (from_ : b ≤ u) (before : u < endsAt f job T) : (regsInputsAt s₀ ins u).doneI = false := by
  rw [doneI_eq]
  rcases Nat.eq_or_lt_of_le from_ with rfl | later
  · rw [covers_low enabled record]
    simp
  · rw [run.resDone_low grant u later before]
    simp

omit fill in
/-- The operation is open until the end. -/
theorem operation_open (u : ℕ) (later : b < u) :
    u ≤ endsAt f job T → (MacSubsystem.after s₀ ins u).multicore.operationActiveR = true := by
  have ends : endsAt f job T = streamsAt f job + T + 1 := rfl
  have enabled := run.config.enabled
  induction u, later using Nat.le_induction with
  | base =>
      intro upto
      rw [Nat.succ_eq_add_one, operationActiveR_succ,
        run.doneI_before grant record enabled b (le_refl b) (by omega), run.start]
      rfl
  | succ u later ih =>
      intro upto
      have busy := grant.busy.earlier (show u ≤ streamsAt f job + T by omega)
      rw [operationActiveR_succ, run.doneI_before grant record enabled u (by omega) (by omega),
        run.noStart later busy, ih (by omega)]
      rfl

include others

omit record in
/-- At the end only core 0 has pulsed. -/
theorem coreDoneR_end :
    (MacSubsystem.after s₀ ins (endsAt f job T)).multicore.coreDoneR = 0b0001 := by
  have long := fill.long
  have streams : streamsAt f job = f + 1 + 2 + (job.m + job.n + job.n) := rfl
  have noStart := run.noStart (t := streamsAt f job + T) (by omega) grant.busy
  have pulse := (core0_pulse grant).1
  have low {c : Fin 4} (other : c ≠ 0) :=
    (run.others_settled fill grant others other (le_refl _) (Nat.le_succ _)).2
  have one := low (c := 1) (by decide)
  have two := low (c := 2) (by decide)
  have three := low (c := 3) (by decide)
  simp only [coreOf] at one two three
  rw [coreAt] at pulse
  rw [endsAt, coreDoneR_succ, noStart, multicoreInputsAt, MacSubsystem.multicoreInputs, pulse, one,
    two, three]
  rfl

/-- The end is seen by the register file exactly if core 0 is the only core. -/
theorem doneI_iff {t : ℕ} (watched : Watched s₀ ins b en t) (u : ℕ) (from_ : b ≤ u)
    (before : u < t) : (regsInputsAt s₀ ins u).doneI = true ↔ u = endsAt f job T ∧ en = 0b0001 := by
  have long := fill.long
  have streams : streamsAt f job = f + 1 + 2 + (job.m + job.n + job.n) := rfl
  have ends : endsAt f job T = streamsAt f job + T + 1 := rfl
  have first := run.config.enabled
  have enabled : en.getLsbD 0 = true := by
    rw [← watched.mask b (le_refl b) (by omega)]
    exact first
  have ended := run.completed fill grant
  rcases Nat.lt_trichotomy u (endsAt f job T) with early | rfl | late
  · rw [run.doneI_before grant record first u from_ early]
    simp
    omega
  · have open_ := run.operation_open grant record (endsAt f job T) (by omega) (le_refl _)
    rw [doneI_eq, open_, ended.done, watched.mask _ from_ before,
      run.coreDoneR_end fill grant others]
    simpa using covers_first enabled
  · obtain ⟨v, rfl⟩ : ∃ v, u = v + 1 := ⟨u - 1, by omega⟩
    have low := ended.rest.pulse_low run.steady (core0_pulse grant).2 (u := v) (by omega)
      fun w low high => watched.noStart w (by omega) (by omega)
    rw [doneI_eq, watched.mask _ from_ before, covers_low enabled (coreDoneR_zero v low)]
    simp
    omega

/-- **The done flag of a job**: up behind its end if core 0 is the only core, and never up
otherwise. -/
theorem stickyDone_iff (t : ℕ) (from_ : b ≤ t) :
    Watched s₀ ins b en t →
      ((regsAt s₀ ins t).stickyDone = true ↔ endsAt f job T < t ∧ en = 0b0001) := by
  have long := fill.long
  have streams : streamsAt f job = f + 1 + 2 + (job.m + job.n + job.n) := rfl
  have ends : endsAt f job T = streamsAt f job + T + 1 := rfl
  induction t, from_ using Nat.le_induction with
  | base =>
      intro _
      rw [stickyDone_start run.start]
      simp
      omega
  | succ t from_ ih =>
      intro watched
      have before : Watched s₀ ins b en t :=
        ⟨fun u low high => watched.noStart u low (by omega),
          fun u low high => watched.mask u low (by omega),
          fun u low high => watched.noClear u low (by omega)⟩
      have seen := run.doneI_iff fill grant others record watched t from_ (Nat.lt_succ_self t)
      rw [stickyDone_succ, watched.noClear t from_ (Nat.lt_succ_self t), Bool.not_false,
        Bool.true_and, Bool.or_eq_true, seen, ih before]
      constructor
      · rintro (⟨rfl, alone⟩ | ⟨late, alone⟩)
        · exact ⟨Nat.lt_succ_self _, alone⟩
        · exact ⟨by omega, alone⟩
      · rintro ⟨late, alone⟩
        rcases Nat.lt_succ_iff_lt_or_eq.mp late with earlier | same
        · exact .inr ⟨earlier, alone⟩
        · exact .inl ⟨same.symm, alone⟩

end JobRun

/-! ## The done flag of every job of a queue -/

section Queue

variable [DecidableEq Cell] {latency : ℕ} {inside : BitVec 32 → Prop} {cell : BitVec 32 → Cell}
variable {mem : ℕ → Cell → BitVec 32} {s₀ : MacSubsystem.State rows cols 8}
variable {ins : ℕ → MacSubsystem.Inputs}

/-- From a resting accelerator whose core 0 does not pulse to a later cycle before which no
job starts. -/
theorem flags_until (steady : AxiStreamDma.Steady (dmaAt s₀ ins) (dmaInputsAt s₀ ins))
    {weights activations : List (BitVec 32)} {a : ℕ} (rest : Rest s₀ ins weights activations a)
    (others : OthersRest s₀ ins a) (low : (coreAt s₀ ins a).coreDoneO = false) {u : ℕ}
    (later : a < u) (noStart : ∀ v, a ≤ v → v < u → (regsAt s₀ ins v).startO = false) :
    OthersRest s₀ ins u ∧
      (MacSubsystem.after s₀ ins u).multicore.coreDoneR.getLsbD 0 = false := by
  constructor
  · refine others.until later.le fun v low' high => ?_
    exact (rest.until steady low' fun w below above => noStart w below (by omega)).noLaunch
  · obtain ⟨v, rfl⟩ : ∃ v, u = v + 1 := ⟨u - 1, by omega⟩
    exact coreDoneR_zero v (rest.pulse_low steady low (Nat.le_of_lt_succ later)
      fun w below above => noStart w below (by omega))

/-- Each job whose start finds the engine idle for a cycle starts with the done pulses of
the last one forgotten. -/
theorem JobQueue.flags_at {n : ℕ} {jobs : ℕ → JobConfig} {b : ℕ → ℕ}
    (queue : JobQueue latency inside cell mem s₀ ins n jobs b)
    (rested : ∀ k < n, (dmaAt s₀ ins (b k - 1)).state = .idle) (k : ℕ) (within : k < n) :
    OthersRest s₀ ins (b k) ∧
      (MacSubsystem.after s₀ ins (b k)).multicore.coreDoneR.getLsbD 0 = false := by
  have steady := queue.memory.served.steady
  induction k with
  | zero =>
      have positive : 0 < b 0 := by
        by_contra first
        have start := queue.start 0 within
        rw [Nat.eq_zero_of_not_pos first] at start
        cases start
      exact flags_until steady (rest_reset s₀ ins) (othersRest_reset s₀ ins) rfl positive
        fun t _ before => queue.noStart_before within before
  | succ k ih =>
      have earlier : k < n := by omega
      have run := queue.run_of_rest earlier (queue.rest_at k earlier)
      obtain ⟨f, fill⟩ := run.filled
      obtain ⟨T, grant⟩ := run.last_grant fill
      have ended := run.completed fill grant
      have order := queue.order k (k + 1) (Nat.lt_succ_self k) within
      have long := fill.long
      have streams : streamsAt f (jobs k) =
        f + 1 + 2 + ((jobs k).m + (jobs k).n + (jobs k).n) := rfl
      -- a cycle before the start the engine is idle too, so the end lies before that
      have upto : streamsAt f (jobs k) + T + 1 < b (k + 1) := by
        by_contra early
        rcases Nat.lt_or_ge (b k + 1) (b (k + 1)) with room | tight
        · exact ended.busy (b (k + 1) - 1) (by omega) (by omega) (rested (k + 1) within)
        · exact ended.busy (b (k + 1)) order (by omega) (queue.idle (k + 1) within)
      exact flags_until steady ended.rest (run.others_end fill grant (ih earlier).1)
        (JobRun.core0_pulse grant).2 upto fun t low before =>
          queue.noStart_between within (Nat.lt_of_lt_of_le ended.later low) before

/-- **Which jobs of a queue are reported done.**  A watched job raises the done flag in the
cycle behind its end if core 0 is the only enabled core, and never if another is enabled. -/
theorem queue_done_iff {n : ℕ} {jobs : ℕ → JobConfig} {b : ℕ → ℕ}
    (queue : JobQueue latency inside cell mem s₀ ins n jobs b)
    (rested : ∀ k < n, (dmaAt s₀ ins (b k - 1)).state = .idle) (k : ℕ) (within : k < n) :
    ∃ e, Completed cell mem s₀ ins (ledgerAt cell mem jobs b k) (jobs k) (b k) e ∧
      ∀ en t, b k ≤ t → Watched s₀ ins (b k) en t →
        ((regsAt s₀ ins t).stickyDone = true ↔ e < t ∧ en = 0b0001) := by
  have run := queue.run_of_rest within (queue.rest_at k within)
  obtain ⟨f, fill⟩ := run.filled
  obtain ⟨T, grant⟩ := run.last_grant fill
  obtain ⟨others, record⟩ := queue.flags_at rested k within
  exact ⟨_, run.completed fill grant, fun en t from_ watched =>
    run.stickyDone_iff fill grant others record t from_ watched⟩

end Queue

/-- Nothing is written to the 4 by 4 core in a window behind a start. -/
theorem quad_watched {b t : ℕ} {en : BitVec 4} (mask : (regsAt quadMac quadIns b).coreEnO = en)
    (quiet : ∀ u, b ≤ u → u < t → ¬ (u < 2 ∨ 100 ≤ u ∧ u < 103)) :
    Watched quadMac quadIns b en t where
  noStart u low high := by
    have apart := quiet (u - 1) (by omega) (by omega)
    rw [quad_startO]
    exact decide_eq_false (by omega)
  mask u low high := regsAt_until (fun r => r.coreEnO = en) (fun _ _ same => same) mask low
    fun v low' high' => quad_quiet v (quiet v low' (Nat.lt_trans high' high))
  noClear u low high := by
    rw [MacCfgRegs.clearsDone, quad_quiet u (quiet u low high)]
    rfl

/-- The first job of the 4 by 4 core runs with all cores enabled and is not reported done.  The
second runs with core 0 alone, and is. -/
theorem quad_done_iff :
    (∀ t, 2 ≤ t → t ≤ 100 → (regsAt quadMac quadIns t).stickyDone = false) ∧
      ∃ e, 103 < e ∧ ∀ t, 103 ≤ t →
        ((regsAt quadMac quadIns t).stickyDone = true ↔ e < t) := by
  have idle : ∀ k < 2, (dmaAt quadMac quadIns (quadStarts k - 1)).state = .idle := by
    intro k within
    obtain rfl | rfl : k = 0 ∨ k = 1 := by omega
    · rfl
    · exact quad_idle 2 (by decide)
  constructor
  · obtain ⟨e, -, flag⟩ := queue_done_iff quad_queue idle 0 (by decide)
    have mask : (regsAt quadMac quadIns (quadStarts 0)).coreEnO = 0b1111 := rfl
    intro t low high
    have watched := quad_watched (t := t) mask fun u from_ before => by
      have from_ : 2 ≤ u := from_
      omega
    refine eq_false_of_ne_true fun up => ?_
    exact absurd ((flag _ t low watched).mp up).2 (by decide)
  · obtain ⟨e, ended, flag⟩ := queue_done_iff quad_queue idle 1 (by decide)
    have mask : (regsAt quadMac quadIns (quadStarts 1)).coreEnO = 0b0001 := by decide +kernel
    refine ⟨e, ended.later, fun t low => ?_⟩
    have watched := quad_watched (t := t) mask fun u from_ before => by
      have from_ : 103 ≤ u := from_
      omega
    rw [flag _ t low watched, and_iff_left rfl]

end MiniMac.System
