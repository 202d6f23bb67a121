/-
# Soc.Abort -- what an abort write does to the stream engine

Nothing: the register file's abort pulse is not connected, so an abort is followed
by an idle engine exactly when the engine is idle anyway or just finishing.  The
job after it streams its own words as every job does: each word is the answer to a
read of its own place, and a word of the RAM unless the RAM port is used for
another one in the cycle after the read (`abort_stops_iff`).
-/
import MiniMac.Soc.StreamPort

namespace MiniMac.Soc.SocTop

open MiniMac.Theory MiniMac.Core MiniMac.Accel MiniMac.Bus

set_option autoImplicit false

variable (rom : BitVec 10 → BitVec 32) (s₀ : State) (ins : ℕ → Inputs)

/-! ## Writes of the control register -/

/-- What the accelerator's register file sees. -/
def macRegsAt (t : ℕ) : MacCfgRegs.Inputs :=
  MacMulticore.regsInputs (after rom s₀ ins t).mac.multicore
    (MacSubsystem.multicoreInputs (after rom s₀ ins t).mac
      (macInputs (after rom s₀ ins t) (ins t)))

/-- CTRL is written with bit 0 set. -/
def StartWrite (t : ℕ) : Prop := MacCfgRegs.startsJob (macRegsAt rom s₀ ins t) = true

/-- CTRL is written with bit 1 set and bit 0 clear. -/
structure AbortWrite (t : ℕ) : Prop where
  writes : MacCfgRegs.writes (macRegsAt rom s₀ ins t) = true
  ctrl : MacCfgRegs.offset (macRegsAt rom s₀ ins t) = 0x00
  abort : (macRegsAt rom s₀ ins t).pwdata.getLsbD 1 = true
  noStart : (macRegsAt rom s₀ ins t).pwdata.getLsbD 0 = false

theorem bridge_enabled (t : ℕ) : ObiToApb.Enabled (after rom s₀ ins t).bridge :=
  Clocked.invariant (P := fun s : State => ObiToApb.Enabled s.bridge)
    (fun up => absurd up Bool.false_ne_true) (fun _ _ enabled => enabled.step) t

theorem penable_of_writes {t : ℕ} (writes : MacCfgRegs.writes (macRegsAt rom s₀ ins t) = true) :
    (after rom s₀ ins t).bridge.penable = true := by
  simp only [MacCfgRegs.writes, Bool.and_eq_true] at writes
  exact writes.1.2

/-- The bridge makes no writes in consecutive cycles. -/
theorem writes_apart {t : ℕ} (writes : MacCfgRegs.writes (macRegsAt rom s₀ ins t) = true) :
    MacCfgRegs.writes (macRegsAt rom s₀ ins (t + 1)) = false := by
  by_contra again
  have up := penable_of_writes rom s₀ ins (Bool.not_eq_false _ ▸ again)
  have down := (bridge_enabled rom s₀ ins t).apart (bus_ready (after rom s₀ ins t) (ins t))
    (penable_of_writes rom s₀ ins writes)
  exact absurd (up.symm.trans down) (by decide)

/-- The engine is started in the cycle after a start write. -/
theorem startI_succ (t : ℕ) :
    (macDmaAt rom s₀ ins (t + 1)).startI = MacCfgRegs.startsJob (macRegsAt rom s₀ ins t) :=
  MacCfgRegs.step_startO _ _

/-- A write is not followed by a start that came before it. -/
theorem noStart_of_writes {t : ℕ} (writes : MacCfgRegs.writes (macRegsAt rom s₀ ins t) = true) :
    (macDmaAt rom s₀ ins t).startI = false := by
  cases t with
  | zero => rfl
  | succ t =>
      rw [startI_succ]
      by_contra started
      simp only [MacCfgRegs.startsJob, Bool.not_eq_false, Bool.and_eq_true] at started
      rw [writes_apart rom s₀ ins started.1.1] at writes
      cases writes

variable {rom s₀ ins} in
theorem AbortWrite.noStartWrite {t : ℕ} (abort : AbortWrite rom s₀ ins t) :
    MacCfgRegs.startsJob (macRegsAt rom s₀ ins t) = false := by
  rw [MacCfgRegs.startsJob, abort.noStart, Bool.and_false]

/-! ## The engine after the write -/

/-- Idle, not busy, and without a request. -/
structure Stopped (s : AxiStreamDma.State) : Prop where
  idle : s.state = .idle
  notBusy : s.busyO = false
  noRequest : s.mReqO = false

theorem dma_busy (t : ℕ) : AxiStreamDma.BusyInJob (macDma rom s₀ ins t) :=
  Clocked.invariant (P := fun s : State => AxiStreamDma.BusyInJob s.mac.dma)
    ⟨fun up => absurd up Bool.false_ne_true, fun busy => absurd rfl busy⟩
    (fun _ _ busy => busy.step rfl) t

/-- An idle cycle without a start leaves the engine stopped. -/
theorem stopped_of_idle {t : ℕ} (idle : (macDma rom s₀ ins t).state = .idle)
    (noStart : (macDmaAt rom s₀ ins t).startI = false) : Stopped (macDma rom s₀ ins (t + 1)) := by
  have engine : macDma rom s₀ ins (t + 1) = _ := AxiStreamDma.step_idle rfl idle noStart
  have phase : (macDma rom s₀ ins (t + 1)).state = .idle := by
    rw [engine]
    exact idle
  refine ⟨phase, ?_, ?_⟩
  · have busy := (dma_busy rom s₀ ins (t + 1)).not
    rw [not_not] at busy
    simpa using busy.mpr phase
  · rw [engine]
    rfl

/-- The engine is idle, or its last result word is granted. -/
def Quiescent (t : ℕ) : Prop :=
  (macDma rom s₀ ins t).state = .idle ∨
    AxiStreamDma.finishes (macDma rom s₀ ins t) (macDmaAt rom s₀ ins t) = true

variable {rom s₀ ins} in
theorem Quiescent.next {t : ℕ} (quiescent : Quiescent rom s₀ ins t)
    (noStart : (macDmaAt rom s₀ ins t).startI = false) :
    (macDma rom s₀ ins (t + 1)).state = .idle :=
  (AxiStreamDma.step_idle_iff rfl).mpr (quiescent.imp_left fun idle => ⟨idle, noStart⟩)

variable {rom s₀ ins} in
/-- From a quiet cycle on the engine is stopped until it is started. -/
theorem Quiescent.stopped {t : ℕ} (quiescent : Quiescent rom s₀ ins t)
    (abort : AbortWrite rom s₀ ins t) {u : ℕ} (later : t + 2 ≤ u) :
    (∀ v, t < v → v < u → ¬ StartWrite rom s₀ ins v) → Stopped (macDma rom s₀ ins u) := by
  induction u, later using Nat.le_induction with
  | base =>
      intro _
      apply stopped_of_idle
      · exact quiescent.next (noStart_of_writes rom s₀ ins abort.writes)
      · rw [startI_succ]
        exact abort.noStartWrite
  | succ u later ih =>
      intro silent
      have stopped := ih fun v low high => silent v low (by omega)
      apply stopped_of_idle rom s₀ ins stopped.idle
      obtain ⟨v, rfl⟩ : ∃ v, u = v + 1 := ⟨u - 1, by omega⟩
      rw [startI_succ]
      simpa [StartWrite] using silent v (by omega) (by omega)

variable {rom s₀ ins} in
/-- An engine that is stopped two cycles after the write was quiet at it. -/
theorem quiescent_of_stopped {t : ℕ} (stopped : Stopped (macDma rom s₀ ins (t + 2))) :
    Quiescent rom s₀ ins t := by
  have before : (macDma rom s₀ ins (t + 1)).state = .idle := by
    rcases (AxiStreamDma.step_idle_iff (s := macDma rom s₀ ins (t + 1))
      (i := macDmaAt rom s₀ ins (t + 1)) rfl).mp stopped.idle with ⟨idle, -⟩ | last
    · exact idle
    · -- the last write's request is still up
      have up : (macDma rom s₀ ins (t + 2)).mReqO = true := AxiStreamDma.step_finishes rfl last
      exact absurd (stopped.noRequest.symm.trans up) Bool.false_ne_true
  rcases (AxiStreamDma.step_idle_iff (s := macDma rom s₀ ins t)
    (i := macDmaAt rom s₀ ins t) rfl).mp before with ⟨idle, -⟩ | last
  · exact .inl idle
  · exact .inr last

/-! ## The job after it -/

/-- The words a job streams before cycle `T` are those of its own ranges: the `k`-th is
the answer to a read of the `k`-th place, granted since the start, and the RAM word there
as of the grant; there are as many as the range has, when the channel is done. -/
structure StreamsOwn (x : AxiStreamDma.Job) (a T : ℕ) : Prop where
  words : ∀ (ch : AxiStreamDma.Channel) t word, a ≤ t → t < T →
    ch.beat (macDma rom s₀ ins (t + 1)) = some word →
    ∃ g, t = g + 2 ∧ a < g ∧
      AxiStreamDma.readTaken (macDma rom s₀ ins g) (macDmaAt rom s₀ ins g) = true ∧
      (macDma rom s₀ ins g).mAddrO =
        wordAddr (x.base ch) (AxiStreamDma.beats (macDma rom s₀ ins) ch a t).length ∧
      (MemSubsystem.inRam (macDma rom s₀ ins g).mAddrO = true →
        word = ramWord rom s₀ ins g (macDma rom s₀ ins g).mAddrO)
  within : ∀ ch n, (x.len ch).toNat = 4 * n →
    (AxiStreamDma.beats (macDma rom s₀ ins) ch a T).length ≤ n
  whole : ∀ ch : AxiStreamDma.Channel, ch.done (macDma rom s₀ ins T) = true →
    4 * (AxiStreamDma.beats (macDma rom s₀ ins) ch a T).length = (x.len ch).toNat

/-- In the jobs that start after cycle `t`, no read of the RAM for a stream is followed at
once by an access of another RAM word (or that one has the same value). -/
def FetchesUndisturbed (t : ℕ) : Prop :=
  ∀ (x : AxiStreamDma.Job) a T, t < a →
    x.Over (macDma rom s₀ ins) (macDmaAt rom s₀ ins) a T →
    ∀ (ch : AxiStreamDma.Channel) g, a < g → g + 3 ≤ T → (macDma rom s₀ ins g).state = ch.fill →
      AxiStreamDma.readTaken (macDma rom s₀ ins g) (macDmaAt rom s₀ ins g) = true →
      MemSubsystem.inRam (macDma rom s₀ ins g).mAddrO = true → Undisturbed rom s₀ ins g

/-- The abort in cycle `t` works: two cycles later the engine is stopped, until CTRL is
written with bit 0 set, and jobs after it stream the words of their own ranges. -/
structure AbortStops (t : ℕ) : Prop where
  stops : ∀ u, t + 2 ≤ u → (∀ v, t < v → v < u → ¬ StartWrite rom s₀ ins v) →
    Stopped (macDma rom s₀ ins u)
  nextJob : ∀ (x : AxiStreamDma.Job) a T, t < a →
    x.Over (macDma rom s₀ ins) (macDmaAt rom s₀ ins) a T → StreamsOwn rom s₀ ins x a T

/-- A job's words are its own, if the RAM port leaves them alone. -/
theorem streamsOwn {x : AxiStreamDma.Job} {a T : ℕ}
    (spans : x.Over (macDma rom s₀ ins) (macDmaAt rom s₀ ins) a T)
    (undisturbed : ∀ (ch : AxiStreamDma.Channel) g, a < g → g + 3 ≤ T →
      (macDma rom s₀ ins g).state = ch.fill →
      AxiStreamDma.readTaken (macDma rom s₀ ins g) (macDmaAt rom s₀ ins g) = true →
      MemSubsystem.inRam (macDma rom s₀ ins g).mAddrO = true → Undisturbed rom s₀ ins g) :
    StreamsOwn rom s₀ ins x a T := by
  have served := stream_served rom s₀ ins
  obtain ⟨-, whole, within, -⟩ := served.streams spans
  refine ⟨?_, within, whole⟩
  intro ch t word low high beat
  have later : a < t := by
    rcases Nat.lt_or_ge a t with after | same
    · exact after
    · -- the start's own cycle is followed by silence
      obtain rfl : a = t := by omega
      rw [served.steady.silent (spans.idle ▸ AxiStreamDma.Channel.idle_ne_wait)] at beat
      cases beat
  obtain ⟨g, rfl, own, phase, granted, place, answer⟩ :=
    served.beat_fetched (spans.earlier later (by omega)) beat
  refine ⟨g, rfl, own, granted, place, fun inside => ?_⟩
  rw [← answer]
  exact (streamRdata_eq_iff rom s₀ ins granted inside).mpr
    (undisturbed ch g own (by omega) phase granted inside)

/-- **An abort is followed by a stopped engine exactly when the engine is idle or just
finishing at the write**; the jobs after it stream their own words exactly when the RAM
port leaves their reads alone. -/
theorem abort_stops_iff (t : ℕ) (abort : AbortWrite rom s₀ ins t) :
    AbortStops rom s₀ ins t ↔ Quiescent rom s₀ ins t ∧ FetchesUndisturbed rom s₀ ins t := by
  constructor
  · intro works
    refine ⟨?_, ?_⟩
    · apply quiescent_of_stopped
      apply works.stops (t + 2) (le_refl _)
      intro v low high started
      obtain rfl : v = t + 1 := by omega
      simp only [StartWrite, MacCfgRegs.startsJob, Bool.and_eq_true] at started
      exact absurd (started.1.1.symm.trans (writes_apart rom s₀ ins abort.writes)) (by decide)
    · intro x a T later spans ch g own upto phase granted inside
      have beat := (stream_served rom s₀ ins).taken_beat phase granted
      obtain ⟨g', same, -, -, -, word⟩ :=
        (works.nextJob x a T later spans).words ch (g + 2) _ (by omega) (by omega) beat
      obtain rfl : g = g' := by omega
      exact (streamRdata_eq_iff rom s₀ ins granted inside).mp (word inside)
  · rintro ⟨quiescent, undisturbed⟩
    refine ⟨?_, ?_⟩
    · intro u later silent
      exact quiescent.stopped abort later silent
    · intro x a T later spans
      exact streamsOwn rom s₀ ins spans (undisturbed x a T later spans)

/-! ## An abort in the fill phase -/

/-- CTRL is written with 1 and then with 2. -/
def startThenAbort (t : ℕ) : Inputs :=
  if t = 0 then cpuAccess true 0x40001000 1
  else if t = 3 then cpuAccess true 0x40001000 2
  else cpuIdle

theorem startThenAbort_writes : AbortWrite (fun _ => 0) powerUp startThenAbort 5 :=
  ⟨by decide, by decide, by decide, by decide⟩

theorem abort_stops_not_filling :
    ¬ AbortStops (fun _ => 0) powerUp startThenAbort 5 := by
  intro works
  have quiescent :=
    ((abort_stops_iff (fun _ => 0) powerUp startThenAbort 5 startThenAbort_writes).mp works).1
  exact absurd quiescent (by unfold Quiescent; decide)

/-- The engine goes on with its job. -/
theorem abort_ignored :
    ¬ ∀ (rom : BitVec 10 → BitVec 32) (s₀ : State) (ins : ℕ → Inputs) (t : ℕ),
      AbortWrite rom s₀ ins t → AbortStops rom s₀ ins t := by
  intro claim
  have works := claim (fun _ => 0) powerUp startThenAbort 5 startThenAbort_writes
  have stopped := works.stops 7 (by decide) fun v low high => by
    obtain rfl : v = 6 := by omega
    unfold StartWrite
    decide
  exact absurd stopped.idle (by decide)

end MiniMac.Soc.SocTop
