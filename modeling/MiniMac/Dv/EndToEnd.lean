/-
# Dv.EndToEnd -- a job from memory to memory

The fill leaves the operands in the core's buffers, the job computes their window
sums, and the drain writes them back.  Each part is a theorem about its own
machine; here they are parts of one run of the bench.
-/
import MiniMac.Dv.InputFill

namespace MiniMac.Dv.MacDmaTb

open MiniMac.Theory MiniMac.Accel MiniMac.Accel.AxiStreamDma

set_option autoImplicit false

variable {rows cols : ℕ}

/-- The operand byte at place `k` of `n` words in memory, zero past them. -/
def operandAt (mem : BitVec 30 → BitVec 32) (base : BitVec 32) (n k : ℕ) : BitVec 8 :=
  if k < n then (mem (wordIndex (wordAddr base k))).setWidth 8 else 0

/-- The weight matrix a job streams, in row-major order. -/
def streamedWeights (mem : BitVec 30 → BitVec 32) (base : BitVec 32) (w : ℕ) :
    Fin rows → Fin cols → BitVec 8 :=
  fun r c => operandAt mem base w (r * cols + c)

def streamedActivations (mem : BitVec 30 → BitVec 32) (base : BitVec 32) (a : ℕ) :
    Fin rows → BitVec 8 :=
  fun r => operandAt mem base a r

/-- The exact signed sum a job computes for a column. -/
def streamedSum (rows : ℕ) (mem : BitVec 30 → BitVec 32) (wgtBase actBase : BitVec 32)
    (w a M N : ℕ) (c : Fin cols) : ℤ :=
  windowSum (streamedWeights mem wgtBase w : Fin rows → Fin cols → BitVec 8)
    (streamedActivations mem actBase a) M N c

theorem ringSlot_wordsAt (mem : BitVec 30 → BitVec 32) (base : BitVec 32) {n : ℕ} (fits : n ≤ 4096)
    (k : ℕ) : (ringSlot 4096 0 k (wordsAt mem base n)).setWidth 8 = operandAt mem base n k := by
  have length : (wordsAt mem base n).length = n := by
    rw [wordsAt, List.length_map, List.length_range]
  rw [ringSlot_of_length_le _ (by omega), operandAt]
  split
  · rename_i within
    rw [List.getD_eq_getElem _ _ (by omega)]
    simp [wordsAt]
  · rw [List.getD_eq_default _ _ (by omega)]
    rfl

namespace JobRun

variable {s₀ : State rows cols 8} {ins : ℕ → MacDma.Inputs} {b l : ℕ}
variable {wgtBase actBase resBase : BitVec 32} {w a M N : ℕ}

/-- What a job may ask for. -/
structure Fits (rows cols w a M N : ℕ) : Prop where
  room : rows * cols ≤ 4096
  weights : w ≤ rows * cols
  activations : a ≤ rows
  m_pos : 0 < M
  m_lt : M < 256
  n_pos : 0 < N
  n_lt : N < 256
  n_le : N ≤ cols

theorem Fits.rows_le (fits : Fits rows cols w a M N) : rows ≤ 4096 := by
  have one : 1 ≤ cols := by have := fits.n_pos; have := fits.n_le; omega
  exact (Nat.le_mul_of_pos_right rows one).trans fits.room

section Parts

variable (job : JobRun s₀ ins b l wgtBase actBase resBase w a M N) (fits : Fits rows cols w a M N)
include job fits

/-! ## The core's part -/

theorem fill : Waiting (after s₀ ins (filledAt b w a)) ∧ Silent (after s₀ ins (filledAt b w a)) ∧
    (after s₀ ins (filledAt b w a)).mem = s₀.mem ∧
    beats s₀ ins .wgt 0 (filledAt b w a) = wordsAt s₀.mem wgtBase w ∧
    beats s₀ ins .act 0 (filledAt b w a) = wordsAt s₀.mem actBase a ∧ filledAt b w a ≤ l := by
  have weights := fits.weights
  have room := fits.room
  have activations := fits.activations
  have tall := fits.rows_le
  exact job.filled (by omega) (by omega)

/-- After the fill the streams are silent. -/
theorem silent_from (t : ℕ) (late : filledAt b w a ≤ t) : Silent (after s₀ ins t) := by
  obtain ⟨waiting, silent, _⟩ := job.fill fits
  have begun : (after s₀ ins (filledAt b w a)).mac.dma.state.fills = false := by
    rw [waiting.phase]
    rfl
  have past : ∀ t, filledAt b w a ≤ t →
      (after s₀ ins t).mac.dma.state.fills = false ∧ Silent (after s₀ ins t) := by
    refine Clocked.invariant_from (P := fun _ (s : State rows cols 8) =>
      s.mac.dma.state.fills = false ∧ Silent s) ⟨begun, silent⟩ ?_
    intro u later at_
    have other : u ≠ b := by
      rw [filledAt] at later
      omega
    exact step_past at_.1 (job.noAbort u) (job.noStart other)
  exact (past t late).2

theorem start_lt_launch : b < l := by
  obtain ⟨_, _, _, _, _, filled⟩ := job.fill fits
  rw [filledAt] at filled
  omega

/-- The beats the core has seen when it is started. -/
theorem beats_launch :
    MacCoreAxi.wgtBeats (coreInputs s₀ ins) l = wordsAt s₀.mem wgtBase w ∧
      MacCoreAxi.actBeats (coreInputs s₀ ins) l = wordsAt s₀.mem actBase a := by
  obtain ⟨_, _, _, weights, activations, filled⟩ := job.fill fits
  have upto (ch : Channel) : beats s₀ ins ch 0 l = beats s₀ ins ch 0 (filledAt b w a) := by
    have none : beats s₀ ins ch (0 + filledAt b w a) (l - filledAt b w a) = [] :=
      Clocked.window_none fun t low _ => job.silent_from fits t (by omega) ch
    have parts := beats_add s₀ ins ch 0 (filledAt b w a) (l - filledAt b w a)
    rwa [none, List.append_nil, Nat.add_sub_cancel' filled] at parts
  exact ⟨(upto .wgt).trans weights, (upto .act).trans activations⟩

omit fits in
/-- The core is idle until it is started. -/
theorem core_idle (t : ℕ) (upto : t ≤ l) :
    (MacCoreAxi.after s₀.mac.core (coreInputs s₀ ins) t).state = .idle := by
  refine MacCoreAxi.idle_until s₀.mac.core (coreInputs s₀ ins) (a := 0) (b := l) rfl ?_ t
    (Nat.zero_le t) upto
  intro u _ before
  have other := (job.launch u).not.mpr before.ne
  exact eq_false_of_ne_true other

/-- The core takes a job over what the fill left in its buffers. -/
theorem jobAt : MacCoreAxi.JobAt s₀.mac.core (coreInputs s₀ ins) l M N := by
  obtain ⟨_, _, _, _, _, filled⟩ := job.fill fits
  exact {
    idle := job.core_idle l (le_refl l)
    launch := (job.launch l).mpr rfl
    m_pos := fits.m_pos
    m_lt := fits.m_lt
    n_pos := fits.n_pos
    n_lt := fits.n_lt
    n_le := fits.n_le
    dims := fun t _ _ => ⟨job.regM t, job.regN t⟩
    still := fun t low _ => (job.silent_from fits t (by omega)).valid
    settled := fun t before _ => by simp [job.core_idle t (by omega)] }

/-- Its buffers hold the operands of the job. -/
theorem buffers :
    (MacCoreAxi.after s₀.mac.core (coreInputs s₀ ins) l).wgtBuf =
        streamedWeights s₀.mem wgtBase w ∧
      (MacCoreAxi.after s₀.mac.core (coreInputs s₀ ins) l).actBuf =
        streamedActivations s₀.mem actBase a := by
  have room := fits.room
  have weights := fits.weights
  have activations := fits.activations
  have tall := fits.rows_le
  obtain ⟨wgt, act⟩ := job.beats_launch fits
  constructor
  · funext r c
    rw [MacCoreAxi.wgtBuf_eq, MacCoreAxi.heldWeight, wgt]
    exact ringSlot_wordsAt s₀.mem wgtBase (by omega) _
  · funext r
    rw [MacCoreAxi.actBuf_eq, MacCoreAxi.heldActivation, act]
    exact ringSlot_wordsAt s₀.mem actBase (by omega) _

/-- The cycle in which the core enters its result stream. -/
abbrev streamsAt (l M N : ℕ) : ℕ := l + 2 + (M + N + N)

/-- Until the core streams, the engine waits and memory is untouched. -/
theorem waiting_until : ∀ t, filledAt b w a ≤ t → t ≤ streamsAt l M N →
    Waiting (after s₀ ins t) ∧ (after s₀ ins t).mem = s₀.mem := by
  obtain ⟨waiting, _, mem, _⟩ := job.fill fits
  have streams : streamsAt l M N = l + 2 + (M + N + N) := rfl
  refine Clocked.invariant_between
    (P := fun _ (s : State rows cols 8) => Waiting s ∧ s.mem = s₀.mem) ⟨waiting, mem⟩ ?_
  intro t low high at_
  obtain ⟨u, rfl⟩ : ∃ u, t = u + 1 := ⟨t - 1, by rw [filledAt] at low; omega⟩
  have notStreaming : (MacCoreAxi.after s₀.mac.core (coreInputs s₀ ins) u).state ≠ .streamOut := by
    rcases Nat.lt_or_ge l u with late | early
    · exact (job.jobAt fits).scheduled.not_streaming u late.le (by omega)
    · simp [job.core_idle u early]
  have silent : (after s₀ ins (u + 1)).mac.core.mAxisResTvalid = false := by
    rw [after_core, MacCoreAxi.after_succ, MacCoreAxi.step_tvalid]
    exact decide_eq_false notStreaming
  obtain ⟨next, same⟩ := at_.1.step (job.noAbort (u + 1)) silent
  exact ⟨next, same.trans at_.2⟩

/-- **The drain of the job**, from the cycle in which the core enters its stream. -/
theorem drain : MacDma.Drain (after s₀ ins (streamsAt l M N)).mac
    (pairInputs s₀ ins (streamsAt l M N)) N resBase := by
  obtain ⟨_, _, _, _, _, filled⟩ := job.fill fits
  have begun := job.start_lt_launch fits
  have streams : streamsAt l M N = l + 2 + (M + N + N) := rfl
  obtain ⟨waiting, _⟩ := job.waiting_until fits (streamsAt l M N) (by omega) (le_refl _)
  obtain ⟨streaming, count, silent, _⟩ := (job.jobAt fits).scheduled.streamOut_phase
  rw [← after_core] at streaming count silent
  exact {
    pos := fits.n_pos
    fits := fits.n_le
    small := fits.n_lt
    start := {
      core := ⟨streaming.trans (if_pos fits.n_pos).symm, fun _ => count, rfl⟩
      silent := silent
      phase := waiting.phase
      notReady := waiting.notReady
      noRequest := waiting.noRequest }
    quiet := fun u => {
      noStart := job.noStart (by omega)
      noAbort := job.noAbort _
      noCoreStart := eq_false_of_ne_true ((job.launch _).not.mpr (by omega))
      dim := job.regN _
      place := job.resBase _ } }

/-! ## The memory's part -/

/-- The words the drain writes are the window sums of the streamed operands. -/
theorem resBuf_eq (c : Fin cols) (within : c.val < N) :
    (after s₀ ins (streamsAt l M N)).mac.core.resBuf c =
      BitVec.ofInt 32 (streamedSum rows s₀.mem wgtBase actBase w a M N c) := by
  obtain ⟨wgt, act⟩ := job.buffers fits
  rw [after_core, (job.jobAt fits).resBuf_eq c within, wgt, act, streamedSum]

/-- The result-done flag is down when the core enters its stream. -/
theorem notDone_until (t : ℕ) (upto : t ≤ streamsAt l M N) :
    (after s₀ ins t).mac.dma.resDoneO = false := by
  obtain ⟨_, _, _, _, _, filled⟩ := job.fill fits
  have streams : streamsAt l M N = l + 2 + (M + N + N) := rfl
  obtain ⟨waiting, _⟩ := job.waiting_until fits (streamsAt l M N) (by omega) (le_refl _)
  rcases Nat.lt_or_ge b t with late | early
  · apply Bool.eq_false_of_not_eq_true
    intro up
    have still := job.resDoneO_from late up (streamsAt l M N) upto
    rw [waiting.notDone] at still
    cases still
  · exact (job.resting t early).1.unfinished.2

/-- Memory never stalls, so the last word is granted in its request's first cycle,
and until then the result-done flag is down. -/
theorem last_grant : ∃ T,
    MacDma.DrainComplete (after s₀ ins (streamsAt l M N)).mac
      (pairInputs s₀ ins (streamsAt l M N)) N resBase T ∧
    ∀ t, t ≤ streamsAt l M N + T → (after s₀ ins t).mac.dma.resDoneO = false := by
  have drain := job.drain fits
  obtain ⟨T, before, last⟩ := drain.reaches_last fun t => ⟨t, le_refl t, rfl⟩
  obtain ⟨_, _, _, stalled, _⟩ := drain.last_word before last
  have prompt : (MacDma.after (after s₀ ins (streamsAt l M N)).mac
      (pairInputs s₀ ins (streamsAt l M N)) (T - 1)).dma.mReqO = false := by
    apply Bool.eq_false_of_not_eq_true
    intro up
    have refused := stalled up
    simp [pairInputs, macInputs] at refused
  refine ⟨T, drain.complete before last prompt, ?_⟩
  intro t upto
  rcases Nat.le_total t (streamsAt l M N) with early | late
  · exact job.notDone_until fits t early
  · obtain ⟨u, rfl⟩ := Nat.exists_eq_add_of_le late
    rw [after_mac]
    exact drain.notDone (job.notDone_until fits _ (le_refl _)) before last u (by omega)

/-- The memory writes of the drain up to cycle `u`. -/
theorem mem_log (u : ℕ) (x : Write (BitVec 30) (BitVec 32))
    (member : x ∈ Clocked.window (fun v => (MacDma.memWrite
      (MacDma.after (after s₀ ins (streamsAt l M N)).mac (pairInputs s₀ ins (streamsAt l M N)) v)
      (pairInputs s₀ ins (streamsAt l M N) v)).map store) 0 u) :
    ∃ j, j < N ∧ x = store (MacDma.resWrite resBase
      (after s₀ ins (streamsAt l M N)).mac.core.resBuf j) := by
  have drain := job.drain fits
  obtain ⟨v, _, _, event⟩ := Clocked.mem_window.mp member
  obtain ⟨write, written, rfl⟩ := Option.map_eq_some_iff.mp event
  rcases drain.only v write written with acted | ⟨v', _, acted⟩
  · obtain ⟨j, within, rfl⟩ := drain.word_of_wordWrite acted
    exact ⟨j, within, rfl⟩
  · obtain ⟨j, within, rfl⟩ := drain.word_of_wordWrite acted
    exact ⟨j, within, rfl⟩

/-- **The memory of a finished job**: the result words where they belong, and
everything else as it was. -/
theorem mem_after {T : ℕ} (complete : MacDma.DrainComplete (after s₀ ins (streamsAt l M N)).mac
      (pairInputs s₀ ins (streamsAt l M N)) N resBase T) (t : ℕ) (late : streamsAt l M N + T < t) :
    (∀ c : Fin cols, c.val < N → (after s₀ ins t).mem (wordIndex (wordAddr resBase c)) =
      BitVec.ofInt 32 (streamedSum rows s₀.mem wgtBase actBase w a M N c)) ∧
    ∀ addr, (∀ c, c < N → addr ≠ wordIndex (wordAddr resBase c)) →
      (after s₀ ins t).mem addr = s₀.mem addr := by
  have drain := job.drain fits
  have small := fits.n_lt
  obtain ⟨_, _, _, _, _, filled⟩ := job.fill fits
  have streams : streamsAt l M N = l + 2 + (M + N + N) := rfl
  obtain ⟨_, start⟩ := job.waiting_until fits (streamsAt l M N) (by omega) (le_refl _)
  obtain ⟨u, rfl⟩ := Nat.exists_eq_add_of_lt late
  rw [Nat.add_assoc, Nat.add_assoc, mem_eq, start]
  constructor
  · intro c within
    rw [← job.resBuf_eq fits c within]
    apply replay_hit
    · intro x member here
      obtain ⟨j, inside, rfl⟩ := job.mem_log fits _ x member
      obtain rfl := wordIndex_inj (by omega) (by omega) here
      simp [store, MacDma.resWrite, MacDma.resWord]
    · have member := List.mem_map_of_mem
        (f := MacDma.resWrite resBase (after s₀ ins (streamsAt l M N)).mac.core.resBuf)
        (List.mem_range.mpr within)
      rw [← complete.words] at member
      obtain ⟨v, _, early, acted⟩ := Clocked.mem_window.mp member
      obtain ⟨_, _, stage, _⟩ := drain.stage v
      have written := stage.memWrite_of_wordWrite acted
      exact ⟨_, Clocked.mem_window.mpr
        ⟨v, Nat.zero_le v, by omega, congrArg (Option.map store) written⟩, rfl⟩
  · intro addr elsewhere
    apply replay_frame
    intro x member
    obtain ⟨j, inside, rfl⟩ := job.mem_log fits _ x member
    exact elsewhere j inside

end Parts

/-- **A job from memory to memory.**  The result-done flag comes up, and whenever it
is up the result words hold the exact window sums of the streamed operands and
every other word is as it was at the start. -/
theorem job_end_to_end (job : JobRun s₀ ins b l wgtBase actBase resBase w a M N)
    (fits : Fits rows cols w a M N) :
    (∃ t, (after s₀ ins t).mac.dma.resDoneO = true) ∧
    ∀ t, (after s₀ ins t).mac.dma.resDoneO = true →
      (∀ c : Fin cols, c.val < N →
        ((after s₀ ins t).mem (wordIndex (wordAddr resBase c))).toInt =
          streamedSum rows s₀.mem wgtBase actBase w a M N c) ∧
      ∀ addr, (∀ c, c < N → addr ≠ wordIndex (wordAddr resBase c)) →
        (after s₀ ins t).mem addr = s₀.mem addr := by
  obtain ⟨T, complete, notDone⟩ := job.last_grant fits
  refine ⟨⟨streamsAt l M N + (T + 1), by rw [after_mac]; exact complete.resDone⟩, ?_⟩
  intro t done
  have late : streamsAt l M N + T < t := by
    by_contra early
    rw [notDone t (by omega)] at done
    cases done
  obtain ⟨words, others⟩ := job.mem_after fits complete t late
  refine ⟨?_, others⟩
  intro c within
  rw [words c within, streamedSum, toInt_ofInt_windowSum fits.rows_le]

end JobRun

/-! ## A product of a matrix and a vector -/

/-- The rows 1, 2 and 3, 4 of a matrix at `0x100` and the vector 5, -3 at `0x200`. -/
def productBench : State 2 2 8 where
  mac := ⟨MacCoreAxi.blank, MacDma.waitingEngine⟩
  mem := fun a => if 0x40 ≤ a ∧ a < 0x44 then (a - 0x3F).setWidth 32
    else if a = 0x80 then 5 else if a = 0x81 then 253 else 7
  pending := false
  pendingData := 0

/-- A start in cycle 0 and a core start in cycle 21, when the inputs are in. -/
def productStimulus (t : ℕ) : MacDma.Inputs where
  startI := decide (t = 0)
  abortI := false
  wgtBaseI := 0x100
  actBaseI := 0x200
  resBaseI := 0x300
  dmaLenWgtI := 16
  dmaLenActI := 8
  coreStartI := decide (t = 21)
  regMI := 3
  regNI := 2
  unknown := 0
  memGnt := false
  memRvalid := false
  memRdata := 0

theorem product_job : JobRun productBench productStimulus 0 21 0x100 0x200 0x300 4 2 3 2 where
  noAbort _ := rfl
  start _ := decide_eq_true_iff
  wgtBase _ := rfl
  actBase _ := rfl
  resBase _ := rfl
  dmaLenWgt _ := rfl
  dmaLenAct _ := rfl
  regM _ := rfl
  regN _ := rfl
  launch _ := decide_eq_true_iff
  inputsDone := by decide +kernel

/-- Its columns are -4 and -2, and no other word changes. -/
theorem job_end_to_end_product :
    ∃ t, (after productBench productStimulus t).mac.dma.resDoneO = true ∧
      ((after productBench productStimulus t).mem (wordIndex 0x300)).toInt = -4 ∧
      ((after productBench productStimulus t).mem (wordIndex 0x304)).toInt = -2 ∧
      ∀ addr, addr ≠ wordIndex 0x300 → addr ≠ wordIndex 0x304 →
        (after productBench productStimulus t).mem addr = productBench.mem addr := by
  have fits : JobRun.Fits 2 2 4 2 3 2 := by constructor <;> decide
  obtain ⟨⟨t, done⟩, whenever⟩ := JobRun.job_end_to_end product_job fits
  obtain ⟨words, others⟩ := whenever t done
  have first := words 0 (by decide)
  have second := words 1 (by decide)
  refine ⟨t, done, first.trans (by decide), second.trans (by decide), fun addr here there => ?_⟩
  refine others addr fun c within => ?_
  obtain rfl | rfl : c = 0 ∨ c = 1 := by omega
  · exact here
  · exact there

end MiniMac.Dv.MacDmaTb
