/-
# Dv.InputFill -- the engine fills the operand buffers

A word takes three cycles: the request comes up, it is granted, and the answer is
put on the stream while the lingering request reads the word once more.  The
second answer arrives in the fill phase, which does not look at it.
`Filling.run` counts the words of one channel, `fill_run` does both channels.
-/
import MiniMac.Dv.MacDmaTb

namespace MiniMac.Dv.MacDmaTb

open MiniMac.Theory MiniMac.Accel MiniMac.Accel.AxiStreamDma

set_option autoImplicit false

variable {rows cols dataW : ℕ}

/-! ## One word -/

/-- No operand is on either stream. -/
def Silent (s : State rows cols dataW) : Prop := ∀ ch : Channel, ch.beat s.mac.dma = none

theorem Silent.valid {s : State rows cols dataW} (silent : Silent s) :
    s.mac.dma.mAxisWgtTvalid = false ∧ s.mac.dma.mAxisActTvalid = false := by
  have wgt := silent .wgt
  have act := silent .act
  simp only [Channel.beat] at wgt act
  exact ⟨by simpa using wgt, by simpa using act⟩

/-- Neither the inputs nor the results are done. -/
def Unfinished (s : State rows cols dataW) : Prop :=
  s.mac.dma.actDoneO = false ∧ s.mac.dma.resDoneO = false

/-- `n` words are left on a channel, the next one at `addr`. -/
structure Filling (ch : Channel) (n : ℕ) (addr : BitVec 32) (s : State rows cols dataW) : Prop where
  phase : s.mac.dma.state = ch.fill
  left : s.mac.dma.bytesLeft = BitVec.ofNat 32 (4 * n)
  currAddr : s.mac.dma.currAddr = addr
  noRequest : s.mac.dma.mReqO = false
  unfinished : Unfinished s

/-- The request for the next of `n + 1` words is up. -/
structure Requested (ch : Channel) (n : ℕ) (addr : BitVec 32) (s : State rows cols dataW) :
    Prop where
  phase : s.mac.dma.state = ch.fill
  left : s.mac.dma.bytesLeft = BitVec.ofNat 32 (4 * (n + 1))
  currAddr : s.mac.dma.currAddr = addr
  request : s.mac.dma.mReqO = true
  read : s.mac.dma.mWeO = false
  place : s.mac.dma.mAddrO = addr
  unfinished : Unfinished s

/-- The next of `n + 1` words is there, and its request still up. -/
structure Answered (ch : Channel) (n : ℕ) (addr word : BitVec 32) (s : State rows cols dataW) :
    Prop where
  phase : s.mac.dma.state = ch.wait
  left : s.mac.dma.bytesLeft = BitVec.ofNat 32 (4 * (n + 1))
  currAddr : s.mac.dma.currAddr = addr
  read : s.mac.dma.mWeO = false
  valid : s.pending = true
  data : s.pendingData = word
  unfinished : Unfinished s

section Word

variable {ch : Channel} {n : ℕ} {addr word : BitVec 32} {s : State rows cols dataW}
variable {i : MacDma.Inputs}

theorem bytesLeft_ne_zero (small : n < 2 ^ 29) : BitVec.ofNat 32 (4 * (n + 1)) ≠ 0 := by
  intro zero
  have := congrArg BitVec.toNat zero
  simp at this
  omega

/-- Only an engine that waits for a word drives a stream. -/
theorem silent_step (noAbort : i.abortI = false)
    (notWaiting : ∀ ch : Channel, s.mac.dma.state ≠ ch.wait) : Silent (MacDmaTb.step s i) := by
  intro ch
  have beat : ch.beat (MacDmaTb.step s i).mac.dma = _ := beat_step noAbort ch
  rw [beat, if_neg fun both => notWaiting ch both.1]

theorem Filling.step (at_ : Filling ch (n + 1) addr s) (noAbort : i.abortI = false)
    (small : n < 2 ^ 29) :
    Requested ch n addr (MacDmaTb.step s i) ∧ Silent (MacDmaTb.step s i) ∧
      (MacDmaTb.step s i).mem = s.mem := by
  have engine : (MacDmaTb.step s i).mac.dma = _ :=
    step_fill noAbort at_.phase (at_.left ▸ bytesLeft_ne_zero small)
  have noGrant : MacDma.granted s.mac (macInputs s i) = false := by
    simp [MacDma.granted, at_.noRequest]
  refine ⟨⟨?_, ?_, ?_, ?_, ?_, ?_, ?_⟩, silent_step noAbort (by simp [at_.phase]),
    step_mem_read s i (by simp [at_.noRequest])⟩
  all_goals simp [engine, AxiStreamDma.request, defaults, MacDma.dmaInputs, noGrant, at_.phase,
    at_.left, at_.currAddr, Unfinished, at_.unfinished.1, at_.unfinished.2]

theorem Requested.step (at_ : Requested ch n addr s) (noAbort : i.abortI = false)
    (small : n < 2 ^ 29) :
    Answered ch n addr (s.mem (wordIndex addr)) (MacDmaTb.step s i) ∧
      Silent (MacDmaTb.step s i) ∧ (MacDmaTb.step s i).mem = s.mem := by
  have engine : (MacDmaTb.step s i).mac.dma = _ :=
    step_fill noAbort at_.phase (at_.left ▸ bytesLeft_ne_zero small)
  have grant : MacDma.granted s.mac (macInputs s i) = true := by
    simp [MacDma.granted, macInputs, at_.request]
  refine ⟨⟨?_, ?_, ?_, ?_, ?_, ?_, ?_⟩, silent_step noAbort (by simp [at_.phase]),
    step_mem_read s i fun _ => at_.read⟩
  case refine_5 => simp [MacDmaTb.step, at_.request, at_.read]
  case refine_6 => simp [MacDmaTb.step, at_.request, at_.read, at_.place]
  all_goals simp [engine, AxiStreamDma.request, defaults, MacDma.dmaInputs, grant, at_.left,
    at_.currAddr, Unfinished, at_.unfinished.1, at_.unfinished.2]

theorem Answered.step (at_ : Answered ch n addr word s) (noAbort : i.abortI = false) :
    Filling ch n (addr + 4) (MacDmaTb.step s i) ∧
      (∀ ch' : Channel,
        ch'.beat (MacDmaTb.step s i).mac.dma = if ch' = ch then some word else none) ∧
      (MacDmaTb.step s i).mem = s.mem := by
  have engine : (MacDmaTb.step s i).mac.dma = _ := step_wait noAbort at_.phase at_.valid
  have left : BitVec.ofNat 32 (4 * (n + 1)) - 4 = BitVec.ofNat 32 (4 * n) := by
    rw [Nat.mul_succ, BitVec.ofNat_add]
    exact BitVec.add_sub_cancel _ _
  refine ⟨⟨?_, ?_, ?_, ?_, ?_⟩, fun ch' => ?_, step_mem_read s i fun _ => at_.read⟩
  case refine_2 => rw [engine]; exact (congrArg (· - 4) at_.left).trans left
  case refine_6 =>
    have beat : ch'.beat (MacDmaTb.step s i).mac.dma = _ := beat_step noAbort ch'
    rw [beat]
    simp [at_.phase, macInputs, MacDma.dmaInputs, at_.valid, at_.data, eq_comm]
  all_goals cases ch <;> simp [engine, Channel.deliver, defaults, at_.currAddr, Unfinished,
    at_.unfinished.1, at_.unfinished.2]

end Word

/-! ## One channel -/

section Runs

variable (s₀ : State rows cols dataW) (ins : ℕ → MacDma.Inputs)

/-- The words a channel streams in the cycles `a ≤ t < a + n`. -/
def beats (ch : Channel) (a n : ℕ) : List (BitVec 32) :=
  Clocked.window (fun u => ch.beat (after s₀ ins u).mac.dma) a n

theorem beats_add (ch : Channel) (a m n : ℕ) :
    beats s₀ ins ch a (m + n) = beats s₀ ins ch a m ++ beats s₀ ins ch (a + m) n :=
  Clocked.window_add _ a m n

variable {s₀ ins}

/-- One word of a channel. -/
theorem Filling.fetch {ch : Channel} {n t : ℕ} {addr : BitVec 32}
    (at_ : Filling ch (n + 1) addr (after s₀ ins t)) (noAbort : ∀ u, (ins u).abortI = false)
    (small : n < 2 ^ 29) :
    Filling ch n (addr + 4) (after s₀ ins (t + 3)) ∧
      (after s₀ ins (t + 3)).mem = (after s₀ ins t).mem ∧
      ∀ ch', beats s₀ ins ch' (t + 1) 3 =
        if ch' = ch then [(after s₀ ins t).mem (wordIndex addr)] else [] := by
  obtain ⟨requested, silent₁, mem₁⟩ := at_.step (noAbort t) small
  obtain ⟨answered, silent₂, mem₂⟩ := requested.step (noAbort (t + 1)) small
  obtain ⟨filling, delivered, mem₃⟩ := answered.step (noAbort (t + 2))
  refine ⟨filling, mem₃.trans (mem₂.trans mem₁), fun ch' => ?_⟩
  have one : ch'.beat (after s₀ ins (t + 1)).mac.dma = none := silent₁ ch'
  have two : ch'.beat (after s₀ ins (t + 2)).mac.dma = none := silent₂ ch'
  have three : ch'.beat (after s₀ ins (t + 3)).mac.dma =
      if ch' = ch then some ((after s₀ ins t).mem (wordIndex addr)) else none :=
    (delivered ch').trans (by rw [mem₁])
  have parts : beats s₀ ins ch' (t + 1) 3 = (ch'.beat (after s₀ ins (t + 1)).mac.dma).toList ++
      (ch'.beat (after s₀ ins (t + 2)).mac.dma).toList ++
      (ch'.beat (after s₀ ins (t + 3)).mac.dma).toList := rfl
  rw [parts, one, two, three]
  split <;> rfl

/-- **One channel**: its words in order, three cycles each, and nothing on the other. -/
theorem Filling.run {ch : Channel} {n t : ℕ} {addr : BitVec 32}
    (at_ : Filling ch n addr (after s₀ ins t)) (noAbort : ∀ u, (ins u).abortI = false)
    (small : n < 2 ^ 29) :
    ∀ j, j ≤ n → Filling ch (n - j) (wordAddr addr j) (after s₀ ins (t + 3 * j)) ∧
      (after s₀ ins (t + 3 * j)).mem = (after s₀ ins t).mem ∧
      ∀ ch', beats s₀ ins ch' (t + 1) (3 * j) =
        if ch' = ch then wordsAt (after s₀ ins t).mem addr j else [] := by
  intro j
  induction j with
  | zero =>
      intro _
      rw [wordAddr_zero]
      exact ⟨at_, rfl, fun ch' => by split <;> rfl⟩
  | succ j ih =>
      intro upto
      obtain ⟨filling, same, words⟩ := ih (by omega)
      rw [show n - j = n - (j + 1) + 1 by omega] at filling
      obtain ⟨next, still, word⟩ := filling.fetch noAbort (by omega)
      rw [← wordAddr_succ] at next
      refine ⟨next, still.trans same, fun ch' => ?_⟩
      rw [Nat.mul_succ, beats_add, words, show t + 1 + 3 * j = t + 3 * j + 1 by omega, word, same]
      split
      · rw [wordsAt, wordsAt, List.range_succ, List.map_append]
        rfl
      · rfl

/-! ## Both channels -/

/-- The engine and the streams at rest. -/
structure Resting (s : State rows cols dataW) : Prop where
  phase : s.mac.dma.state = .idle
  noRequest : s.mac.dma.mReqO = false
  unfinished : Unfinished s
  silent : Silent s

theorem resting_reset (s₀ : State rows cols dataW) : Resting (reset s₀) where
  phase := rfl
  noRequest := rfl
  unfinished := ⟨rfl, rfl⟩
  silent ch := by cases ch <;> rfl

theorem Resting.step {s : State rows cols dataW} {i : MacDma.Inputs} (at_ : Resting s)
    (noAbort : i.abortI = false) (noStart : i.startI = false) :
    Resting (step s i) ∧ (step s i).mem = s.mem := by
  have engine : (MacDmaTb.step s i).mac.dma = _ := step_idle noAbort at_.phase noStart
  refine ⟨⟨?_, ?_, ?_, silent_step noAbort (by simp [at_.phase])⟩,
    step_mem_read s i (by simp [at_.noRequest])⟩
  all_goals simp [engine, defaults, Unfinished, at_.phase, at_.unfinished.1, at_.unfinished.2]

/-- The inputs are in, and the engine waits for the core's results. -/
structure Waiting (s : State rows cols dataW) : Prop where
  phase : s.mac.dma.state = .runArray
  noRequest : s.mac.dma.mReqO = false
  notReady : s.mac.dma.sAxisResTready = false
  notDone : s.mac.dma.resDoneO = false

section Turns

variable {n : ℕ} {addr : BitVec 32} {s : State rows cols dataW} {i : MacDma.Inputs}

/-- The start opens the weight channel. -/
theorem Resting.start (at_ : Resting s) (noAbort : i.abortI = false) (start : i.startI = true)
    (bytes : i.dmaLenWgtI = BitVec.ofNat 32 (4 * n)) :
    Filling .wgt n i.wgtBaseI (MacDmaTb.step s i) ∧ Silent (MacDmaTb.step s i) ∧
      (MacDmaTb.step s i).mem = s.mem := by
  have engine : (MacDmaTb.step s i).mac.dma = _ := step_start noAbort at_.phase start
  refine ⟨⟨?_, ?_, ?_, ?_, ?_⟩, silent_step noAbort (by simp [at_.phase]),
    step_mem_read s i (by simp [at_.noRequest])⟩
  all_goals simp [engine, defaults, Unfinished, Channel.fill, MacDma.dmaInputs, macInputs, bytes]

/-- With the weights in, the activation channel opens. -/
theorem Filling.wgtDone (at_ : Filling .wgt 0 addr s) (noAbort : i.abortI = false)
    (bytes : i.dmaLenActI = BitVec.ofNat 32 (4 * n)) :
    Filling .act n i.actBaseI (MacDmaTb.step s i) ∧ Silent (MacDmaTb.step s i) ∧
      (MacDmaTb.step s i).mem = s.mem := by
  have engine : (MacDmaTb.step s i).mac.dma = _ := step_wgtDone noAbort at_.phase at_.left
  refine ⟨⟨?_, ?_, ?_, ?_, ?_⟩, silent_step noAbort (by simp [at_.phase]),
    step_mem_read s i (by simp [at_.noRequest])⟩
  all_goals simp [engine, defaults, Unfinished, Channel.fill, MacDma.dmaInputs, macInputs, bytes,
    at_.unfinished.1, at_.unfinished.2]

/-- With the activations in, the engine waits. -/
theorem Filling.actDone (at_ : Filling .act 0 addr s) (noAbort : i.abortI = false) :
    Waiting (MacDmaTb.step s i) ∧ Silent (MacDmaTb.step s i) ∧
      (MacDmaTb.step s i).mem = s.mem := by
  have engine : (MacDmaTb.step s i).mac.dma = _ := step_actDone noAbort at_.phase at_.left
  refine ⟨⟨?_, ?_, ?_, ?_⟩, silent_step noAbort (by simp [at_.phase]),
    step_mem_read s i (by simp [at_.noRequest])⟩
  all_goals simp [engine, defaults, at_.unfinished.2]

/-- The engine waits until a result is offered. -/
theorem Waiting.step (at_ : Waiting s) (noAbort : i.abortI = false)
    (silent : s.mac.core.mAxisResTvalid = false) :
    Waiting (MacDmaTb.step s i) ∧ (MacDmaTb.step s i).mem = s.mem := by
  have engine : (MacDmaTb.step s i).mac.dma = _ := step_runArray noAbort at_.phase
  rw [if_neg (by simp [MacDma.dmaInputs, silent])] at engine
  refine ⟨⟨?_, ?_, ?_, ?_⟩, step_mem_read s i (by simp [at_.noRequest])⟩
  all_goals simp [engine, defaults, at_.phase, at_.notDone]

end Turns

/-- One job: a start in cycle `b`, a core start in cycle `l` once the inputs are in,
and the configuration held throughout. -/
structure JobRun (s₀ : State rows cols dataW) (ins : ℕ → MacDma.Inputs) (b l : ℕ)
    (wgtBase actBase resBase : BitVec 32) (w a M N : ℕ) : Prop where
  noAbort : ∀ t, (ins t).abortI = false
  start : ∀ t, (ins t).startI = true ↔ t = b
  wgtBase : ∀ t, (ins t).wgtBaseI = wgtBase
  actBase : ∀ t, (ins t).actBaseI = actBase
  resBase : ∀ t, (ins t).resBaseI = resBase
  dmaLenWgt : ∀ t, (ins t).dmaLenWgtI = BitVec.ofNat 32 (4 * w)
  dmaLenAct : ∀ t, (ins t).dmaLenActI = BitVec.ofNat 32 (4 * a)
  regM : ∀ t, (ins t).regMI = BitVec.ofNat 8 M
  regN : ∀ t, (ins t).regNI = BitVec.ofNat 8 N
  launch : ∀ t, (ins t).coreStartI = true ↔ t = l
  inputsDone : (after s₀ ins l).mac.dma.actDoneO = true

namespace JobRun

variable {s₀ : State rows cols dataW} {ins : ℕ → MacDma.Inputs} {b l : ℕ}
variable {wgtBase actBase resBase : BitVec 32} {w a M N : ℕ}

theorem noStart (job : JobRun s₀ ins b l wgtBase actBase resBase w a M N) {t : ℕ} (other : t ≠ b) :
    (ins t).startI = false := by
  simpa using (job.start t).not.mpr other

/-- Before the start everything rests. -/
theorem resting (job : JobRun s₀ ins b l wgtBase actBase resBase w a M N) :
    ∀ t, t ≤ b → Resting (after s₀ ins t) ∧ (after s₀ ins t).mem = s₀.mem := by
  intro t upto
  refine Clocked.invariant_between (P := fun _ s => Resting s ∧ s.mem = s₀.mem) (a := 0) (b := b)
    ⟨resting_reset s₀, rfl⟩ (fun u _ before at_ => ?_) t (Nat.zero_le t) upto
  obtain ⟨next, same⟩ := at_.1.step (job.noAbort u) (job.noStart before.ne)
  exact ⟨next, same.trans at_.2⟩

/-- The input-done flag stays up once the job has started. -/
theorem actDoneO_from (job : JobRun s₀ ins b l wgtBase actBase resBase w a M N) {t : ℕ}
    (late : b < t) (done : (after s₀ ins t).mac.dma.actDoneO = true) :
    ∀ u, t ≤ u → (after s₀ ins u).mac.dma.actDoneO = true :=
  Clocked.invariant_from (P := fun _ (s : State rows cols dataW) => s.mac.dma.actDoneO = true) done
    fun u later up => step_actDoneO (job.noAbort u) (job.noStart (show u ≠ b by omega)) up

/-- So does the result-done flag. -/
theorem resDoneO_from (job : JobRun s₀ ins b l wgtBase actBase resBase w a M N) {t : ℕ}
    (late : b < t) (done : (after s₀ ins t).mac.dma.resDoneO = true) :
    ∀ u, t ≤ u → (after s₀ ins u).mac.dma.resDoneO = true :=
  Clocked.invariant_from (P := fun _ (s : State rows cols dataW) => s.mac.dma.resDoneO = true) done
    fun u later up => step_resDoneO (job.noAbort u) (job.noStart (show u ≠ b by omega)) up

/-- The cycle in which the inputs are in. -/
abbrev filledAt (b w a : ℕ) : ℕ := b + 1 + 3 * w + 1 + 3 * a + 1

/-- **The fill**: every channel gets its words in order, and memory is untouched. -/
theorem filled (job : JobRun s₀ ins b l wgtBase actBase resBase w a M N) (smallW : w < 2 ^ 29)
    (smallA : a < 2 ^ 29) :
    Waiting (after s₀ ins (filledAt b w a)) ∧ Silent (after s₀ ins (filledAt b w a)) ∧
      (after s₀ ins (filledAt b w a)).mem = s₀.mem ∧
      beats s₀ ins .wgt 0 (filledAt b w a) = wordsAt s₀.mem wgtBase w ∧
      beats s₀ ins .act 0 (filledAt b w a) = wordsAt s₀.mem actBase a ∧
      filledAt b w a ≤ l := by
  obtain ⟨resting, mem₀⟩ := job.resting b (le_refl b)
  obtain ⟨wgt, silent₁, mem₁⟩ :=
    resting.start (job.noAbort b) ((job.start b).mpr rfl) (job.dmaLenWgt b)
  have wgtStart : Filling .wgt w wgtBase (after s₀ ins (b + 1)) :=
    job.wgtBase b ▸ wgt
  obtain ⟨wgtEnd, mem₂, words₂⟩ := wgtStart.run job.noAbort smallW w (le_refl w)
  rw [Nat.sub_self] at wgtEnd
  obtain ⟨act, silent₃, mem₃⟩ := wgtEnd.wgtDone (job.noAbort _) (job.dmaLenAct _)
  have actStart : Filling .act a actBase (after s₀ ins (b + 1 + 3 * w + 1)) :=
    job.actBase (b + 1 + 3 * w) ▸ act
  obtain ⟨actEnd, mem₄, words₄⟩ := actStart.run job.noAbort smallA a (le_refl a)
  rw [Nat.sub_self] at actEnd
  obtain ⟨waiting, silent₅, mem₅⟩ := actEnd.actDone (job.noAbort (b + 1 + 3 * w + 1 + 3 * a))
  have memWgt : (after s₀ ins (b + 1)).mem = s₀.mem := mem₁.trans mem₀
  have memAct : (after s₀ ins (b + 1 + 3 * w + 1)).mem = s₀.mem := mem₃.trans (mem₂.trans memWgt)
  have before (ch : Channel) : beats s₀ ins ch 0 (b + 2) = [] :=
    Clocked.window_none fun t _ high => by
      rcases Nat.lt_or_ge b t with late | early
      · obtain rfl : t = b + 1 := by omega
        exact silent₁ ch
      · exact (job.resting t early).1.silent ch
  have between (ch : Channel) : beats s₀ ins ch (b + 2 + 3 * w) 1 = [] :=
    Clocked.window_none fun t low high => by
      obtain rfl : t = b + 1 + 3 * w + 1 := by omega
      exact silent₃ ch
  have whole (ch : Channel) : beats s₀ ins ch 0 (filledAt b w a) =
      beats s₀ ins ch (b + 1 + 1) (3 * w) ++ beats s₀ ins ch (b + 1 + 3 * w + 1 + 1) (3 * a) := by
    rw [show filledAt b w a = b + 2 + 3 * w + 1 + 3 * a by rw [filledAt]; omega, beats_add,
      beats_add, beats_add, before, List.nil_append, Nat.zero_add, Nat.zero_add, between,
      List.append_nil, Nat.zero_add, show b + 1 + 3 * w + 1 + 1 = b + 2 + 3 * w + 1 by omega]
  refine ⟨waiting, silent₅, mem₅.trans (mem₄.trans memAct), ?_, ?_, ?_⟩
  · rw [whole, words₂, words₄, if_pos rfl, if_neg (by decide), List.append_nil, memWgt]
  · rw [whole, words₂, words₄, if_pos rfl, if_neg (by decide), List.nil_append, memAct]
  · by_contra early
    have done := job.inputsDone
    rcases Nat.lt_or_ge b l with late | resting
    · have before : l ≤ b + 1 + 3 * w + 1 + 3 * a := by
        rw [filledAt] at early
        omega
      have up := job.actDoneO_from late done (b + 1 + 3 * w + 1 + 3 * a) before
      rw [actEnd.unfinished.1] at up
      cases up
    · rw [(job.resting l resting).1.unfinished.1] at done
      cases done

end JobRun

end Runs

end MiniMac.Dv.MacDmaTb
