/-
# Accel.ResultDrain -- the core's words on their way to memory

The core holds a word on its port and moves on when the engine's ready comes
back, one cycle after the engine took the word; the last word's `tlast` is up for
that one cycle only.  The engine looks at it in the cycle of the grant, which is
that cycle exactly when memory takes the last request in the first cycle it is
up.  Every other delay is harmless.

The stages below are the states of the pair during a drain; `Stage.step` says how
they follow each other, and every statement about a whole drain is read off it.
-/
import MiniMac.Accel.ClosedForm
import MiniMac.Accel.MacDma
import MiniMac.Theory.WordAddress
import MiniMac.Theory.WriteLog

namespace MiniMac.Accel.MacDma

open MiniMac.Theory

set_option autoImplicit false

variable {rows cols dataW : ℕ}

/-! ## Words and their places -/

/-- The `k`-th word of a result buffer. -/
def resWord (resBuf : Fin cols → BitVec 32) (k : ℕ) : BitVec 32 :=
  if within : k < cols then resBuf ⟨k, within⟩ else 0

/-- The write of the `k`-th word. -/
def resWrite (base : BitVec 32) (resBuf : Fin cols → BitVec 32) (k : ℕ) : BitVec 32 × BitVec 32 :=
  (wordAddr base k, resWord resBuf k)

/-! ## The core's side -/

/-- The core's next word is `k`; after the last one it is idle. -/
structure CoreAt (N : ℕ) (resBuf : Fin cols → BitVec 32) (k : ℕ)
    (s : MacCoreAxi.State rows cols dataW) : Prop where
  phase : s.state = if k < N then .streamOut else .idle
  count : k < N → s.rCnt = BitVec.ofNat 8 k
  words : s.resBuf = resBuf

namespace CoreAt

variable {N k : ℕ} {resBuf : Fin cols → BitVec 32} {s : MacCoreAxi.State rows cols dataW}
variable {i : MacCoreAxi.Inputs}

theorem column_eq (fits : N ≤ cols) (small : N < 256) (within : k < N) (unknown : BitVec 32) :
    MacCoreAxi.column resBuf unknown (BitVec.ofNat 8 k) = resWord resBuf k := by
  have index : (BitVec.ofNat 8 k).toNat = k := by
    rw [BitVec.toNat_ofNat]
    omega
  have inside : k < cols := by omega
  rw [MacCoreAxi.column, resWord]
  simp only [index, inside, dif_pos]

/-- Without ready the word stays and is put on the port. -/
theorem hold (at_ : CoreAt N resBuf k s) (fits : N ≤ cols) (small : N < 256) (within : k < N)
    (stalled : i.mAxisResTready = false) :
    CoreAt N resBuf k (MacCoreAxi.step s i) ∧
      (MacCoreAxi.step s i).mAxisResTlast = false ∧
      (MacCoreAxi.step s i).mAxisResTvalid = true ∧
      (MacCoreAxi.step s i).mAxisResTdata = resWord resBuf k := by
  have phase : s.state = .streamOut := by rw [at_.phase, if_pos within]
  rw [MacCoreAxi.step_streamOut phase]
  refine ⟨⟨?_, fun _ => ?_, at_.words⟩, by simp [stalled], rfl, ?_⟩
  · simp [stalled, within]
  · simp [stalled, at_.count within]
  · simp only [at_.words, at_.count within]
    exact column_eq fits small within _

/-- With ready the core moves on, and marks the last word for one cycle. -/
theorem move (at_ : CoreAt N resBuf k s) (small : N < 256) (within : k < N)
    (taken : i.mAxisResTready = true) (dim : i.regNI = BitVec.ofNat 8 N) :
    CoreAt N resBuf (k + 1) (MacCoreAxi.step s i) ∧
      (MacCoreAxi.step s i).mAxisResTlast = decide (k + 1 = N) := by
  have phase : s.state = .streamOut := by rw [at_.phase, if_pos within]
  have last : MacCoreAxi.isLast s.rCnt i.regNI = decide (k + 1 = N) := by
    rw [at_.count within, dim, MacCoreAxi.isLast_ofNat (by omega) (by omega) small]
  rw [MacCoreAxi.step_streamOut phase, last]
  refine ⟨⟨?_, fun _ => ?_, at_.words⟩, by simp [taken]⟩
  · by_cases final : k + 1 = N
    · simp [taken, final]
    · simp [taken, final, show k + 1 < N by omega]
  · simp [taken, at_.count within, BitVec.ofNat_add]

/-- After the last word the core is silent until it is started again. -/
theorem rest (at_ : CoreAt N resBuf N s) (noStart : i.coreStartI = false) :
    CoreAt N resBuf N (MacCoreAxi.step s i) ∧
      (MacCoreAxi.step s i).mAxisResTlast = false ∧
      (MacCoreAxi.step s i).mAxisResTvalid = false := by
  have phase : s.state = .idle := by rw [at_.phase, if_neg (Nat.lt_irrefl N)]
  rw [MacCoreAxi.step_idle phase]
  refine ⟨⟨?_, fun within => absurd within (Nat.lt_irrefl N), at_.words⟩, rfl, rfl⟩
  simp [noStart]

end CoreAt

/-! ## Stages -/

/-- No start or abort arrives, and the dimension and the base are held. -/
structure Quiet (N : ℕ) (base : BitVec 32) (i : Inputs) : Prop where
  noStart : i.startI = false
  noAbort : i.abortI = false
  noCoreStart : i.coreStartI = false
  dim : i.regNI = BitVec.ofNat 8 N
  place : i.resBaseI = base

section Stages

variable (N : ℕ) (base : BitVec 32) (resBuf : Fin cols → BitVec 32)

/-- A request that is still up after its grant repeats the `k`-th word's write. -/
def Repeats (k : ℕ) (s : State rows cols dataW) : Prop :=
  s.dma.mReqO = true → 0 < k ∧ s.dma.mWeO = true ∧
    (s.dma.mAddrO, s.dma.mWdataO) = resWrite base resBuf (k - 1)

/-- The core enters its result stream while the engine waits for it. -/
structure Awaiting (s : State rows cols dataW) : Prop where
  core : CoreAt N resBuf 0 s.core
  silent : s.core.mAxisResTvalid = false
  phase : s.dma.state = .runArray
  notReady : s.dma.sAxisResTready = false
  noRequest : s.dma.mReqO = false

/-- The first word is on the port. -/
structure Offered (s : State rows cols dataW) : Prop where
  core : CoreAt N resBuf 0 s.core
  valid : s.core.mAxisResTvalid = true
  phase : s.dma.state = .runArray
  notReady : s.dma.sAxisResTready = false
  noRequest : s.dma.mReqO = false

/-- The engine is about to take the `k`-th word. -/
structure Opened (k : ℕ) (s : State rows cols dataW) : Prop where
  within : k < N
  core : CoreAt N resBuf k s.core
  valid : s.core.mAxisResTvalid = true
  data : s.core.mAxisResTdata = resWord resBuf k
  phase : s.dma.state = .drainRes
  notReady : s.dma.sAxisResTready = false
  addr : s.dma.currAddr = wordAddr base k
  repeats : Repeats base resBuf k s

/-- It has the `k`-th word, and its ready is up. -/
structure Fresh (k : ℕ) (s : State rows cols dataW) : Prop where
  within : k < N
  core : CoreAt N resBuf k s.core
  phase : s.dma.state = .resWrite
  ready : s.dma.sAxisResTready = true
  noRequest : s.dma.mReqO = false
  addr : s.dma.currAddr = wordAddr base k
  word : s.dma.wdataBuf = resWord resBuf k

/-- The request for the `k`-th word is up, for the first time or again. -/
structure Asking (k : ℕ) (first : Bool) (s : State rows cols dataW) : Prop where
  within : k < N
  core : CoreAt N resBuf (k + 1) s.core
  last : s.core.mAxisResTlast = (first && decide (k + 1 = N))
  phase : s.dma.state = .resWrite
  notReady : s.dma.sAxisResTready = false
  request : s.dma.mReqO = true
  write : s.dma.mWeO = true ∧ (s.dma.mAddrO, s.dma.mWdataO) = resWrite base resBuf k
  addr : s.dma.currAddr = wordAddr base k
  word : s.dma.wdataBuf = resWord resBuf k

/-- The last word is written and the engine has seen that it was the last. -/
structure Finished (s : State rows cols dataW) : Prop where
  core : CoreAt N resBuf N s.core
  phase : s.dma.state = .idle
  resDone : s.dma.resDoneO = true
  notBusy : s.dma.busyO = false
  repeats : Repeats base resBuf N s

/-- The last word is written but the engine waits for another. -/
structure Stuck (s : State rows cols dataW) : Prop where
  core : CoreAt N resBuf N s.core
  silent : s.core.mAxisResTvalid = false
  phase : s.dma.state = .drainRes
  repeats : Repeats base resBuf N s

end Stages

/-! ## One edge from each stage -/

section Steps

variable {N k : ℕ} {base : BitVec 32} {resBuf : Fin cols → BitVec 32} {first : Bool}
variable {s : State rows cols dataW} {i : Inputs}

theorem Awaiting.step (at_ : Awaiting N resBuf s) (quiet : Quiet N base i) (pos : 0 < N)
    (fits : N ≤ cols) (small : N < 256) : Offered N resBuf (step s i) := by
  obtain ⟨core, _, valid, _⟩ := at_.core.hold (i := coreInputs s i) fits small pos at_.notReady
  have engine : (MacDma.step s i).dma = _ := AxiStreamDma.step_runArray quiet.noAbort at_.phase
  rw [if_neg (by simp [dmaInputs, at_.silent])] at engine
  refine ⟨core, valid, ?_, ?_, ?_⟩
  all_goals simp [engine, AxiStreamDma.defaults, at_.phase]

theorem Offered.step (at_ : Offered N resBuf s) (quiet : Quiet N base i) (pos : 0 < N)
    (fits : N ≤ cols) (small : N < 256) : Opened N base resBuf 0 (step s i) := by
  obtain ⟨core, _, valid, data⟩ := at_.core.hold (i := coreInputs s i) fits small pos at_.notReady
  have engine : (MacDma.step s i).dma = _ := AxiStreamDma.step_runArray quiet.noAbort at_.phase
  rw [if_pos (show (dmaInputs s i).sAxisResTvalid = true from at_.valid)] at engine
  refine ⟨pos, core, valid, data, ?_, ?_, ?_, ?_⟩
  all_goals simp [engine, AxiStreamDma.defaults, dmaInputs, quiet.place, wordAddr, Repeats]

theorem Opened.step (at_ : Opened N base resBuf k s) (quiet : Quiet N base i) (fits : N ≤ cols)
    (small : N < 256) : Fresh N base resBuf k (step s i) := by
  obtain ⟨core, _⟩ := at_.core.hold (i := coreInputs s i) fits small at_.within at_.notReady
  have engine : (MacDma.step s i).dma = _ := AxiStreamDma.step_drainRes quiet.noAbort at_.phase
  refine ⟨at_.within, core, ?_, ?_, ?_, ?_, ?_⟩
  all_goals simp [engine, AxiStreamDma.defaults, dmaInputs, at_.valid, at_.data, at_.addr]

theorem Fresh.step (at_ : Fresh N base resBuf k s) (quiet : Quiet N base i) (small : N < 256) :
    Asking N base resBuf k true (step s i) := by
  obtain ⟨core, last⟩ := at_.core.move (i := coreInputs s i) small at_.within at_.ready quiet.dim
  have engine : (MacDma.step s i).dma = _ := AxiStreamDma.step_resWrite quiet.noAbort at_.phase
  have noGrant : granted s i = false := by rw [granted, at_.noRequest, Bool.false_and]
  refine ⟨at_.within, core, last, ?_, ?_, ?_, ?_, ?_, ?_⟩
  all_goals simp [engine, AxiStreamDma.defaults, dmaInputs, noGrant, at_.addr, at_.word,
    resWrite]

/-- Past the `k`-th word the core streams the next one or is silent. -/
theorem Asking.core_step (at_ : Asking N base resBuf k first s) (quiet : Quiet N base i)
    (fits : N ≤ cols) (small : N < 256) :
    CoreAt N resBuf (k + 1) (step s i).core ∧
      (step s i).core.mAxisResTlast = false ∧
      (step s i).core.mAxisResTvalid = decide (k + 1 < N) ∧
      (k + 1 < N → (step s i).core.mAxisResTdata = resWord resBuf (k + 1)) := by
  have within := at_.within
  by_cases more : k + 1 < N
  · obtain ⟨core, unmarked, valid, data⟩ :=
      at_.core.hold (i := coreInputs s i) fits small more at_.notReady
    exact ⟨core, unmarked, valid.trans (decide_eq_true more).symm, fun _ => data⟩
  · obtain rfl : N = k + 1 := by omega
    obtain ⟨core, unmarked, silent⟩ := at_.core.rest (i := coreInputs s i) quiet.noCoreStart
    exact ⟨core, unmarked, silent.trans (decide_eq_false more).symm, fun more' => absurd more' more⟩

/-- While memory stalls the request stays up and the marker goes down. -/
theorem Asking.stall (at_ : Asking N base resBuf k first s) (quiet : Quiet N base i)
    (fits : N ≤ cols) (small : N < 256) (stalled : i.memGnt = false) :
    Asking N base resBuf k false (step s i) := by
  obtain ⟨core, unmarked, _⟩ := at_.core_step quiet fits small
  have engine : (MacDma.step s i).dma = _ := AxiStreamDma.step_resWrite quiet.noAbort at_.phase
  have noGrant : granted s i = false := by rw [granted, stalled, Bool.and_false]
  refine ⟨at_.within, core, unmarked, ?_, ?_, ?_, ?_, ?_, ?_⟩
  all_goals simp [engine, AxiStreamDma.defaults, dmaInputs, noGrant, at_.addr, at_.word, resWrite]

/-- A granted word that is not the last is followed by the next. -/
theorem Asking.next (at_ : Asking N base resBuf k first s) (quiet : Quiet N base i)
    (fits : N ≤ cols) (small : N < 256) (taken : i.memGnt = true) (more : k + 1 < N) :
    Opened N base resBuf (k + 1) (step s i) := by
  obtain ⟨core, _, valid, data⟩ := at_.core_step quiet fits small
  have engine : (MacDma.step s i).dma = _ := AxiStreamDma.step_resWrite quiet.noAbort at_.phase
  have grant : granted s i = true := by rw [granted, at_.request, taken, Bool.and_self]
  have unmarked : s.core.mAxisResTlast = false := by
    rw [at_.last, decide_eq_false (by omega), Bool.and_false]
  refine ⟨more, core, valid.trans (decide_eq_true more), data more, ?_, ?_, ?_,
    fun _ => ⟨?_, ?_, ?_⟩⟩
  all_goals simp [engine, AxiStreamDma.defaults, dmaInputs, grant, unmarked, at_.addr, at_.word,
    wordAddr_succ, resWrite]

/-- The last word granted in its first cycle ends the drain. -/
theorem Asking.finish (at_ : Asking N base resBuf k true s) (quiet : Quiet N base i)
    (fits : N ≤ cols) (small : N < 256) (taken : i.memGnt = true) (last : k + 1 = N) :
    Finished N base resBuf (step s i) := by
  obtain ⟨core, _, _⟩ := at_.core_step quiet fits small
  have engine : (MacDma.step s i).dma = _ := AxiStreamDma.step_resWrite quiet.noAbort at_.phase
  have grant : granted s i = true := by rw [granted, at_.request, taken, Bool.and_self]
  have marked : s.core.mAxisResTlast = true := by
    rw [at_.last, decide_eq_true last, Bool.and_self]
  rw [last] at core
  refine ⟨core, ?_, ?_, ?_, fun _ => ⟨by omega, ?_, ?_⟩⟩
  all_goals simp [engine, AxiStreamDma.defaults, dmaInputs, grant, marked, at_.addr, at_.word,
    resWrite, show N - 1 = k by omega]

/-- The last word granted in a later cycle leaves the engine waiting for more. -/
theorem Asking.miss (at_ : Asking N base resBuf k false s) (quiet : Quiet N base i)
    (fits : N ≤ cols) (small : N < 256) (taken : i.memGnt = true) (last : k + 1 = N) :
    Stuck N base resBuf (step s i) := by
  obtain ⟨core, _, valid, _⟩ := at_.core_step quiet fits small
  have engine : (MacDma.step s i).dma = _ := AxiStreamDma.step_resWrite quiet.noAbort at_.phase
  have grant : granted s i = true := by rw [granted, at_.request, taken, Bool.and_self]
  have unmarked : s.core.mAxisResTlast = false := by rw [at_.last, Bool.false_and]
  rw [last] at core
  refine ⟨core, valid.trans (decide_eq_false (by omega)), ?_, fun _ => ⟨by omega, ?_, ?_⟩⟩
  all_goals simp [engine, AxiStreamDma.defaults, dmaInputs, grant, unmarked, at_.addr, at_.word,
    resWrite, show N - 1 = k by omega]

theorem Finished.step (at_ : Finished N base resBuf s) (quiet : Quiet N base i) :
    Finished N base resBuf (step s i) := by
  obtain ⟨core, _, _⟩ := at_.core.rest (i := coreInputs s i) quiet.noCoreStart
  have engine : (MacDma.step s i).dma = _ :=
    AxiStreamDma.step_idle quiet.noAbort at_.phase quiet.noStart
  refine ⟨core, ?_, ?_, ?_, fun up => absurd up ?_⟩
  all_goals simp [engine, AxiStreamDma.defaults, at_.phase, at_.resDone, at_.notBusy]

theorem Stuck.step (at_ : Stuck N base resBuf s) (quiet : Quiet N base i) :
    Stuck N base resBuf (step s i) := by
  obtain ⟨core, _, silent⟩ := at_.core.rest (i := coreInputs s i) quiet.noCoreStart
  have engine : (MacDma.step s i).dma = _ := AxiStreamDma.step_drainRes quiet.noAbort at_.phase
  refine ⟨core, silent, ?_, fun up => absurd up ?_⟩
  all_goals simp [engine, AxiStreamDma.defaults, dmaInputs, at_.silent]

end Steps

/-! ## Writes -/

/-- A write the memory takes. -/
def memWrite (s : State rows cols dataW) (i : Inputs) : Option (BitVec 32 × BitVec 32) :=
  if granted s i && s.dma.mWeO then some (s.dma.mAddrO, s.dma.mWdataO) else none

/-- A write whose grant the engine acts on. -/
def wordWrite (s : State rows cols dataW) (i : Inputs) : Option (BitVec 32 × BitVec 32) :=
  if s.dma.state = .resWrite ∧ granted s i = true then some (s.dma.mAddrO, s.dma.mWdataO) else none

/-- The pair is in a drain of which `k` words are written. -/
inductive Stage (N : ℕ) (base : BitVec 32) (resBuf : Fin cols → BitVec 32) :
    ℕ → State rows cols dataW → Prop
  | awaiting {s} : Awaiting N resBuf s → Stage N base resBuf 0 s
  | offered {s} : Offered N resBuf s → Stage N base resBuf 0 s
  | opened {k s} : Opened N base resBuf k s → Stage N base resBuf k s
  | fresh {k s} : Fresh N base resBuf k s → Stage N base resBuf k s
  | asking {k first s} : Asking N base resBuf k first s → Stage N base resBuf k s
  | finished {s} : Finished N base resBuf s → Stage N base resBuf N s
  | stuck {s} : Stuck N base resBuf s → Stage N base resBuf N s

namespace Stage

variable {N k : ℕ} {base : BitVec 32} {resBuf : Fin cols → BitVec 32}
variable {s : State rows cols dataW} {i : Inputs}

theorem wordWrite_none (elsewhere : s.dma.state ≠ .resWrite) : wordWrite s i = none :=
  if_neg fun h => elsewhere h.1

theorem wordWrite_asking {first : Bool} (at_ : Asking N base resBuf k first s)
    (taken : i.memGnt = true) : wordWrite s i = some (resWrite base resBuf k) := by
  simp [wordWrite, granted, taken, at_.phase, at_.request, at_.write.2]

/-- The engine is idle only behind the last word. -/
theorem finished_of_idle (stage : Stage N base resBuf k s) (idle : s.dma.state = .idle) :
    Finished N base resBuf s := by
  cases stage with
  | awaiting at_ => cases at_.phase.symm.trans idle
  | offered at_ => cases at_.phase.symm.trans idle
  | opened at_ => cases at_.phase.symm.trans idle
  | fresh at_ => cases at_.phase.symm.trans idle
  | asking at_ => cases at_.phase.symm.trans idle
  | finished at_ => exact at_
  | stuck at_ => cases at_.phase.symm.trans idle

/-- A granted word is followed by the next, by the end, or by waiting for more. -/
theorem asking_taken {first : Bool} (at_ : Asking N base resBuf k first s)
    (quiet : Quiet N base i) (fits : N ≤ cols) (small : N < 256) (taken : i.memGnt = true) :
    Stage N base resBuf (k + 1) (MacDma.step s i) ∧
      (MacDma.step s i).dma.state ≠ .resWrite ∧ Repeats base resBuf (k + 1) (MacDma.step s i) := by
  rcases Nat.lt_or_eq_of_le (Nat.succ_le_of_lt at_.within) with more | last
  · have next := at_.next quiet fits small taken more
    exact ⟨.opened next, by simp [next.phase], next.repeats⟩
  · obtain rfl : N = k + 1 := last.symm
    cases first with
    | true =>
        have next := at_.finish quiet fits small taken rfl
        exact ⟨.finished next, by simp [next.phase], next.repeats⟩
    | false =>
        have next := at_.miss quiet fits small taken rfl
        exact ⟨.stuck next, by simp [next.phase], next.repeats⟩

/-- **One edge of a drain**: the next word is written or none is. -/
theorem step (stage : Stage N base resBuf k s) (quiet : Quiet N base i) (pos : 0 < N)
    (fits : N ≤ cols) (small : N < 256) :
    (wordWrite s i = none ∧ Stage N base resBuf k (MacDma.step s i)) ∨
      (k < N ∧ wordWrite s i = some (resWrite base resBuf k) ∧
        Stage N base resBuf (k + 1) (MacDma.step s i)) := by
  cases stage with
  | awaiting at_ =>
      exact .inl ⟨wordWrite_none (by simp [at_.phase]), .offered (at_.step quiet pos fits small)⟩
  | offered at_ =>
      exact .inl ⟨wordWrite_none (by simp [at_.phase]), .opened (at_.step quiet pos fits small)⟩
  | opened at_ =>
      exact .inl ⟨wordWrite_none (by simp [at_.phase]), .fresh (at_.step quiet fits small)⟩
  | fresh at_ =>
      exact .inl ⟨by simp [wordWrite, granted, at_.noRequest], .asking (at_.step quiet small)⟩
  | asking at_ =>
      cases taken : i.memGnt with
      | false =>
          left
          refine ⟨by simp [wordWrite, granted, taken], ?_⟩
          exact .asking (at_.stall quiet fits small taken)
      | true =>
          exact .inr ⟨at_.within, wordWrite_asking at_ taken,
            (asking_taken at_ quiet fits small taken).1⟩
  | finished at_ =>
      exact .inl ⟨wordWrite_none (by simp [at_.phase]), .finished (at_.step quiet)⟩
  | stuck at_ =>
      exact .inl ⟨wordWrite_none (by simp [at_.phase]), .stuck (at_.step quiet)⟩

/-- A request for a word is up for the first time exactly when none was up before. -/
theorem asking_step (stage : Stage N base resBuf k s) (quiet : Quiet N base i) (pos : 0 < N)
    (fits : N ≤ cols) (small : N < 256) (phase : (MacDma.step s i).dma.state = .resWrite)
    (request : (MacDma.step s i).dma.mReqO = true) :
    wordWrite s i = none ∧ (s.dma.mReqO = true → i.memGnt = false) ∧
      Asking N base resBuf k (!s.dma.mReqO) (MacDma.step s i) := by
  cases stage with
  | awaiting at_ => rw [(at_.step quiet pos fits small).phase] at phase; cases phase
  | offered at_ => rw [(at_.step quiet pos fits small).phase] at phase; cases phase
  | opened at_ => rw [(at_.step quiet fits small).noRequest] at request; cases request
  | fresh at_ =>
      rw [at_.noRequest]
      exact ⟨by simp [wordWrite, granted, at_.noRequest], nofun, at_.step quiet small⟩
  | asking at_ =>
      cases taken : i.memGnt with
      | false =>
          rw [at_.request]
          refine ⟨by simp [wordWrite, granted, taken], ?_, at_.stall quiet fits small taken⟩
          intro _
          rfl
      | true => exact absurd phase (asking_taken at_ quiet fits small taken).2.1
  | finished at_ => rw [(at_.step quiet).phase] at phase; cases phase
  | stuck at_ => rw [(at_.step quiet).phase] at phase; cases phase

/-- A request that the engine is done with repeats the write of the cycle before. -/
theorem repeat_step (stage : Stage N base resBuf k s) (quiet : Quiet N base i) (pos : 0 < N)
    (fits : N ≤ cols) (small : N < 256) (phase : (MacDma.step s i).dma.state ≠ .resWrite)
    (request : (MacDma.step s i).dma.mReqO = true) :
    wordWrite s i = some ((MacDma.step s i).dma.mAddrO, (MacDma.step s i).dma.mWdataO) := by
  cases stage with
  | awaiting at_ => rw [(at_.step quiet pos fits small).noRequest] at request; cases request
  | offered at_ =>
      exact absurd ((at_.step quiet pos fits small).repeats request).1 (Nat.lt_irrefl 0)
  | opened at_ => rw [(at_.step quiet fits small).noRequest] at request; cases request
  | fresh at_ => exact absurd (at_.step quiet small).phase phase
  | asking at_ =>
      cases taken : i.memGnt with
      | false => exact absurd (at_.stall quiet fits small taken).phase phase
      | true =>
          obtain ⟨_, _, same⟩ := (asking_taken at_ quiet fits small taken).2.2 request
          rw [wordWrite_asking at_ taken, same, Nat.add_sub_cancel]
  | finished at_ =>
      have engine : (MacDma.step s i).dma = _ :=
        AxiStreamDma.step_idle quiet.noAbort at_.phase quiet.noStart
      simp [engine, AxiStreamDma.defaults] at request
  | stuck at_ =>
      have engine : (MacDma.step s i).dma = _ := AxiStreamDma.step_drainRes quiet.noAbort at_.phase
      simp [engine, AxiStreamDma.defaults] at request

/-- A word's write is a write. -/
theorem memWrite_of_wordWrite (stage : Stage N base resBuf k s) {w : BitVec 32 × BitVec 32}
    (written : wordWrite s i = some w) : memWrite s i = some w := by
  obtain ⟨⟨phase, grant⟩, same⟩ := Option.ite_none_right_eq_some.mp written
  cases stage with
  | awaiting at_ => rw [at_.phase] at phase; cases phase
  | offered at_ => rw [at_.phase] at phase; cases phase
  | opened at_ => rw [at_.phase] at phase; cases phase
  | fresh at_ => simp [granted, at_.noRequest] at grant
  | asking at_ => rw [memWrite, grant, at_.write.1]; exact same
  | finished at_ => rw [at_.phase] at phase; cases phase
  | stuck at_ => rw [at_.phase] at phase; cases phase

/-- The result-done flag comes up with the end of the drain only. -/
theorem notDone_step (stage : Stage N base resBuf k s) (quiet : Quiet N base i) (fits : N ≤ cols)
    (small : N < 256) (notDone : s.dma.resDoneO = false) :
    (MacDma.step s i).dma.resDoneO = false ∨ Finished N base resBuf (MacDma.step s i) := by
  cases stage with
  | awaiting at_ =>
      have engine : (MacDma.step s i).dma = _ := AxiStreamDma.step_runArray quiet.noAbort at_.phase
      rw [if_neg (by simp [dmaInputs, at_.silent])] at engine
      exact .inl (by simp [engine, AxiStreamDma.defaults, notDone])
  | offered at_ =>
      have engine : (MacDma.step s i).dma = _ := AxiStreamDma.step_runArray quiet.noAbort at_.phase
      rw [if_pos (show (dmaInputs s i).sAxisResTvalid = true from at_.valid)] at engine
      exact .inl (by simp [engine, AxiStreamDma.defaults, notDone])
  | opened at_ =>
      have engine : (MacDma.step s i).dma = _ := AxiStreamDma.step_drainRes quiet.noAbort at_.phase
      exact .inl (by simp [engine, AxiStreamDma.defaults, notDone])
  | fresh at_ =>
      have engine : (MacDma.step s i).dma = _ := AxiStreamDma.step_resWrite quiet.noAbort at_.phase
      left
      simp [engine, dmaInputs, granted, at_.noRequest, AxiStreamDma.defaults, notDone]
  | asking at_ =>
      rename_i first
      have engine : (MacDma.step s i).dma = _ := AxiStreamDma.step_resWrite quiet.noAbort at_.phase
      cases ends : granted s i && s.core.mAxisResTlast with
      | false =>
          exact .inl (by simp [engine, dmaInputs, ends, AxiStreamDma.defaults, notDone])
      | true =>
          rw [Bool.and_eq_true, granted, Bool.and_eq_true, at_.last, Bool.and_eq_true] at ends
          obtain ⟨⟨_, taken⟩, rfl, final⟩ := ends
          exact .inr (at_.finish quiet fits small taken (of_decide_eq_true final))
  | finished at_ => exact .inr (at_.step quiet)
  | stuck at_ =>
      have engine : (MacDma.step s i).dma = _ := AxiStreamDma.step_drainRes quiet.noAbort at_.phase
      exact .inl (by simp [engine, AxiStreamDma.defaults, notDone])

end Stage

/-! ## Whole drains -/

/-- The writes whose grants the engine acts on in the cycles before `t`, in order. -/
def wordWrites (s : State rows cols dataW) (ins : ℕ → Inputs) (t : ℕ) :
    List (BitVec 32 × BitVec 32) :=
  Clocked.window (fun u => wordWrite (after s ins u) (ins u)) 0 t

theorem wordWrites_succ (s : State rows cols dataW) (ins : ℕ → Inputs) (t : ℕ) :
    wordWrites s ins (t + 1) =
      wordWrites s ins t ++ (wordWrite (after s ins t) (ins t)).toList := by
  rw [wordWrites, Clocked.window_succ, Nat.zero_add]
  rfl

/-- By the cycle `T` of its last word's grant a drain has written the words in
order and nothing else, and that grant ends it for good. -/
structure DrainComplete (s : State rows cols dataW) (ins : ℕ → Inputs) (N : ℕ) (base : BitVec 32)
    (T : ℕ) : Prop where
  words : wordWrites s ins (T + 1) = (List.range N).map (resWrite base s.core.resBuf)
  only : ∀ t, t ≤ T → ∀ w, memWrite (after s ins t) (ins t) = some w →
    wordWrite (after s ins t) (ins t) = some w ∨
      ∃ u, u + 1 = t ∧ wordWrite (after s ins u) (ins u) = some w
  resDone : (after s ins (T + 1)).dma.resDoneO = true
  notBusy : (after s ins (T + 1)).dma.busyO = false
  idle : (after s ins (T + 1)).dma.state = .idle
  noReturn : ∀ t, T < t → (after s ins t).dma.state ≠ .drainRes

/-- A drain from the first cycle of the core's result stream. -/
structure Drain (s : State rows cols dataW) (ins : ℕ → Inputs) (N : ℕ) (base : BitVec 32) :
    Prop where
  pos : 0 < N
  fits : N ≤ cols
  small : N < 256
  start : Awaiting N s.core.resBuf s
  quiet : ∀ t, Quiet N base (ins t)

namespace Drain

variable {s : State rows cols dataW} {ins : ℕ → Inputs} {N : ℕ} {base : BitVec 32}

/-- **The run of a drain**: in every cycle the pair is in a stage, and the words
written are the first ones, in order. -/
theorem stage (drain : Drain s ins N base) (t : ℕ) : ∃ k, k ≤ N ∧
    Stage N base s.core.resBuf k (after s ins t) ∧
    wordWrites s ins t = (List.range k).map (resWrite base s.core.resBuf) := by
  induction t with
  | zero => exact ⟨0, Nat.zero_le N, .awaiting drain.start, rfl⟩
  | succ t ih =>
      obtain ⟨k, upto, stage, words⟩ := ih
      rw [after_succ, wordWrites_succ, words]
      rcases stage.step (drain.quiet t) drain.pos drain.fits drain.small with
        ⟨silent, next⟩ | ⟨more, written, next⟩
      · exact ⟨k, upto, next, by rw [silent]; exact List.append_nil _⟩
      · refine ⟨k + 1, more, next, ?_⟩
        rw [written, List.range_succ, List.map_append]
        rfl

/-- A write is a word's write or repeats the one before. -/
theorem only (drain : Drain s ins N base) (t : ℕ) (w : BitVec 32 × BitVec 32)
    (write : memWrite (after s ins t) (ins t) = some w) :
    wordWrite (after s ins t) (ins t) = some w ∨
      ∃ u, u + 1 = t ∧ wordWrite (after s ins u) (ins u) = some w := by
  obtain ⟨up, same⟩ := Option.ite_none_right_eq_some.mp write
  have grant : granted (after s ins t) (ins t) = true := (Bool.and_eq_true_iff.mp up).1
  have request : (after s ins t).dma.mReqO = true := (Bool.and_eq_true_iff.mp grant).1
  rw [← same]
  by_cases phase : (after s ins t).dma.state = .resWrite
  · exact .inl (if_pos ⟨phase, grant⟩)
  · right
    cases t with
    | zero => exact absurd request (by simp [after, drain.start.noRequest])
    | succ u =>
        obtain ⟨k, _, stage, _⟩ := drain.stage u
        refine ⟨u, rfl, ?_⟩
        exact stage.repeat_step (drain.quiet u) drain.pos drain.fits drain.small phase request

/-- In the cycle of the last word's grant its request is up, for the first time if
no request was up in the cycle before. -/
theorem last_word (drain : Drain s ins N base) {T : ℕ}
    (before : (wordWrites s ins T).length = N - 1)
    (last : (wordWrite (after s ins T) (ins T)).isSome = true) :
    ∃ k, k + 1 = N ∧ (ins T).memGnt = true ∧
      ((after s ins (T - 1)).dma.mReqO = true → (ins (T - 1)).memGnt = false) ∧
      Asking N base s.core.resBuf k (!(after s ins (T - 1)).dma.mReqO) (after s ins T) := by
  have pos := drain.pos
  obtain ⟨w, written⟩ := Option.isSome_iff_exists.mp last
  obtain ⟨⟨phase, grant⟩, _⟩ := Option.ite_none_right_eq_some.mp written
  rw [granted, Bool.and_eq_true] at grant
  cases T with
  | zero => exact absurd grant.1 (by simp [after, drain.start.noRequest])
  | succ u =>
      obtain ⟨k, _, stage, words⟩ := drain.stage u
      obtain ⟨silent, stalled, asking⟩ :=
        stage.asking_step (drain.quiet u) pos drain.fits drain.small phase grant.1
      rw [wordWrites_succ, words, silent] at before
      refine ⟨k, ?_, grant.2, stalled, asking⟩
      simp at before
      omega

/-! ## Progress -/

/-- A word the engine holds is granted once memory takes requests again. -/
theorem granted_after (drain : Drain s ins N base)
    (served : ∀ t, ∃ u, t ≤ u ∧ (ins u).memGnt = true) {k c : ℕ}
    (fresh : Fresh N base s.core.resBuf k (after s ins c))
    (words : (wordWrites s ins c).length = k) :
    ∃ g first, Asking N base s.core.resBuf k first (after s ins g) ∧
      (wordWrites s ins g).length = k ∧ (ins g).memGnt = true := by
  have later : ∃ n, (ins (c + 1 + n)).memGnt = true := by
    obtain ⟨u, late, taken⟩ := served (c + 1)
    exact ⟨u - (c + 1), by rwa [Nat.add_sub_cancel' late]⟩
  have waits : ∀ n, n ≤ Nat.find later → ∃ first,
      Asking N base s.core.resBuf k first (after s ins (c + 1 + n)) ∧
        (wordWrites s ins (c + 1 + n)).length = k := by
    intro n
    induction n with
    | zero =>
        intro _
        have silent : wordWrite (after s ins c) (ins c) = none := by
          simp [wordWrite, granted, fresh.noRequest]
        exact ⟨true, fresh.step (drain.quiet c) drain.small, by
          rw [Nat.add_zero, wordWrites_succ, silent, List.length_append, words]; rfl⟩
    | succ n ih =>
        intro upto
        obtain ⟨first, asking, count⟩ := ih (by omega)
        have stalled : (ins (c + 1 + n)).memGnt = false := by
          simpa using Nat.find_min later (show n < Nat.find later by omega)
        have silent : wordWrite (after s ins (c + 1 + n)) (ins (c + 1 + n)) = none := by
          simp [wordWrite, granted, stalled]
        exact ⟨false, asking.stall (drain.quiet _) drain.fits drain.small stalled, by
          rw [← Nat.add_assoc, wordWrites_succ, silent, List.length_append, count]; rfl⟩
  obtain ⟨first, asking, count⟩ := waits _ (le_refl _)
  exact ⟨_, first, asking, count, Nat.find_spec later⟩

/-- Every word gets to the engine. -/
theorem fresh_reached (drain : Drain s ins N base)
    (served : ∀ t, ∃ u, t ≤ u ∧ (ins u).memGnt = true) (k : ℕ) (within : k < N) :
    ∃ c, Fresh N base s.core.resBuf k (after s ins c) ∧ (wordWrites s ins c).length = k := by
  have quiet := drain.quiet
  have fits := drain.fits
  have small := drain.small
  induction k with
  | zero =>
      have offered := drain.start.step (quiet 0) drain.pos fits small
      have opened := offered.step (quiet 1) drain.pos fits small
      have fresh := opened.step (quiet 2) fits small
      have silent : wordWrites s ins 3 = [] := by
        refine Clocked.window_none fun t _ high => Stage.wordWrite_none ?_
        obtain rfl | rfl | rfl : t = 0 ∨ t = 1 ∨ t = 2 := by omega
        · exact ne_of_eq_of_ne drain.start.phase (by decide)
        · exact ne_of_eq_of_ne offered.phase (by decide)
        · exact ne_of_eq_of_ne opened.phase (by decide)
      exact ⟨3, fresh, by rw [silent]; rfl⟩
  | succ k ih =>
      obtain ⟨c, fresh, words⟩ := ih (by omega)
      obtain ⟨g, first, asking, count, taken⟩ := drain.granted_after served fresh words
      have opened := asking.next (quiet g) fits small taken within
      have silent : wordWrite (after s ins (g + 1)) (ins (g + 1)) = none :=
        Stage.wordWrite_none (by rw [after_succ, opened.phase]; decide)
      refine ⟨g + 2, opened.step (quiet (g + 1)) fits small, ?_⟩
      rw [wordWrites_succ, wordWrites_succ, silent, Stage.wordWrite_asking asking taken]
      simp [count]

/-- **The last word is granted** if memory never refuses forever. -/
theorem reaches_last (drain : Drain s ins N base)
    (served : ∀ t, ∃ u, t ≤ u ∧ (ins u).memGnt = true) :
    ∃ T, (wordWrites s ins T).length = N - 1 ∧
      (wordWrite (after s ins T) (ins T)).isSome = true := by
  have pos := drain.pos
  obtain ⟨c, fresh, words⟩ := drain.fresh_reached served (N - 1) (by omega)
  obtain ⟨g, first, asking, count, taken⟩ := drain.granted_after served fresh words
  exact ⟨g, count, by rw [Stage.wordWrite_asking asking taken]; rfl⟩

/-- Every word's write is the write of one of the result words. -/
theorem word_of_wordWrite (drain : Drain s ins N base) {t : ℕ} {w : BitVec 32 × BitVec 32}
    (written : wordWrite (after s ins t) (ins t) = some w) :
    ∃ j, j < N ∧ w = resWrite base s.core.resBuf j := by
  obtain ⟨k, upto, _, words⟩ := drain.stage (t + 1)
  have member : w ∈ wordWrites s ins (t + 1) := by
    rw [wordWrites_succ, written]
    simp
  rw [words, List.mem_map] at member
  obtain ⟨j, within, rfl⟩ := member
  exact ⟨j, by have := List.mem_range.mp within; omega, rfl⟩

/-- A drain that has ended stays ended. -/
theorem finished_from (drain : Drain s ins N base) {a : ℕ}
    (at_ : Finished N base s.core.resBuf (after s ins a)) :
    ∀ t, a ≤ t → Finished N base s.core.resBuf (after s ins t) :=
  Clocked.invariant_from (P := fun _ st => Finished N base s.core.resBuf st) at_
    fun t _ at_ => at_.step (drain.quiet t)

/-- The result-done flag is down until the last word's grant. -/
theorem notDone (drain : Drain s ins N base) (down : s.dma.resDoneO = false) {T : ℕ}
    (before : (wordWrites s ins T).length = N - 1)
    (last : (wordWrite (after s ins T) (ins T)).isSome = true) :
    ∀ t, t ≤ T → (after s ins t).dma.resDoneO = false := by
  intro t
  induction t with
  | zero =>
      intro _
      exact down
  | succ t ih =>
      intro upto
      obtain ⟨k, _, stage, _⟩ := drain.stage t
      have down := ih (by omega)
      rcases stage.notDone_step (drain.quiet t) drain.fits drain.small down with h | ended
      · exact h
      · obtain ⟨_, _, _, _, asking⟩ := drain.last_word before last
        have idle := (drain.finished_from (a := t + 1) ended T upto).phase
        exact absurd (idle.symm.trans asking.phase) (by decide)

/-- A last word granted at once ends the drain. -/
theorem complete (drain : Drain s ins N base) {T : ℕ}
    (before : (wordWrites s ins T).length = N - 1)
    (last : (wordWrite (after s ins T) (ins T)).isSome = true)
    (prompt : (after s ins (T - 1)).dma.mReqO = false) : DrainComplete s ins N base T := by
  obtain ⟨k, count, taken, _, asking⟩ := drain.last_word before last
  rw [prompt] at asking
  have finished := drain.finished_from (a := T + 1)
    (asking.finish (drain.quiet T) drain.fits drain.small taken count)
  obtain ⟨k', _, _, words⟩ := drain.stage T
  obtain rfl : k' = k := by
    rw [words, List.length_map, List.length_range] at before
    omega
  have at_ := finished (T + 1) (le_refl _)
  refine ⟨?_, fun t _ => drain.only t, at_.resDone, at_.notBusy, at_.phase, fun t late => ?_⟩
  · rw [wordWrites_succ, words, Stage.wordWrite_asking asking taken, ← count, List.range_succ,
      List.map_append]
    rfl
  · simp [(finished t late).phase]

/-- What is asked for is the write of a result word. -/
theorem request (drain : Drain s ins N base) (t : ℕ)
    (up : (after s ins t).dma.mReqO = true) :
    (after s ins t).dma.mWeO = true ∧
      ∃ k, k < N ∧ (after s ins t).dma.mAddrO = wordAddr base k := by
  obtain ⟨k, upto, stage, -⟩ := drain.stage t
  have again (repeats : Repeats base s.core.resBuf k (after s ins t)) :
      (after s ins t).dma.mWeO = true ∧
        ∃ k, k < N ∧ (after s ins t).dma.mAddrO = wordAddr base k := by
    obtain ⟨positive, write, same⟩ := repeats up
    exact ⟨write, k - 1, by omega, congrArg Prod.fst same⟩
  cases stage with
  | awaiting at_ => cases at_.noRequest.symm.trans up
  | offered at_ => cases at_.noRequest.symm.trans up
  | opened at_ => exact again at_.repeats
  | fresh at_ => cases at_.noRequest.symm.trans up
  | asking at_ => exact ⟨at_.write.1, k, at_.within, congrArg Prod.fst at_.write.2⟩
  | finished at_ => exact again at_.repeats
  | stuck at_ => exact again at_.repeats

/-- Up to the last word's grant the engine is at work. -/
theorem working (drain : Drain s ins N base) {T : ℕ}
    (before : (wordWrites s ins T).length = N - 1)
    (last : (wordWrite (after s ins T) (ins T)).isSome = true) (t : ℕ) (upto : t ≤ T) :
    (after s ins t).dma.state ≠ .idle := by
  intro idle
  obtain ⟨k, _, stage, _⟩ := drain.stage t
  have finished := drain.finished_from (stage.finished_of_idle idle) T upto
  obtain ⟨_, _, _, _, asking⟩ := drain.last_word before last
  exact absurd (finished.phase.symm.trans asking.phase) (by decide)

/-- A drain that is complete has ended. -/
theorem finished (drain : Drain s ins N base) {T : ℕ} (complete : DrainComplete s ins N base T) :
    Finished N base s.core.resBuf (after s ins (T + 1)) := by
  obtain ⟨k, _, stage, _⟩ := drain.stage (T + 1)
  exact stage.finished_of_idle complete.idle

/-- Writing a word again changes nothing, so memory is what the words' writes make of it. -/
theorem replay_eq {A : Type} [DecidableEq A] (drain : Drain s ins N base)
    (cell : BitVec 32 → A) (m : A → BitVec 32) (t : ℕ) :
    replay m (Clocked.window (fun u => (memWrite (after s ins u) (ins u)).map fun w =>
        Write.store (cell w.1) w.2) 0 t) =
      replay m ((wordWrites s ins t).map fun w => Write.store (cell w.1) w.2) := by
  induction t with
  | zero => rfl
  | succ t ih =>
      rw [Clocked.window_succ, Nat.zero_add, replay_append, ih, wordWrites_succ, List.map_append,
        replay_append]
      cases written : memWrite (after s ins t) (ins t) with
      | none =>
          have none : wordWrite (after s ins t) (ins t) = none := by
            by_contra some
            obtain ⟨w, acted⟩ := Option.ne_none_iff_exists'.mp some
            obtain ⟨_, _, stage, _⟩ := drain.stage t
            rw [stage.memWrite_of_wordWrite acted] at written
            cases written
          rw [none]
          rfl
      | some w =>
          rcases drain.only t w written with acted | ⟨u, rfl, acted⟩
          · rw [acted]
            rfl
          · -- the word was written in the cycle before, as the last one so far
            have silent : wordWrite (after s ins (u + 1)) (ins (u + 1)) = none ∨
                wordWrite (after s ins (u + 1)) (ins (u + 1)) = some w := by
              cases acted' : wordWrite (after s ins (u + 1)) (ins (u + 1)) with
              | none => exact .inl rfl
              | some w' =>
                  obtain ⟨_, _, stage, _⟩ := drain.stage (u + 1)
                  have same := stage.memWrite_of_wordWrite acted'
                  rw [written] at same
                  exact .inr same.symm
            have again : replay (replay m ((wordWrites s ins (u + 1)).map fun w =>
                Write.store (cell w.1) w.2)) [Write.store (cell w.1) w.2] =
                replay m ((wordWrites s ins (u + 1)).map fun w =>
                  Write.store (cell w.1) w.2) := by
              rw [wordWrites_succ, acted, List.map_append, replay_append]
              simp
            rcases silent with none | some
            · rw [none]
              exact again
            · rw [some]
              rfl

end Drain

/-- **A drain is complete exactly when** memory takes the last word's request in
the first cycle in which it is up. -/
theorem drain_complete_iff (s : State rows cols dataW) (ins : ℕ → Inputs) (N : ℕ)
    (base : BitVec 32) (drain : Drain s ins N base) (T : ℕ)
    (before : (wordWrites s ins T).length = N - 1)
    (last : (wordWrite (after s ins T) (ins T)).isSome = true) :
    DrainComplete s ins N base T ↔ (after s ins (T - 1)).dma.mReqO = false := by
  constructor
  · intro complete
    by_contra waited
    obtain ⟨k, count, taken, _, asking⟩ := drain.last_word before last
    rw [Bool.not_eq_false] at waited
    rw [waited] at asking
    have stuck := asking.miss (drain.quiet T) drain.fits drain.small taken count
    exact absurd (stuck.phase.symm.trans complete.idle) (by decide)
  · intro prompt
    exact drain.complete before last prompt

/-! ## Drains of a small core -/

/-- The engine waiting for results. -/
def waitingEngine : AxiStreamDma.State where
  busyO := true
  wgtDoneO := true
  actDoneO := true
  resDoneO := false
  mReqO := false
  mAddrO := 0
  mWeO := false
  mWdataO := 0
  mAxisWgtTdata := 0
  mAxisWgtTvalid := false
  mAxisActTdata := 0
  mAxisActTvalid := false
  sAxisResTready := false
  state := .runArray
  currAddr := 0
  bytesLeft := 0
  wdataBuf := 0

/-- A core with numbered results that enters its result stream. -/
def numberedCore (cols : ℕ) : MacCoreAxi.State 1 cols 8 :=
  { MacCoreAxi.blank with
    resBuf := fun c => BitVec.ofNat 32 (c + 1)
    state := .streamOut }

def drainInputs (N : ℕ) (memGnt : ℕ → Bool) (t : ℕ) : Inputs where
  startI := false
  abortI := false
  wgtBaseI := 0
  actBaseI := 0
  resBaseI := 0x10002000
  dmaLenWgtI := 0
  dmaLenActI := 0
  coreStartI := false
  regMI := 4
  regNI := BitVec.ofNat 8 N
  unknown := 0
  memGnt := memGnt t
  memRvalid := false
  memRdata := 0

theorem numbered_drain (N : ℕ) (pos : 0 < N) (small : N < 256) (memGnt : ℕ → Bool) :
    Drain ⟨numberedCore N, waitingEngine⟩ (drainInputs N memGnt) N 0x10002000 where
  pos := pos
  fits := le_refl N
  small := small
  start := ⟨⟨(if_pos pos).symm, fun _ => rfl, rfl⟩, rfl, rfl, rfl, rfl⟩
  quiet _ := ⟨rfl, rfl, rfl, rfl, rfl⟩

/-- Two words into a memory that never stalls. -/
theorem drain_complete_unstalled :
    DrainComplete ⟨numberedCore 2, waitingEngine⟩ (drainInputs 2 fun _ => true) 2 0x10002000 7 :=
  (drain_complete_iff _ _ 2 0x10002000 (numbered_drain 2 (by decide) (by decide) _) 7 (by decide)
    (by decide)).mpr (by decide)

/-- One word into a memory that refuses it once: the engine waits for another. -/
theorem drain_incomplete_stalled :
    ¬ ∀ (s : State 1 1 8) (ins : ℕ → Inputs) (N : ℕ) (base : BitVec 32), Drain s ins N base →
      ∀ T, (wordWrites s ins T).length = N - 1 →
        (wordWrite (after s ins T) (ins T)).isSome = true → DrainComplete s ins N base T := by
  intro claim
  have complete := claim _ _ 1 0x10002000
    (numbered_drain 1 (by decide) (by decide) fun t => decide (t ≠ 4)) 5 (by decide) (by decide)
  exact absurd complete.idle (by decide)

end MiniMac.Accel.MacDma
