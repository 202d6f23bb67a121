/-
# Core.ForwardCopy -- the copy engine performs a forward word copy

A transfer is a loop of a read and a write; `Loop` holds what the registers and
the memory are when `k` words are copied, and the three stages add what the phase
needs.  The accesses performed so far are a function of the stage (`Progress`),
so a whole transfer is one induction over its cycles.

Each word is read when the words before it are already written, so the result is
`copyWords` also where the two ranges overlap.
-/
import MiniMac.Core.CopySystem

namespace MiniMac.Core.CopySystem

open MiniMac.Theory

set_option autoImplicit false

/-! ## The copy as assignments -/

/-- A transfer: where it copies from and to, and how many bytes. -/
structure Transfer where
  mem : BitVec 30 → BitVec 32
  src : BitVec 32
  dst : BitVec 32
  length : BitVec 16

namespace Transfer

variable (x : Transfer)

/-- The number of words of a transfer: its bytes, rounded up. -/
def words : ℕ := (x.length.toNat + 3) / 4

/-- The memory after the first `k` assignments. -/
def copied (k : ℕ) : BitVec 30 → BitVec 32 :=
  copyWords x.mem (fun j => wordIndex (wordAddr x.src j)) (fun j => wordIndex (wordAddr x.dst j)) k

/-- The word the `k`-th assignment moves. -/
def word (k : ℕ) : BitVec 32 := x.copied k (wordIndex (wordAddr x.src k))

def read (k : ℕ) : Access := .read (wordAddr x.src k)

def write (k : ℕ) : Access := .write (wordAddr x.dst k) (x.word k)

/-- The accesses of the first `k` assignments: a read and a write for each. -/
def trace (k : ℕ) : List Access := (List.range k).flatMap fun j => [x.read j, x.write j]

theorem copied_succ (k : ℕ) :
    x.copied (k + 1) = Function.update (x.copied k) (wordIndex (wordAddr x.dst k)) (x.word k) := rfl

theorem trace_succ (k : ℕ) : x.trace (k + 1) = x.trace k ++ [x.read k, x.write k] := by
  rw [trace, List.range_succ, List.flatMap_append]
  rfl

theorem more_iff {k : ℕ} (within : 4 * k < x.length.toNat) :
    ¬ BitVec.ofNat 16 (x.length.toNat - 4 * k) ≤ 4 ↔ 4 * (k + 1) < x.length.toNat := by
  have small : x.length.toNat < 2 ^ 16 := x.length.isLt
  rw [BitVec.le_def, BitVec.toNat_ofNat]
  simp
  omega

end Transfer

/-! ## Stages of a transfer -/

/-- `k` words are copied and there is another one. -/
structure Loop (x : Transfer) (k : ℕ) (s : State) : Prop where
  within : 4 * k < x.length.toNat
  notDone : s.dma.doneO = false
  src : s.dma.currSrc = wordAddr x.src k
  dst : s.dma.currDst = wordAddr x.dst k
  left : s.dma.bytesLeft = BitVec.ofNat 16 (x.length.toNat - 4 * k)
  mem : s.mem = x.copied k

structure Fetching (x : Transfer) (k : ℕ) (s : State) : Prop extends Loop x k s where
  phase : s.dma.state = .fetch
  closed : s.pending = []
  request : s.dma.reqO = true → s.dma.weO = false ∧ s.dma.addrO = wordAddr x.src k

structure Waiting (x : Transfer) (k : ℕ) (s : State) : Prop extends Loop x k s where
  phase : s.dma.state = .waitR
  down : s.dma.reqO = false
  opened : s.pending = [x.word k]

structure Storing (x : Transfer) (k : ℕ) (s : State) : Prop extends Loop x k s where
  phase : s.dma.state = .store
  closed : s.pending = []
  buffer : s.dma.dataBuffer = x.word k
  request : s.dma.reqO = true →
    s.dma.weO = true ∧ s.dma.addrO = wordAddr x.dst k ∧ s.dma.wdataO = x.word k

/-- All words are copied; `done_o` follows. -/
structure Copied (x : Transfer) (s : State) : Prop where
  phase : s.dma.state = .done
  notDone : s.dma.doneO = false
  down : s.dma.reqO = false
  mem : s.mem = x.copied x.words

/-! ## One edge from each stage -/

section Steps

variable {x : Transfer} {k : ℕ} {s : State} {i : Inputs}

/-- A cycle that leaves the transfer's registers and the memory alone stays in the loop. -/
theorem Loop.keep {s' : State} (at_ : Loop x k s)
    (regs : (s'.dma.doneO, s'.dma.currSrc, s'.dma.currDst, s'.dma.bytesLeft) =
      (s.dma.doneO, s.dma.currSrc, s.dma.currDst, s.dma.bytesLeft))
    (mem : s'.mem = s.mem) : Loop x k s' := by
  simp only [Prod.mk.injEq] at regs
  obtain ⟨notDone, src, dst, left⟩ := regs
  exact {
    within := at_.within
    notDone := notDone.trans at_.notDone
    src := src.trans at_.src
    dst := dst.trans at_.dst
    left := left.trans at_.left
    mem := mem.trans at_.mem }

theorem Fetching.stall (at_ : Fetching x k s) (refused : granted s i = false) :
    Fetching x k (step s i) := by
  have engine : (step s i).dma = _ := DmaMaster.step_fetch at_.phase
  obtain ⟨mem, still⟩ := step_none (access_of_not_granted refused)
  refine ⟨at_.toLoop.keep (by rw [engine]) mem, ?_, ?_, ?_⟩
  · simp [engine, dmaInputs, refused]
  · rw [still, unanswered_nil at_.closed]
  · simp [engine, at_.src]

theorem Fetching.read (at_ : Fetching x k s) (grant : granted s i = true) :
    Waiting x k (step s i) ∧ access s i = some (x.read k) := by
  obtain ⟨reads, addr⟩ := at_.request (req_of_granted grant)
  have read : access s i = some (x.read k) := by
    rw [access_of_granted grant, reads, addr]
    rfl
  have engine : (step s i).dma = _ := DmaMaster.step_fetch at_.phase
  obtain ⟨mem, opened⟩ := step_read read
  refine ⟨⟨at_.toLoop.keep (by rw [engine]) mem, ?_, ?_, ?_⟩, read⟩
  · simp [engine, dmaInputs, grant]
  · simp [engine, dmaInputs, grant]
  · rw [opened, unanswered_nil at_.closed, at_.mem]
    rfl

/-- The answer to the read is put in the buffer; until it comes nothing changes. -/
theorem Waiting.step (at_ : Waiting x k s) :
    (Waiting x k (step s i) ∨ Storing x k (step s i)) ∧ access s i = none := by
  have quiet := access_of_not_granted (not_granted at_.down (i := i))
  obtain ⟨mem, open_⟩ := step_none quiet
  refine ⟨?_, quiet⟩
  rcases answered_or_open at_.opened (i := i) with ⟨answered, closed⟩ | ⟨silent, opened⟩
  · right
    have engine : (CopySystem.step s i).dma = _ :=
      DmaMaster.step_response at_.phase (by simp [dmaInputs, answered])
    refine ⟨at_.toLoop.keep (by rw [engine]) mem, ?_, open_.trans closed, ?_, ?_⟩
    · rw [engine]
    · simp [engine, dmaInputs, answered]
    · simp [engine, at_.down]
  · left
    have engine : (CopySystem.step s i).dma = s.dma :=
      DmaMaster.step_waitR at_.phase (by simp [dmaInputs, silent])
    refine ⟨at_.toLoop.keep (by rw [engine]) mem, ?_, ?_, open_.trans opened⟩
    · rw [engine, at_.phase]
    · rw [engine, at_.down]

theorem Storing.stall (at_ : Storing x k s) (refused : granted s i = false) :
    Storing x k (step s i) := by
  have engine : (step s i).dma = _ := DmaMaster.step_store at_.phase refused
  obtain ⟨mem, still⟩ := step_none (access_of_not_granted refused)
  refine ⟨at_.toLoop.keep (by rw [engine]) mem, ?_, ?_, ?_, ?_⟩
  · rw [engine]; exact at_.phase
  · rw [still, unanswered_nil at_.closed]
  · rw [engine]; exact at_.buffer
  · intro _
    rw [engine]
    exact ⟨rfl, at_.dst, at_.buffer⟩

/-- A granted write copies the `k`-th word and goes on to the next, if there is one. -/
theorem Storing.written (at_ : Storing x k s) (grant : granted s i = true) :
    (Fetching x (k + 1) (step s i) ∨ x.words = k + 1 ∧ Copied x (step s i)) ∧
      access s i = some (x.write k) := by
  obtain ⟨writes, addr, data⟩ := at_.request (req_of_granted grant)
  have write : access s i = some (x.write k) := by
    rw [access_of_granted grant, writes, addr, data]
    rfl
  have engine : (step s i).dma = _ := DmaMaster.step_stored at_.phase grant
  obtain ⟨mem, still⟩ := step_write write
  rw [at_.mem, ← x.copied_succ] at mem
  have more := x.more_iff at_.within
  rw [← at_.left] at more
  refine ⟨?_, write⟩
  by_cases last : s.dma.bytesLeft ≤ 4
  · right
    have count : x.words = k + 1 := by
      have := at_.within
      have : ¬ 4 * (k + 1) < x.length.toNat := fun within => more.mpr within last
      unfold Transfer.words
      omega
    refine ⟨count, ⟨?_, ?_, ?_, by rw [mem, count]⟩⟩
    · rw [engine]; exact if_pos last
    · rw [engine]; exact at_.notDone
    · rw [engine]
  · left
    refine ⟨⟨more.mp last, ?_, ?_, ?_, ?_, mem⟩, ?_, ?_, ?_⟩
    · rw [engine]; exact at_.notDone
    · rw [engine, wordAddr_succ, ← at_.src]
    · rw [engine, wordAddr_succ, ← at_.dst]
    · rw [engine]
      refine (if_neg last).trans ?_
      have within := more.mp last
      have small : x.length.toNat < 2 ^ 16 := x.length.isLt
      rw [at_.left]
      apply BitVec.eq_of_toNat_eq
      simp only [BitVec.toNat_sub, BitVec.ofNat_eq_ofNat, BitVec.toNat_ofNat]
      omega
    · rw [engine]; exact if_neg last
    · rw [still, unanswered_nil at_.closed]
    · simp [engine]

end Steps

/-! ## Progress through a transfer -/

/-- The stage of a transfer and the accesses performed since its start. -/
inductive Progress (x : Transfer) : List Access → State → Prop
  | fetching {k : ℕ} {s : State} (at_ : Fetching x k s) : Progress x (x.trace k) s
  | waiting {k : ℕ} {s : State} (at_ : Waiting x k s) : Progress x (x.trace k ++ [x.read k]) s
  | storing {k : ℕ} {s : State} (at_ : Storing x k s) : Progress x (x.trace k ++ [x.read k]) s
  | copied {s : State} (at_ : Copied x s) : Progress x (x.trace x.words) s

theorem Progress.notDone {x : Transfer} {log : List Access} {s : State}
    (progress : Progress x log s) : s.dma.doneO = false := by
  cases progress with
  | fetching at_ => exact at_.notDone
  | waiting at_ => exact at_.notDone
  | storing at_ => exact at_.notDone
  | copied at_ => exact at_.notDone

/-- A transfer goes on, or signals its end with all words copied. -/
theorem Progress.step {x : Transfer} {log : List Access} {s : State}
    (progress : Progress x log s) (i : Inputs) :
    Progress x (log ++ (access s i).toList) (step s i) ∨
      log ++ (access s i).toList = x.trace x.words ∧ (step s i).mem = x.copied x.words ∧
        (step s i).dma.doneO = true := by
  cases progress with
  | @fetching k _ at_ =>
      left
      cases grant : granted s i with
      | false =>
          rw [access_of_not_granted grant, Option.toList_none, List.append_nil]
          exact .fetching (at_.stall grant)
      | true =>
          obtain ⟨next, read⟩ := at_.read grant
          rw [read]
          exact .waiting next
  | @waiting k _ at_ =>
      left
      obtain ⟨next, quiet⟩ := at_.step (i := i)
      rw [quiet, Option.toList_none, List.append_nil]
      rcases next with waiting | storing
      · exact .waiting waiting
      · exact .storing storing
  | @storing k _ at_ =>
      left
      cases grant : granted s i with
      | false =>
          rw [access_of_not_granted grant, Option.toList_none, List.append_nil]
          exact .storing (at_.stall grant)
      | true =>
          obtain ⟨next, write⟩ := at_.written grant
          have trace : x.trace k ++ [x.read k] ++ (access s i).toList = x.trace (k + 1) := by
            rw [write, x.trace_succ, List.append_assoc]
            rfl
          rw [trace]
          rcases next with fetching | ⟨count, copied⟩
          · exact .fetching fetching
          · rw [← count]
            exact .copied copied
  | copied at_ =>
      right
      have quiet := access_of_not_granted (not_granted at_.down (i := i))
      rw [quiet, Option.toList_none, List.append_nil]
      have engine : (CopySystem.step s i).dma = _ := DmaMaster.step_done at_.phase
      exact ⟨rfl, (step_none quiet).1.trans at_.mem, by rw [engine]⟩

/-! ## Whole transfers -/

section Runs

variable (s₀ : State) (ins : ℕ → Inputs)

/-- The transfer a start asks for. -/
def transferAt (t : ℕ) : Transfer where
  mem := (after s₀ ins t).mem
  src := (ins t).srcAddrI
  dst := (ins t).dstAddrI
  length := (ins t).lengthI

/-- `done_o` in the cycle is the first since the start. -/
structure DoneAfter (s d : ℕ) : Prop where
  later : s < d
  done : (after s₀ ins d).dma.doneO = true
  first : ∀ t, t < d → s < t → (after s₀ ins t).dma.doneO = false

variable {s₀ ins}

theorem Accepted.silent {s : ℕ} (accepted : Accepted s₀ ins s) :
    access (after s₀ ins s) (ins s) = none ∧ (after s₀ ins s).dma.reqO = false ∧
      (after s₀ ins s).pending = [] := by
  have idle : (after s₀ ins s).dma.state = .idle := by
    simp only [Accepted, DmaMaster.accepts, Bool.and_eq_true, beq_iff_eq] at accepted
    exact accepted.1.1
  obtain ⟨down, closed⟩ := (settled s₀ ins s).of_idle idle
  exact ⟨access_of_not_granted (not_granted down), down, closed⟩

/-- A start goes to the first word. -/
theorem Accepted.fetching {s : ℕ} (accepted : Accepted s₀ ins s)
    (length : 0 < (ins s).lengthI.toNat) :
    Fetching (transferAt s₀ ins s) 0 (after s₀ ins (s + 1)) := by
  obtain ⟨quiet, down, closed⟩ := accepted.silent
  obtain ⟨mem, still⟩ := step_none quiet
  have engine : (after s₀ ins (s + 1)).dma = _ := DmaMaster.step_accepts accepted
  refine ⟨⟨length, ?_, ?_, ?_, ?_, mem⟩, ?_, ?_, ?_⟩
  · rw [engine]
  · rw [engine, wordAddr_zero]; rfl
  · rw [engine, wordAddr_zero]; rfl
  · rw [engine]; exact (BitVec.ofNat_toNat 16 _).trans (BitVec.setWidth_eq _) |>.symm
  · rw [engine]
  · rw [after_succ, still, unanswered_nil closed]
  · intro up
    rw [engine] at up
    exact absurd (down.symm.trans up) Bool.false_ne_true

theorem Accepted.begins {s : ℕ} (accepted : Accepted s₀ ins s)
    (length : 0 < (ins s).lengthI.toNat) :
    Progress (transferAt s₀ ins s) (accesses s₀ ins s (s + 1)) (after s₀ ins (s + 1)) := by
  have silent : accesses s₀ ins s (s + 1) = (transferAt s₀ ins s).trace 0 := by
    rw [accesses_succ s₀ ins (le_refl s), accesses, Nat.sub_self, accepted.silent.1]
    rfl
  rw [silent]
  exact .fetching (accepted.fetching length)

/-- Until `done_o` the transfer is in one of its stages. -/
theorem Accepted.progress {s : ℕ} (accepted : Accepted s₀ ins s)
    (length : 0 < (ins s).lengthI.toNat) {t : ℕ} (later : s < t) :
    (∀ u, s < u → u ≤ t → (after s₀ ins u).dma.doneO = false) →
      Progress (transferAt s₀ ins s) (accesses s₀ ins s t) (after s₀ ins t) := by
  induction t, later using Nat.le_induction with
  | base =>
      intro _
      exact accepted.begins length
  | succ t later ih =>
      intro silent
      have progress := ih fun u low high => silent u low (by omega)
      rw [accesses_succ s₀ ins (by omega)]
      rcases progress.step (ins t) with next | ⟨-, -, done⟩
      · exact next
      · exact absurd (done.symm.trans (silent (t + 1) (by omega) (le_refl _))) (by decide)

theorem Accepted.copies {s d : ℕ} (accepted : Accepted s₀ ins s)
    (length : 0 < (ins s).lengthI.toNat) (ends : DoneAfter s₀ ins s d) :
    accesses s₀ ins s d = (transferAt s₀ ins s).trace (transferAt s₀ ins s).words ∧
      (after s₀ ins d).mem = (transferAt s₀ ins s).copied (transferAt s₀ ins s).words := by
  obtain ⟨later, done, first⟩ := ends
  -- `done_o` is down in the cycle after the start, so the last stage is reached before `d`.
  have after_start : s + 1 < d := by
    have : d ≠ s + 1 := by
      rintro rfl
      exact absurd ((accepted.begins length).notDone.symm.trans done) (by decide)
    omega
  obtain ⟨e, rfl⟩ : ∃ e, d = e + 1 := ⟨d - 1, by omega⟩
  have progress := accepted.progress length (show s < e by omega)
    fun u low high => first u (by omega) low
  rw [accesses_succ s₀ ins (by omega)]
  rcases progress.step (ins e) with next | ⟨trace, mem, -⟩
  · exact absurd (next.notDone.symm.trans done) (by decide)
  · exact ⟨trace, mem⟩

theorem notDone_of_busy (t : ℕ) :
    (after s₀ ins t).dma.state ≠ .idle → (after s₀ ins t).dma.doneO = false :=
  Clocked.invariant (P := fun s : State => s.dma.state ≠ .idle → s.dma.doneO = false)
    (fun busy => absurd rfl busy) (fun _ _ notDone => DmaMaster.step_notDone notDone) t

/-- A busy engine, or one that signals its end, works on an accepted start. -/
theorem started (t : ℕ)
    (busy : (after s₀ ins t).dma.state ≠ .idle ∨ (after s₀ ins t).dma.doneO = true) :
    ∃ s, s < t ∧ Accepted s₀ ins s ∧ ∀ u, u < t → s < u → (after s₀ ins u).dma.doneO = false := by
  induction t with
  | zero =>
      rcases busy with busy | done
      · exact absurd rfl busy
      · exact absurd done Bool.false_ne_true
  | succ t ih =>
      rcases DmaMaster.step_busy busy with working | accepted
      · obtain ⟨s, later, accepted, silent⟩ := ih (.inl working)
        refine ⟨s, by omega, accepted, ?_⟩
        intro u high low
        rcases Nat.lt_or_ge u t with earlier | last
        · exact silent u earlier low
        · obtain rfl : u = t := by omega
          exact notDone_of_busy u working
      · refine ⟨t, by omega, accepted, ?_⟩
        intro u high low
        omega

end Runs

/-- **The copy engine performs a forward word copy**, one access at a time. -/
theorem forward_copy (s₀ : State) (ins : ℕ → Inputs) :
    (∀ t, outstanding (after s₀ ins t) ≤ 1) ∧
      (∀ d, (after s₀ ins d).dma.doneO = true → ∃ s, Accepted s₀ ins s ∧ DoneAfter s₀ ins s d) ∧
      ∀ s d, Accepted s₀ ins s → 0 < (ins s).lengthI.toNat → DoneAfter s₀ ins s d →
        accesses s₀ ins s d = (transferAt s₀ ins s).trace (transferAt s₀ ins s).words ∧
          (after s₀ ins d).mem = (transferAt s₀ ins s).copied (transferAt s₀ ins s).words := by
  refine ⟨?_, ?_, ?_⟩
  · intro t
    exact (settled s₀ ins t).outstanding_le
  · intro d done
    obtain ⟨s, later, accepted, first⟩ := started d (.inr done)
    exact ⟨s, accepted, later, done, first⟩
  · intro s d accepted length ends
    exact accepted.copies length ends

/-! ## An overlapping copy -/

/-- A memory that grants and answers at once, and a start in the first cycle. -/
def promptInputs (src dst : BitVec 32) (length : BitVec 16) (t : ℕ) : Inputs where
  srcAddrI := src
  dstAddrI := dst
  lengthI := length
  startI := decide (t = 0)
  memGnt := true
  answer := some 0
  unknown := 0

/-- An engine just out of reset in front of a memory. -/
def powerUp (mem : BitVec 30 → BitVec 32) : State where
  dma := {
    busyO := false
    doneO := false
    errO := false
    reqO := false
    addrO := 0
    weO := false
    wdataO := 0
    state := .idle
    currSrc := 0
    currDst := 0
    dataBuffer := 0
    bytesLeft := 0 }
  mem := mem
  pending := []

/-- Seven bytes moved up by one word: the first word is copied twice. -/
theorem forward_copy_overlapping :
    (after (powerUp fun a => a.setWidth 32) (promptInputs 0x20 0x24 7) 12).mem 0xA = 8 := by
  obtain ⟨-, -, copies⟩ :=
    forward_copy (powerUp fun a => a.setWidth 32) (promptInputs 0x20 0x24 7)
  have accepted : Accepted (powerUp fun a => a.setWidth 32) (promptInputs 0x20 0x24 7) 0 :=
    show DmaMaster.accepts _ _ = true by decide
  have copied := (copies 0 12 accepted (by decide) ⟨by decide, by decide, by decide⟩).2
  rw [copied]
  decide

end MiniMac.Core.CopySystem
