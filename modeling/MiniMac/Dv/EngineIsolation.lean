/-
# Dv.EngineIsolation -- the engines do not disturb each other

The stream engine sees a path of fixed latency, so what it streams are answers to
reads of its own ranges; it never writes.  The copy engine's side of the bench is
a run of `CopySystem`, whose memory grants and answers when the arbiter does
(`copy_run`).  With the copy's destination apart from its source and from the
ranges, all writes put a source word as it was at the beginning into its place
(`Moved`), so what either engine reads is what it would read alone.
-/
import MiniMac.Dv.DmaDirectedTb
import MiniMac.Dv.MacDmaTb
import MiniMac.Core.ForwardCopy

namespace MiniMac.Dv.DmaDirectedTb

open MiniMac.Theory MiniMac.Core MiniMac.Accel

set_option autoImplicit false

variable {x : Setup} {s₀ : State} {ins : ℕ → Inputs}

/-! ## The stream engine -/

/-- The engine has no job yet, or fills, or has filled; it does not write. -/
def ReadOnly (s : AxiStreamDma.State) : Prop :=
  s.mWeO = false ∧ (s.state = .idle ∨ s.state.fills = true ∨ s.state = .runArray)

/-- Without a result to drain the engine only reads, and has one job. -/
theorem ReadOnly.step {s : AxiStreamDma.State} {i : AxiStreamDma.Inputs} (readOnly : ReadOnly s)
    (noAbort : i.abortI = false) (noResult : i.sAxisResTvalid = false) :
    ReadOnly (AxiStreamDma.step s i) ∧
      (s.state ≠ .idle → (AxiStreamDma.step s i).state ≠ .idle) := by
  obtain ⟨reads, phase⟩ := readOnly
  cases at_ : s.state <;>
    simp only [at_, AxiStreamDma.Phase.fills, reduceCtorEq, false_or, or_false] at phase <;>
    simp only [AxiStreamDma.step, noAbort, AxiStreamDma.fsm, at_, AxiStreamDma.request,
      AxiStreamDma.defaults, noResult, Bool.false_eq_true, if_false] <;>
    (repeat' split) <;> simp_all [ReadOnly, AxiStreamDma.Phase.fills]

section Stream

variable (x s₀ ins)

/-- The stream engine over a run of the bench. -/
def stream (t : ℕ) : AxiStreamDma.State := (after x s₀ ins t).stream

def streamAt (t : ℕ) : AxiStreamDma.Inputs := streamInputs x (after x s₀ ins t) (ins t)

theorem stream_readOnly (t : ℕ) : ReadOnly (stream x s₀ ins t) :=
  Clocked.invariant (P := fun s : State => ReadOnly s.stream) ⟨rfl, .inl rfl⟩
    (fun _ _ at_ => (at_.step rfl rfl).1) t

/-- Once in its job the engine is not idle again. -/
theorem stream_busy {t u : ℕ} (later : t ≤ u) (busy : (stream x s₀ ins t).state ≠ .idle) :
    (stream x s₀ ins u).state ≠ .idle := by
  induction u, later using Nat.le_induction with
  | base => exact busy
  | succ u later ih => exact ((stream_readOnly x s₀ ins u).step rfl rfl).2 ih

variable {x}

/-- The stream engine is on a path of fixed latency. -/
theorem stream_served (positive : 0 < x.latency) :
    AxiStreamDma.Served x.latency (stream x s₀ ins) (streamAt x s₀ ins) where
  positive := positive
  next _ := rfl
  noAbort _ := rfl
  grants _ grant := DmaArbiter.req_of_gnt (c := .stream) grant
  answers := client_path s₀ ins positive .stream
  start := rfl
  noRead := nofun

end Stream

/-! ## The copy engine -/

section Copy

variable (x s₀ ins)

/-- The word a read of the copy engine is granted. -/
def copyRead (t : ℕ) : Option (BitVec 32) :=
  if (copyInputs x (after x s₀ ins t) (ins t)).gntI && !(after x s₀ ins t).copy.weO then
    some ((after x s₀ ins t).mem (wordIndex (after x s₀ ins t).copy.addrO))
  else none

/-- The copy engine is answered. -/
def copyAnswered (t : ℕ) : Bool := (copyInputs x (after x s₀ ins t) (ins t)).rvalidI

/-- The words of the copy engine's open reads, in grant order. -/
def copyOpen : ℕ → List (BitVec 32)
  | 0 => []
  | t + 1 =>
      (if copyAnswered x s₀ ins t then (copyOpen t).tail else copyOpen t) ++
        (copyRead x s₀ ins t).toList

/-- The open word that an answer takes. -/
def copyTaken (t : ℕ) : Option (BitVec 32) :=
  if copyAnswered x s₀ ins t then (copyOpen x s₀ ins t).head? else none

theorem copyOpen_fifo :
    Fifo (copyRead x s₀ ins) (copyTaken x s₀ ins) (copyOpen x s₀ ins) := by
  refine ⟨rfl, ?_⟩
  intro t
  refine ⟨if copyAnswered x s₀ ins t then (copyOpen x s₀ ins t).tail else copyOpen x s₀ ins t,
    ?_, rfl⟩
  rw [copyTaken]
  cases copyAnswered x s₀ ins t with
  | false => rfl
  | true => cases copyOpen x s₀ ins t <;> rfl

/-- The copy engine and the memory it sees, as a system of their own. -/
def copyState (t : ℕ) : CopySystem.State where
  dma := (after x s₀ ins t).copy
  mem := (after x s₀ ins t).mem
  pending := copyOpen x s₀ ins t

/-- What the arbiter makes of the memory's grants and answers. -/
def copyAt (t : ℕ) : CopySystem.Inputs where
  srcAddrI := x.copySrc
  dstAddrI := x.copyDst
  lengthI := x.copyLen
  startI := (ins t).copyStart
  memGnt := (copyInputs x (after x s₀ ins t) (ins t)).gntI
  answer := if copyAnswered x s₀ ins t then some 0 else none
  unknown := memRdata (after x s₀ ins t) (ins t)

variable {x}

theorem copy_path (positive : 0 < x.latency) :
    InOrder.Delayed x.latency (fun t => (copyRead x s₀ ins t).isSome) (copyAnswered x s₀ ins) := by
  have path := client_path s₀ ins positive .copy
  constructor
  · exact path.early
  · intro t
    refine (path.delayed t).trans ?_
    have read : (copyRead x s₀ ins t).isSome =
        ((copyInputs x (after x s₀ ins t) (ins t)).gntI && !(after x s₀ ins t).copy.weO) := by
      rw [copyRead]
      cases (copyInputs x (after x s₀ ins t) (ins t)).gntI && !(after x s₀ ins t).copy.weO <;> rfl
    exact read.symm

/-- An answer takes the word of its read, and the data port carries it. -/
theorem copyTaken_eq (positive : 0 < x.latency) {t : ℕ}
    (answered : copyAnswered x s₀ ins t = true) :
    copyTaken x s₀ ins t = some (memRdata (after x s₀ ins t) (ins t)) := by
  have path := copy_path s₀ ins positive
  obtain ⟨u, rfl, read⟩ := path.request answered
  have head (v : ℕ) : copyTaken x s₀ ins v =
      if copyAnswered x s₀ ins v then (copyOpen x s₀ ins v).head? else none := rfl
  rw [(copyOpen_fifo x s₀ ins).delay head positive path u]
  have granted : ((copyInputs x (after x s₀ ins u) (ins u)).gntI &&
      !(after x s₀ ins u).copy.weO) = true := by
    by_contra none
    rw [copyRead, if_neg none] at read
    cases read
  obtain ⟨grant, reads⟩ := Bool.and_eq_true_iff.mp granted
  have we : (arbiterAt x s₀ ins u).we .copy = false := (Bool.not_eq_true' _).mp reads
  rw [memRdata_eq positive (c := .copy) grant we, copyRead, if_pos granted]
  rfl

theorem copy_granted (t : ℕ) :
    CopySystem.granted (copyState x s₀ ins t) (copyAt x s₀ ins t) =
      (copyInputs x (after x s₀ ins t) (ins t)).gntI := by
  have asked : (copyInputs x (after x s₀ ins t) (ins t)).gntI = true →
      (after x s₀ ins t).copy.reqO = true := fun grant => (Bool.and_eq_true_iff.mp grant).2
  change ((after x s₀ ins t).copy.reqO && (copyInputs x (after x s₀ ins t) (ins t)).gntI) = _
  cases grant : (copyInputs x (after x s₀ ins t) (ins t)).gntI with
  | false => exact Bool.and_false _
  | true => rw [asked grant, Bool.true_and]

theorem copy_response (t : ℕ) :
    CopySystem.response (copyState x s₀ ins t) (copyAt x s₀ ins t) = copyTaken x s₀ ins t := by
  rw [CopySystem.response, copyAt, copyState, copyTaken]
  cases copyAnswered x s₀ ins t with
  | false => rfl
  | true => exact List.head?_eq_getElem?.symm

/-- The engine sees the same in both. -/
theorem copy_dmaInputs (positive : 0 < x.latency) (t : ℕ) :
    CopySystem.dmaInputs (copyState x s₀ ins t) (copyAt x s₀ ins t) =
      copyInputs x (after x s₀ ins t) (ins t) := by
  rw [CopySystem.dmaInputs, copy_granted, copy_response]
  have taken : (copyTaken x s₀ ins t).isSome = copyAnswered x s₀ ins t ∧
      (copyTaken x s₀ ins t).getD (memRdata (after x s₀ ins t) (ins t)) =
        memRdata (after x s₀ ins t) (ins t) := by
    cases answered : copyAnswered x s₀ ins t with
    | false =>
        rw [copyTaken, answered]
        exact ⟨rfl, rfl⟩
    | true =>
        rw [copyTaken_eq s₀ ins positive answered]
        exact ⟨rfl, rfl⟩
  have data : (copyTaken x s₀ ins t).getD (copyAt x s₀ ins t).unknown =
      memRdata (after x s₀ ins t) (ins t) := taken.2
  rw [taken.1, data]
  rfl

theorem copy_access (t : ℕ) :
    CopySystem.access (copyState x s₀ ins t) (copyAt x s₀ ins t) =
      if (copyInputs x (after x s₀ ins t) (ins t)).gntI then
        some (if (after x s₀ ins t).copy.weO then
            .write (after x s₀ ins t).copy.addrO (after x s₀ ins t).copy.wdataO
          else .read (after x s₀ ins t).copy.addrO)
      else none := by
  rw [CopySystem.access, copy_granted]
  rfl

theorem copy_unanswered (t : ℕ) :
    CopySystem.unanswered (copyState x s₀ ins t) (copyAt x s₀ ins t) =
      if copyAnswered x s₀ ins t then (copyOpen x s₀ ins t).tail else copyOpen x s₀ ins t := by
  rw [CopySystem.unanswered, copyAt, copyState]
  cases copyAnswered x s₀ ins t with
  | false => rfl
  | true => exact List.eraseIdx_zero

/-- Memory is written by the copy engine only. -/
theorem copy_mem (t : ℕ) :
    (after x s₀ ins (t + 1)).mem =
      if (copyInputs x (after x s₀ ins t) (ins t)).gntI && (after x s₀ ins t).copy.weO then
        Function.update (after x s₀ ins t).mem (wordIndex (after x s₀ ins t).copy.addrO)
          (after x s₀ ins t).copy.wdataO
      else (after x s₀ ins t).mem := by
  have next : (after x s₀ ins (t + 1)).mem =
      if granted (after x s₀ ins t) (ins t) && memWe (after x s₀ ins t) then
        Function.update (after x s₀ ins t).mem (wordIndex (memAddr (after x s₀ ins t)))
          (memWdata (after x s₀ ins t))
      else (after x s₀ ins t).mem := rfl
  rw [next]
  cases copyGnt : (copyInputs x (after x s₀ ins t) (ins t)).gntI with
  | true =>
      obtain ⟨took, addr, we, wdata⟩ := port_granted (c := .copy) copyGnt
      rw [took, addr, we, wdata]
      rfl
  | false =>
      cases took : granted (after x s₀ ins t) (ins t) with
      | false => rfl
      | true =>
          -- the stream engine has the grant, and it reads
          obtain ⟨c, grant⟩ := gnt_selected took
          obtain ⟨-, -, we, -⟩ := port_granted grant
          cases c with
          | stream =>
              have reads : memWe (after x s₀ ins t) = false :=
                we.trans (stream_readOnly x s₀ ins t).1
              rw [reads]
              rfl
          | copy => exact absurd (copyGnt.symm.trans grant) Bool.false_ne_true

theorem copy_step (positive : 0 < x.latency) (t : ℕ) :
    CopySystem.step (copyState x s₀ ins t) (copyAt x s₀ ins t) = copyState x s₀ ins (t + 1) := by
  have dma : (CopySystem.step (copyState x s₀ ins t) (copyAt x s₀ ins t)).dma =
      (after x s₀ ins (t + 1)).copy :=
    congrArg (DmaMaster.step _) (copy_dmaInputs s₀ ins positive t)
  have rest : (CopySystem.step (copyState x s₀ ins t) (copyAt x s₀ ins t)).mem =
        (after x s₀ ins (t + 1)).mem ∧
      (CopySystem.step (copyState x s₀ ins t) (copyAt x s₀ ins t)).pending =
        copyOpen x s₀ ins (t + 1) := by
    have access := copy_access s₀ ins (x := x) t
    have mem := copy_mem s₀ ins (x := x) t
    have pending : copyOpen x s₀ ins (t + 1) =
        CopySystem.unanswered (copyState x s₀ ins t) (copyAt x s₀ ins t) ++
          (copyRead x s₀ ins t).toList := by
      rw [copy_unanswered]
      rfl
    rw [copyRead] at pending
    rw [mem, pending]
    cases grant : (copyInputs x (after x s₀ ins t) (ins t)).gntI with
    | false =>
        rw [grant] at access
        obtain ⟨still, open_⟩ := CopySystem.step_none access
        exact ⟨still, open_.trans (List.append_nil _).symm⟩
    | true =>
        cases we : (after x s₀ ins t).copy.weO with
        | false =>
            rw [grant, we] at access
            exact CopySystem.step_read access
        | true =>
            rw [grant, we] at access
            obtain ⟨written, open_⟩ := CopySystem.step_write access
            exact ⟨written, open_.trans (List.append_nil _).symm⟩
  calc CopySystem.step (copyState x s₀ ins t) (copyAt x s₀ ins t)
      = ⟨(CopySystem.step (copyState x s₀ ins t) (copyAt x s₀ ins t)).dma,
          (CopySystem.step (copyState x s₀ ins t) (copyAt x s₀ ins t)).mem,
          (CopySystem.step (copyState x s₀ ins t) (copyAt x s₀ ins t)).pending⟩ := rfl
    _ = copyState x s₀ ins (t + 1) := by
      rw [dma, rest.1, rest.2]
      rfl

/-- The copy engine's side of the bench is a run of the copy system. -/
theorem copy_run (positive : 0 < x.latency) (t : ℕ) :
    CopySystem.after (copyState x s₀ ins 0) (copyAt x s₀ ins) t = copyState x s₀ ins t :=
  have next (u : ℕ) := (copy_step s₀ ins positive u).symm
  (Clocked.eq_run (x := copyState x s₀ ins) rfl next t).symm

end Copy

/-! ## The ranges -/

namespace Setup

variable (x : Setup)

/-- The number of words a copy moves. -/
def words : ℕ := (x.copyLen.toNat + 3) / 4

def source (k : ℕ) : BitVec 30 := wordIndex (wordAddr x.copySrc k)

def dest (k : ℕ) : BitVec 30 := wordIndex (wordAddr x.copyDst k)

/-- The number of words of a channel's range. -/
def operands (ch : AxiStreamDma.Channel) : ℕ := (x.job.len ch).toNat / 4

def operand (ch : AxiStreamDma.Channel) (k : ℕ) : BitVec 30 :=
  wordIndex (wordAddr (x.job.base ch) k)

/-- The destination is apart from the source and from both operand ranges. -/
structure Apart : Prop where
  source : ∀ j < x.words, ∀ k < x.words, x.source k ≠ x.dest j
  operand : ∀ ch, ∀ j < x.words, ∀ k < x.operands ch, x.operand ch k ≠ x.dest j

variable {x}

theorem dest_inj {j k : ℕ} (hj : j < x.words) (hk : k < x.words) (same : x.dest j = x.dest k) :
    j = k := by
  have small : x.copyLen.toNat < 2 ^ 16 := x.copyLen.isLt
  unfold words at hj hk
  exact wordIndex_inj (by omega) (by omega) same

/-- The memory is as at the beginning, but for words that are copied already. -/
def Moved (x : Setup) (m₀ m : BitVec 30 → BitVec 32) : Prop :=
  ∀ a, m a = m₀ a ∨ ∃ k < x.words, a = x.dest k ∧ m a = m₀ (x.source k)

variable {m₀ m : BitVec 30 → BitVec 32}

theorem Moved.outside (moved : x.Moved m₀ m) {a : BitVec 30} (apart : ∀ k < x.words, a ≠ x.dest k) :
    m a = m₀ a := by
  rcases moved a with same | ⟨k, within, here, -⟩
  · exact same
  · exact absurd here (apart k within)

theorem Moved.write (moved : x.Moved m₀ m) {k : ℕ} (within : k < x.words) :
    x.Moved m₀ (Function.update m (x.dest k) (m₀ (x.source k))) := by
  intro a
  by_cases here : a = x.dest k
  · exact .inr ⟨k, within, here, by rw [here, Function.update_self]⟩
  · rw [Function.update_of_ne here]
    exact moved a

end Setup

/-! ## Memory -/

section Memory

variable (s₀ ins)

/-- A transfer starts from the memory of its cycle. -/
theorem transferAt_mem (positive : 0 < x.latency) (s : ℕ) :
    (CopySystem.transferAt (copyState x s₀ ins 0) (copyAt x s₀ ins) s).mem =
      (after x s₀ ins s).mem := by
  rw [CopySystem.transferAt, copy_run s₀ ins positive]
  rfl

/-- It copies the words of its source. -/
theorem word_eq (apart : x.Apart) {s k : ℕ} (moved : x.Moved s₀.mem (after x s₀ ins s).mem)
    (positive : 0 < x.latency) (within : k < x.words) :
    (CopySystem.transferAt (copyState x s₀ ins 0) (copyAt x s₀ ins) s).word k =
      s₀.mem (x.source k) := by
  rw [CopySystem.Transfer.word, CopySystem.Transfer.copied, transferAt_mem s₀ ins positive]
  refine (copyWords_frame fun j before => apart.source j (by omega) k within).trans ?_
  exact moved.outside fun j inside => apart.source j inside k within

/-- A write of the copy engine is one of a transfer under way. -/
theorem transfer_write (length : 0 < x.copyLen.toNat) (t : ℕ) {addr data : BitVec 32}
    (write : CopySystem.access (CopySystem.after (copyState x s₀ ins 0) (copyAt x s₀ ins) t)
      (copyAt x s₀ ins t) = some (.write addr data)) :
    ∃ s < t, ∃ k < x.words, CopySystem.Access.write addr data =
      (CopySystem.transferAt (copyState x s₀ ins 0) (copyAt x s₀ ins) s).write k := by
  have busy : (CopySystem.after (copyState x s₀ ins 0) (copyAt x s₀ ins) t).dma.state ≠ .idle := by
    intro idle
    have down := ((CopySystem.settled (copyState x s₀ ins 0) (copyAt x s₀ ins) t).of_idle idle).1
    rw [CopySystem.access_of_not_granted (CopySystem.not_granted down)] at write
    cases write
  obtain ⟨s, later, accepted, silent⟩ := CopySystem.started t (.inl busy)
  have progress := accepted.progress length later fun u low high => by
    rcases Nat.lt_or_ge u t with before | last
    · exact silent u before low
    · obtain rfl : u = t := by omega
      exact CopySystem.notDone_of_busy u busy
  refine ⟨s, later, ?_⟩
  cases grant : CopySystem.granted (CopySystem.after (copyState x s₀ ins 0) (copyAt x s₀ ins) t)
    (copyAt x s₀ ins t) with
  | false =>
      rw [CopySystem.access_of_not_granted grant] at write
      cases write
  | true =>
      generalize CopySystem.accesses (copyState x s₀ ins 0) (copyAt x s₀ ins) s t = log at progress
      cases progress with
      | fetching at_ =>
          have read := (at_.read grant).2.symm.trans write
          cases read
      | waiting at_ =>
          have quiet := at_.step.2.symm.trans write
          cases quiet
      | @storing k _ at_ =>
          have within : k < x.words := by
            have : 4 * k < x.copyLen.toNat := at_.within
            unfold Setup.words
            omega
          exact ⟨k, within, Option.some.inj (write.symm.trans (at_.written grant).2)⟩
      | copied at_ =>
          rw [CopySystem.access_of_not_granted (CopySystem.not_granted at_.down)] at write
          cases write

/-- **One cycle at the memory**: nothing, or a source word goes to its place. -/
theorem mem_next (positive : 0 < x.latency) (length : 0 < x.copyLen.toNat) (apart : x.Apart)
    {t : ℕ} (moved : ∀ u ≤ t, x.Moved s₀.mem (after x s₀ ins u).mem) :
    (after x s₀ ins (t + 1)).mem = (after x s₀ ins t).mem ∨
      ∃ k < x.words, (after x s₀ ins (t + 1)).mem =
        Function.update (after x s₀ ins t).mem (x.dest k) (s₀.mem (x.source k)) := by
  have run := copy_run s₀ ins positive t
  have next : (CopySystem.step (copyState x s₀ ins t) (copyAt x s₀ ins t)).mem =
      (after x s₀ ins (t + 1)).mem := by
    rw [copy_step s₀ ins positive]
    rfl
  cases access : CopySystem.access (copyState x s₀ ins t) (copyAt x s₀ ins t) with
  | none => exact .inl (next.symm.trans (CopySystem.step_none access).1)
  | some done =>
      cases done with
      | read addr => exact .inl (next.symm.trans (CopySystem.step_read access).1)
      | write addr data =>
          obtain ⟨s, later, k, within, same⟩ :=
            transfer_write s₀ ins length t (run.symm ▸ access)
          obtain ⟨place, word⟩ := CopySystem.Access.write.inj same
          refine .inr ⟨k, within, next.symm.trans ?_⟩
          rw [(CopySystem.step_write access).1, place, word,
            word_eq s₀ ins apart (moved s (by omega)) positive within]
          rfl

theorem mem_moved (positive : 0 < x.latency) (length : 0 < x.copyLen.toNat) (apart : x.Apart)
    (t : ℕ) : x.Moved s₀.mem (after x s₀ ins t).mem := by
  induction t using Nat.strong_induction_on with
  | h t ih =>
      cases t with
      | zero => exact fun a => .inl rfl
      | succ t =>
          have before := ih t (Nat.lt_succ_self t)
          have moved : ∀ u ≤ t, x.Moved s₀.mem (after x s₀ ins u).mem := fun u upto =>
            ih u (Nat.lt_succ_of_le upto)
          rcases mem_next s₀ ins positive length apart moved with same | ⟨k, within, written⟩
          · rw [same]
            exact before
          · rw [written]
            exact before.write within

/-- A word in its place stays. -/
theorem mem_stays (positive : 0 < x.latency) (length : 0 < x.copyLen.toNat) (apart : x.Apart)
    {t u k : ℕ} (within : k < x.words) (later : t ≤ u)
    (there : (after x s₀ ins t).mem (x.dest k) = s₀.mem (x.source k)) :
    (after x s₀ ins u).mem (x.dest k) = s₀.mem (x.source k) := by
  induction u, later using Nat.le_induction with
  | base => exact there
  | succ u later ih =>
      have moved : ∀ v ≤ u, x.Moved s₀.mem (after x s₀ ins v).mem := fun v _ =>
        mem_moved s₀ ins positive length apart v
      rcases mem_next s₀ ins positive length apart moved with same | ⟨j, inside, written⟩
      · rw [same]
        exact ih
      · rw [written]
        by_cases here : x.dest k = x.dest j
        · rw [here, Function.update_self, Setup.dest_inj within inside here]
        · rw [Function.update_of_ne here]
          exact ih

/-- When the copy engine is done, every source word is in its place. -/
theorem mem_done (positive : 0 < x.latency) (length : 0 < x.copyLen.toNat) (apart : x.Apart)
    {d k : ℕ} (done : (after x s₀ ins d).copy.doneO = true) (within : k < x.words) :
    (after x s₀ ins d).mem (x.dest k) = s₀.mem (x.source k) := by
  have run := copy_run s₀ ins positive d
  have ends : (CopySystem.after (copyState x s₀ ins 0) (copyAt x s₀ ins) d).dma.doneO = true := by
    rw [run]
    exact done
  obtain ⟨s, later, accepted, first⟩ := CopySystem.started d (.inr ends)
  have copied := (accepted.copies length ⟨later, ends, first⟩).2
  rw [run] at copied
  refine (congrFun copied (x.dest k)).trans ?_
  rw [CopySystem.Transfer.copied, transferAt_mem s₀ ins positive]
  refine (copyWords_hit (fun i hi j hj => apart.source i hi j hj)
    (fun i hi j hj => Setup.dest_inj hi hj) within).trans ?_
  exact (mem_moved s₀ ins positive length apart s).outside
    fun j inside => apart.source j inside k within

end Memory

/-! ## The streams -/

section Streams

variable (x s₀ ins)

/-- The words a channel has streamed by cycle `t`. -/
def streamed (ch : AxiStreamDma.Channel) (t : ℕ) : List (BitVec 32) :=
  Clocked.window (fun u => ch.beat (stream x s₀ ins u)) 0 (t + 1)

theorem streamed_succ (ch : AxiStreamDma.Channel) (t : ℕ) :
    streamed x s₀ ins ch (t + 1) =
      streamed x s₀ ins ch t ++ (ch.beat (stream x s₀ ins (t + 1))).toList := by
  rw [streamed, Clocked.window_succ, Nat.zero_add]
  rfl

/-- Nothing has happened yet, or the job is under way. -/
inductive JobStage (t : ℕ) : Prop
  | before (phase : (stream x s₀ ins t).state = .idle)
      (notDone : ∀ ch : AxiStreamDma.Channel, ch.done (stream x s₀ ins t) = false)
      (silent : ∀ ch, streamed x s₀ ins ch t = [])
  | job (a : ℕ) (spans : x.job.Over (stream x s₀ ins) (streamAt x s₀ ins) a t)
      (same : ∀ ch, streamed x s₀ ins ch t = AxiStreamDma.beats (stream x s₀ ins) ch a t)

variable {x s₀ ins}

theorem JobStage.next {t : ℕ} (positive : 0 < x.latency) (stage : JobStage x s₀ ins t) :
    JobStage x s₀ ins (t + 1) := by
  have served := stream_served s₀ ins positive
  cases stage with
  | before phase notDone silent =>
      have beat (ch : AxiStreamDma.Channel) : ch.beat (stream x s₀ ins (t + 1)) = none := by
        apply served.steady.silent
        exact phase ▸ AxiStreamDma.Channel.idle_ne_wait
      have streamed' (ch : AxiStreamDma.Channel) : streamed x s₀ ins ch (t + 1) = [] := by
        rw [streamed_succ, silent, beat]
        rfl
      cases start : (ins t).streamStart with
      | false =>
          have engine :=
            (served.next t).trans (AxiStreamDma.step_idle (served.noAbort t) phase start)
          refine .before ?_ (fun ch => ?_) streamed'
          · rw [engine]
            exact phase
          · rw [engine]
            cases ch with
            | wgt => exact notDone .wgt
            | act => exact notDone .act
      | true =>
          refine .job t ⟨Nat.lt_succ_self t, phase, start, rfl, rfl, fun _ _ _ _ _ => rfl,
            fun _ _ _ _ _ => rfl, fun u low high => absurd high (by omega)⟩ fun ch => ?_
          rw [streamed', AxiStreamDma.beats_succ _ _ (le_refl t), beat, AxiStreamDma.beats,
            Nat.sub_self]
          rfl
  | job a spans same =>
      have later := spans.later
      have started : (stream x s₀ ins (a + 1)).state ≠ .idle := by
        rw [served.next, AxiStreamDma.step_start (served.noAbort a) spans.idle spans.start]
        intro idle
        cases idle
      refine .job a ⟨by omega, spans.idle, spans.start, rfl, rfl, fun _ _ _ _ _ => rfl,
        fun _ _ _ _ _ => rfl, fun u low high idle => ?_⟩ fun ch => ?_
      · exact absurd idle (stream_busy x s₀ ins low started)
      · rw [streamed_succ, same, AxiStreamDma.beats_succ _ _ (by omega)]

theorem job_stage (positive : 0 < x.latency) (t : ℕ) : JobStage x s₀ ins t := by
  induction t with
  | zero =>
      refine .before rfl (fun ch => by cases ch <;> rfl) fun ch => ?_
      rw [streamed, Clocked.window_succ]
      cases ch <;> rfl
  | succ t ih => exact ih.next positive

/-- A word the engine fetches is the one memory had at the beginning. -/
theorem fetched_words (positive : 0 < x.latency) (length : 0 < x.copyLen.toNat) (apart : x.Apart)
    {ch : AxiStreamDma.Channel} {a : ℕ} {words : List (BitVec 32)}
    (fetched : AxiStreamDma.Fetched x.latency (stream x s₀ ins) (streamAt x s₀ ins) a
      (x.job.base ch) words) (within : words.length ≤ x.operands ch) :
    words <+: MacDmaTb.wordsAt s₀.mem (x.job.base ch) (x.operands ch) := by
  rw [List.prefix_iff_getElem?]
  intro k inside
  obtain ⟨g, -, granted, place, word⟩ := fetched k _ (List.getElem?_eq_getElem inside)
  obtain ⟨grant, reads⟩ := Bool.and_eq_true_iff.mp granted
  have data : memRdata (after x s₀ ins (g + x.latency)) (ins (g + x.latency)) =
      (after x s₀ ins g).mem (x.operand ch k) := by
    refine (memRdata_eq positive (c := .stream) grant ((Bool.not_eq_true' _).mp reads)).trans ?_
    exact congrArg (fun addr => (after x s₀ ins g).mem (wordIndex addr)) place
  rw [← word]
  have within' : k < x.operands ch := by omega
  have original : (after x s₀ ins g).mem (x.operand ch k) = s₀.mem (x.operand ch k) :=
    (mem_moved s₀ ins positive length apart g).outside
      fun j before => apart.operand ch j before k within'
  have answer : (streamAt x s₀ ins (g + x.latency)).mRdataI = s₀.mem (x.operand ch k) :=
    data.trans original
  rw [answer]
  simp [MacDmaTb.wordsAt, within', Setup.operand]

end Streams

/-- **The engines do not disturb each other.**  Once the copy is done its destination
holds the source words as they were; each stream carries the words of its range as they
were, each once and in order, and all of them when its channel is done. -/
theorem engines_isolated (x : Setup) (positive : 0 < x.latency) (length : 0 < x.copyLen.toNat)
    (multiple : ∀ ch, 4 ∣ (x.job.len ch).toNat) (apart : x.Apart) (s₀ : State)
    (ins : ℕ → Inputs) :
    (∀ d t k, (after x s₀ ins d).copy.doneO = true → d ≤ t → k < x.words →
      (after x s₀ ins t).mem (x.dest k) = s₀.mem (x.source k)) ∧
    ∀ ch t,
      streamed x s₀ ins ch t <+: MacDmaTb.wordsAt s₀.mem (x.job.base ch) (x.operands ch) ∧
      (ch.done (after x s₀ ins t).stream = true →
        streamed x s₀ ins ch t = MacDmaTb.wordsAt s₀.mem (x.job.base ch) (x.operands ch)) := by
  refine ⟨?_, ?_⟩
  · intro d t k done later within
    exact mem_stays s₀ ins positive length apart within later
      (mem_done s₀ ins positive length apart done within)
  · intro ch t
    have whole : (x.job.len ch).toNat = 4 * x.operands ch :=
      (Nat.mul_div_cancel' (multiple ch)).symm
    cases job_stage positive t with
    | before _ notDone silent =>
        rw [silent]
        refine ⟨List.nil_prefix, fun done => ?_⟩
        exact absurd ((notDone ch).symm.trans done) Bool.false_ne_true
    | job a spans same =>
        obtain ⟨fetched, done_whole, within, -⟩ := (stream_served s₀ ins positive).streams spans
        rw [same]
        have words := fetched_words positive length apart (fetched ch) (within ch _ whole)
        refine ⟨words, fun done => words.eq_of_length ?_⟩
        have all := done_whole ch done
        rw [MacDmaTb.wordsAt, List.length_map, List.length_range]
        omega

/-! ## Both engines started together -/

/-- The bench's own addresses and lengths: two words for each engine and channel. -/
def directed : Setup where
  latency := 2
  copySrc := 0x10000000
  copyDst := 0x10000020
  copyLen := 8
  job := {
    base := fun ch => match ch with
      | .wgt => 0x10000010
      | .act => 0x10000018
    len := fun _ => 8 }

def powerUp (mem : BitVec 30 → BitVec 32) : State where
  copy := (CopySystem.powerUp mem).dma
  stream := {
    busyO := false
    wgtDoneO := false
    actDoneO := false
    resDoneO := false
    mReqO := false
    mAddrO := 0
    mWeO := false
    mWdataO := 0
    mAxisWgtTdata := 0
    mAxisWgtTvalid := false
    mAxisActTdata := 0
    mAxisActTvalid := false
    sAxisResTready := false
    state := .idle
    currAddr := 0
    bytesLeft := 0
    wdataBuf := 0 }
  arbiter := DmaArbiter.reset
  mem := mem
  answers := []

/-- Both starts in the first cycle, and a memory that grants at once. -/
def together (t : ℕ) : Inputs where
  copyStart := decide (t = 0)
  streamStart := decide (t = 0)
  memGnt := true
  unknown := 0

theorem directed_apart : directed.Apart := by
  constructor
  · decide
  · intro ch
    cases ch <;> decide

/-- In a memory of the word indices, the copied words and both streams are the ranges. -/
theorem engines_isolated_directed :
    (after directed (powerUp fun a => a.setWidth 32) together 20).mem 0x4000009 = 0x4000001 ∧
      streamed directed (powerUp fun a => a.setWidth 32) together .wgt 20 =
        [0x4000004, 0x4000005] ∧
      streamed directed (powerUp fun a => a.setWidth 32) together .act 20 =
        [0x4000006, 0x4000007] := by
  obtain ⟨copied, streams⟩ := engines_isolated directed (by decide) (by decide)
    (fun _ => ⟨2, rfl⟩) directed_apart (powerUp fun a => a.setWidth 32) together
  refine ⟨?_, ?_, ?_⟩
  · exact copied 15 20 1 (by decide) (by decide) (by decide)
  · exact (streams .wgt 20).2 (by decide)
  · exact (streams .act 20).2 (by decide)

end MiniMac.Dv.DmaDirectedTb
