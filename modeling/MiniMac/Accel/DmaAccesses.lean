/-
# Accel.DmaAccesses -- one bus access for each word

The request lines are registers, so a request is still up in the cycle after its
grant.  A memory that grants it again performs the access a second time: a read of
which the engine takes no word, or a second write of the word before.  An abort can
drop a word in the cycle of its grant, or an answer that is awaited.  Without these
the accesses are the words that are moved, and never more than one granted read is
unanswered (`one_access_iff`).
-/
import MiniMac.Accel.FillEnds

namespace MiniMac.Accel.AxiStreamDma

open MiniMac.Theory MiniMac.Theory.InOrder

set_option autoImplicit false

namespace Phase

/-- The phases that ask for a word. -/
def asksRead : Phase → Bool
  | .fillWgt | .fillAct => true
  | _ => false

/-- The phases in which the answer to a granted read is awaited. -/
def awaits : Phase → Bool
  | .wgtWait | .actWait => true
  | _ => false

/-- The phase that asks for a word to be written. -/
def asksWrite : Phase → Bool
  | .resWrite => true
  | _ => false

end Phase

/-- A write of the engine is granted. -/
def writeTaken (s : State) (i : Inputs) : Bool := i.mGntI && s.mWeO

/-- The engine takes in a word it has read. -/
def wordRead (s : State) (i : Inputs) : Bool := s.state.awaits && i.mRvalidI && !i.abortI

/-- The engine is done with a word it writes. -/
def wordWritten (s : State) (i : Inputs) : Bool := s.state.asksWrite && i.mGntI && !i.abortI

/-- A grant goes to a request of the phase the engine is in, and no abort takes a granted
word away. -/
def GrantedOnce (s : State) (i : Inputs) : Prop :=
  (i.mGntI = true → (s.state.asksRead || s.state.asksWrite) = true ∧ i.abortI = false) ∧
    (s.state.awaits = true → i.abortI = false)

/-- An engine that starts at rest, and a memory that grants what is asked for and answers
granted reads, each a cycle or more after its grant. -/
structure Memory (dma : ℕ → State) (ins : ℕ → Inputs) : Prop where
  next : ∀ t, dma (t + 1) = step (dma t) (ins t)
  idle : (dma 0).state = .idle
  down : (dma 0).mReqO = false
  grants : ∀ t, (ins t).mGntI = true → (dma t).mReqO = true
  answers : ∀ t, events (fun u => (ins u).mRvalidI) (t + 1) ≤
    events (fun u => readTaken (dma u) (ins u)) t

/-- The accesses before cycle `t` are the words moved before it, and a read that is awaited;
and at most one granted read is unanswered. -/
structure OneAccess (dma : ℕ → State) (ins : ℕ → Inputs) (t : ℕ) : Prop where
  reads : events (fun u => readTaken (dma u) (ins u)) t =
    events (fun u => wordRead (dma u) (ins u)) t + (dma t).state.awaits.toNat
  writes : events (fun u => writeTaken (dma u) (ins u)) t =
    events (fun u => wordWritten (dma u) (ins u)) t
  unanswered : events (fun u => readTaken (dma u) (ins u)) t ≤
    events (fun u => (ins u).mRvalidI) t + 1

/-! ## One edge -/

section Edge

variable {s : State} {i : Inputs}

/-- A request in a phase that asks is that phase's own. -/
structure Asks (s : State) : Prop where
  read : s.state.asksRead = true → s.mReqO = true → s.mWeO = false ∧ s.bytesLeft ≠ 0
  write : s.state.asksWrite = true → s.mReqO = true → s.mWeO = true

theorem Asks.step (asks : Asks s) : Asks (step s i) := by
  obtain ⟨read, write⟩ := asks
  unfold AxiStreamDma.step
  split
  · exact ⟨by simp [abort], by simp [abort]⟩
  · constructor <;> cases phase : s.state <;>
      simp only [fsm, phase, request, defaults] <;> (repeat' split) <;>
      simp_all [Phase.asksRead, Phase.asksWrite]

/-- The engine comes to wait by a grant in a fill phase, and waits on without an answer. -/
theorem awaits_step :
    (step s i).state.awaits =
      (!i.abortI &&
        (s.state.asksRead && s.bytesLeft != 0 && i.mGntI ||
          s.state.awaits && !i.mRvalidI)) := by
  unfold step
  split
  · next aborts => simp [aborts, abort, Phase.awaits]
  · cases phase : s.state <;> simp only [fsm, phase, request, defaults] <;>
      (repeat' split) <;> simp_all [Phase.awaits, Phase.asksRead]

/-- **One edge moves the word of each access** when the grant is to be given. -/
theorem GrantedOnce.balance (once : GrantedOnce s i) (asks : Asks s)
    (granted : i.mGntI = true → s.mReqO = true) :
    (readTaken s i).toNat + s.state.awaits.toNat =
        (wordRead s i).toNat + (step s i).state.awaits.toNat ∧
      writeTaken s i = wordWritten s i := by
  obtain ⟨fresh, keeps⟩ := once
  obtain ⟨read, write⟩ := asks
  rw [awaits_step]
  unfold readTaken writeTaken wordRead wordWritten
  cases grant : i.mGntI <;> cases valid : i.mRvalidI <;> cases aborts : i.abortI <;>
    cases more : s.bytesLeft != 0 <;> cases phase : s.state <;>
    simp_all [Phase.awaits, Phase.asksRead, Phase.asksWrite]

/-- An edge that moves the word of each access is one whose grant was to be given. -/
theorem GrantedOnce.of_balance
    (reads : (readTaken s i).toNat + s.state.awaits.toNat =
      (wordRead s i).toNat + (step s i).state.awaits.toNat)
    (writes : writeTaken s i = wordWritten s i) : GrantedOnce s i := by
  rw [awaits_step] at reads
  unfold readTaken wordRead at reads
  unfold writeTaken wordWritten at writes
  unfold GrantedOnce
  cases grant : i.mGntI <;> cases valid : i.mRvalidI <;> cases aborts : i.abortI <;>
    cases we : s.mWeO <;> cases phase : s.state <;>
    simp_all [Phase.awaits, Phase.asksRead, Phase.asksWrite]

end Edge

/-! ## Runs -/

section Runs

variable {dma : ℕ → State} {ins : ℕ → Inputs}

theorem events_succ_toNat (b : ℕ → Bool) (t : ℕ) :
    events b (t + 1) = events b t + (b t).toNat := by
  rw [events_succ]
  cases b t <;> rfl

namespace Memory

variable (memory : Memory dma ins)

include memory

theorem asks (t : ℕ) : Asks (dma t) := by
  induction t with
  | zero =>
      refine ⟨fun _ up => ?_, fun _ up => ?_⟩ <;> simp [memory.down] at up
  | succ t ih =>
      rw [memory.next]
      exact ih.step

/-- The accounts of a run whose grants were to be given; no answer is lost either. -/
theorem accounts (once : ∀ t, GrantedOnce (dma t) (ins t)) (t : ℕ) :
    (events (fun u => readTaken (dma u) (ins u)) t =
        events (fun u => wordRead (dma u) (ins u)) t + (dma t).state.awaits.toNat ∧
      events (fun u => writeTaken (dma u) (ins u)) t =
        events (fun u => wordWritten (dma u) (ins u)) t) ∧
      events (fun u => (ins u).mRvalidI) t = events (fun u => wordRead (dma u) (ins u)) t := by
  induction t with
  | zero => simp [Phase.awaits, memory.idle]
  | succ t ih =>
      obtain ⟨⟨reads, writes⟩, answers⟩ := ih
      obtain ⟨readBalance, writeBalance⟩ :=
        (once t).balance (memory.asks t) (memory.grants t)
      rw [← memory.next] at readBalance
      -- an answer is one to the read that is awaited
      have taken : (ins t).mRvalidI = wordRead (dma t) (ins t) := by
        cases valid : (ins t).mRvalidI with
        | false => simp [wordRead, valid]
        | true =>
            have order := memory.answers t
            rw [events_succ_toNat, valid, reads, answers] at order
            have waiting : (dma t).state.awaits = true := by
              cases waiting : (dma t).state.awaits with
              | true => rfl
              | false =>
                  rw [waiting] at order
                  simp at order
            simp [wordRead, valid, waiting, (once t).2 waiting]
      simp only [events_succ_toNat]
      refine ⟨⟨?_, ?_⟩, ?_⟩
      · omega
      · rw [writes, writeBalance]
      · rw [answers, taken]

end Memory

/-- Accounts that hold on both sides of an edge say that its grant was to be given. -/
theorem grantedOnce_of_access (memory : Memory dma ins) (access : ∀ t, OneAccess dma ins t)
    (t : ℕ) : GrantedOnce (dma t) (ins t) := by
  have now := access t
  have then_ := access (t + 1)
  have reads := then_.reads
  have writes := then_.writes
  rw [events_succ_toNat, events_succ_toNat, now.reads] at reads
  rw [events_succ_toNat, events_succ_toNat, now.writes] at writes
  rw [memory.next] at reads
  refine GrantedOnce.of_balance (by omega) ?_
  have equal : (writeTaken (dma t) (ins t)).toNat = (wordWritten (dma t) (ins t)).toNat := by
    omega
  revert equal
  cases writeTaken (dma t) (ins t) <;> cases wordWritten (dma t) (ins t) <;> simp

/-- **The engine makes one bus access for each word exactly when** the memory grants no
request twice and no abort takes a granted word away. -/
theorem one_access_iff (memory : Memory dma ins) :
    (∀ t, OneAccess dma ins t) ↔ ∀ t, GrantedOnce (dma t) (ins t) := by
  constructor
  · intro access
    exact grantedOnce_of_access memory access
  · intro once t
    obtain ⟨⟨reads, writes⟩, answers⟩ := memory.accounts once t
    refine ⟨reads, writes, ?_⟩
    rw [reads, answers]
    have := Bool.toNat_le (dma t).state.awaits
    omega

end Runs

/-! ## A read of one word -/

namespace Bench

theorem memory (mem : BitVec 32 → BitVec 32) {ins : ℕ → Inputs}
    (noAbort : ∀ t, (ins t).abortI = false) : Memory (dmaAt mem ins) (inputsAt mem ins) where
  next := (served mem noAbort).next
  idle := rfl
  down := rfl
  grants := (served mem noAbort).grants
  answers t := ((served mem noAbort).answers.events_eq t).le

/-- One word is read, and the memory takes a request in cycle 2 only. -/
def grantOnce (t : ℕ) : Inputs := { jobInputs 0 0 4 0 t with mGntI := t == 2 }

end Bench

theorem one_access_word :
    OneAccess (Bench.dmaAt id Bench.grantOnce) (Bench.inputsAt id Bench.grantOnce) 10 := by
  have once (t : ℕ) :
      GrantedOnce (Bench.dmaAt id Bench.grantOnce t) (Bench.inputsAt id Bench.grantOnce t) := by
    refine ⟨fun grant => ?_, fun _ => rfl⟩
    have here : t = 2 := by
      have free := (Bool.and_eq_true_iff.mp grant).2
      simpa [Bench.grantOnce] using free
    subst here
    exact ⟨rfl, rfl⟩
  exact (one_access_iff (Bench.memory id fun _ => rfl)).mpr once 10

/-- A memory that grants at once grants the read of a word twice. -/
theorem one_word_read_twice :
    ¬ ∀ (dma : ℕ → State) (ins : ℕ → Inputs), Memory dma ins → ∀ t, OneAccess dma ins t := by
  intro claim
  have memory : Memory (Bench.dmaAt id (Bench.jobInputs 0 0 4 0)) _ :=
    Bench.memory id fun _ => rfl
  have once := grantedOnce_of_access memory (claim _ _ memory) 3
  exact absurd (once.1 rfl).1 (by decide)

end MiniMac.Accel.AxiStreamDma
