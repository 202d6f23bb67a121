/-
# Core.CopySystem -- the copy engine and a memory that takes its time

The memory grants a request in any cycle it likes, performs the access in that
cycle, and answers each granted read once, in a later cycle of its choice.  What
it chooses is part of the input stream, as are start, addresses and length, so a
statement about every input stream is one about every such memory and every
behaviour of the configuration inputs.

`Settled` says what the pair keeps in every run: the engine never has a second
access outstanding.
-/
import MiniMac.Core.DmaMaster
import MiniMac.Theory.Clocked
import MiniMac.Theory.WordAddress
import MiniMac.Theory.WriteLog
import Mathlib.Data.List.Basic

namespace MiniMac.Core.CopySystem

open MiniMac.Theory

set_option autoImplicit false

structure Inputs where
  srcAddrI : BitVec 32
  dstAddrI : BitVec 32
  lengthI : BitVec 16
  startI : Bool
  /-- Memory takes a request that is up. -/
  memGnt : Bool
  /-- The granted read that is answered, by its place among the open ones. -/
  answer : Option ℕ
  /-- What the read data port carries without an answer. -/
  unknown : BitVec 32

structure State where
  dma : DmaMaster.State
  mem : BitVec 30 → BitVec 32
  /-- The words of the granted reads not yet answered, in grant order. -/
  pending : List (BitVec 32)

/-- An access memory performed. -/
inductive Access where
  | read (addr : BitVec 32)
  | write (addr : BitVec 32) (data : BitVec 32)
  deriving DecidableEq

def granted (s : State) (i : Inputs) : Bool := s.dma.reqO && i.memGnt

/-- The answer given in a cycle; there is none to a read that was never granted. -/
def response (s : State) (i : Inputs) : Option (BitVec 32) :=
  i.answer.bind fun k => s.pending[k]?

def access (s : State) (i : Inputs) : Option Access :=
  if granted s i then
    some (if s.dma.weO then .write s.dma.addrO s.dma.wdataO else .read s.dma.addrO)
  else none

def dmaInputs (s : State) (i : Inputs) : DmaMaster.Inputs where
  srcAddrI := i.srcAddrI
  dstAddrI := i.dstAddrI
  lengthI := i.lengthI
  startI := i.startI
  gntI := granted s i
  rvalidI := (response s i).isSome
  rdataI := (response s i).getD i.unknown

/-- The open reads after the answer of the cycle. -/
def unanswered (s : State) (i : Inputs) : List (BitVec 32) :=
  match i.answer with
  | some k => s.pending.eraseIdx k
  | none => s.pending

def step (s : State) (i : Inputs) : State where
  dma := DmaMaster.step s.dma (dmaInputs s i)
  mem :=
    match access s i with
    | some (.write addr data) => Function.update s.mem (wordIndex addr) data
    | _ => s.mem
  pending :=
    match access s i with
    | some (.read addr) => unanswered s i ++ [s.mem (wordIndex addr)]
    | _ => unanswered s i

def reset (s : State) : State :=
  { s with
    dma := DmaMaster.reset s.dma
    pending := [] }

/-- The accesses that are requested or not yet answered. -/
def outstanding (s : State) : ℕ := s.pending.length + s.dma.reqO.toNat

/-! ## One cycle at the memory -/

section Cycle

variable {s : State} {i : Inputs}

theorem unanswered_nil (closed : s.pending = []) : unanswered s i = [] := by
  unfold unanswered
  split <;> simp [closed]

theorem step_none (quiet : access s i = none) :
    (step s i).mem = s.mem ∧ (step s i).pending = unanswered s i := by
  simp only [step, quiet, and_self]

theorem step_read {addr : BitVec 32} (read : access s i = some (.read addr)) :
    (step s i).mem = s.mem ∧
      (step s i).pending = unanswered s i ++ [s.mem (wordIndex addr)] := by
  simp only [step, read, and_self]

theorem step_write {addr data : BitVec 32} (write : access s i = some (.write addr data)) :
    (step s i).mem = Function.update s.mem (wordIndex addr) data ∧
      (step s i).pending = unanswered s i := by
  simp only [step, write, and_self]

theorem access_of_not_granted (refused : granted s i = false) : access s i = none := by
  simp [access, refused]

theorem access_of_granted (grant : granted s i = true) :
    access s i =
      some (if s.dma.weO then .write s.dma.addrO s.dma.wdataO else .read s.dma.addrO) :=
  if_pos grant

/-- A request that is down is not granted. -/
theorem not_granted (down : s.dma.reqO = false) : granted s i = false := by
  rw [granted, down, Bool.false_and]

theorem req_of_granted (grant : granted s i = true) : s.dma.reqO = true := by
  simp only [granted, Bool.and_eq_true] at grant
  exact grant.1

/-- The one open read is answered with its word, or stays open. -/
theorem answered_or_open {word : BitVec 32} (one : s.pending = [word]) :
    (response s i = some word ∧ unanswered s i = []) ∨
      (response s i = none ∧ unanswered s i = [word]) := by
  cases answer : i.answer with
  | none => exact .inr (by simp [response, unanswered, answer, one])
  | some k =>
      cases k with
      | zero => exact .inl (by simp [response, unanswered, answer, one])
      | succ k => exact .inr (by simp [response, unanswered, answer, one])

end Cycle

/-! ## One access at a time -/

/-- What the request line and the open reads can be in each phase. -/
inductive Settled (s : State) : Prop
  | rest (phase : s.dma.state = .idle ∨ s.dma.state = .done) (down : s.dma.reqO = false)
      (closed : s.pending = [])
  | fetch (phase : s.dma.state = .fetch) (reads : s.dma.reqO = true → s.dma.weO = false)
      (closed : s.pending = [])
  | waitR (phase : s.dma.state = .waitR) (down : s.dma.reqO = false) (word : BitVec 32)
      (one : s.pending = [word])
  | store (phase : s.dma.state = .store) (writes : s.dma.reqO = true → s.dma.weO = true)
      (closed : s.pending = [])

theorem Settled.outstanding_le {s : State} (settled : Settled s) : outstanding s ≤ 1 := by
  unfold outstanding
  cases settled with
  | rest _ down closed => simp [down, closed]
  | fetch _ _ closed => rw [closed, List.length_nil, Nat.zero_add]; exact Bool.toNat_le _
  | waitR _ down word one => simp [down, one]
  | store _ _ closed => rw [closed, List.length_nil, Nat.zero_add]; exact Bool.toNat_le _

theorem Settled.of_idle {s : State} (settled : Settled s) (phase : s.dma.state = .idle) :
    s.dma.reqO = false ∧ s.pending = [] := by
  cases settled with
  | rest _ down closed => exact ⟨down, closed⟩
  | fetch phase' _ _ => simp [phase] at phase'
  | waitR phase' _ _ _ => simp [phase] at phase'
  | store phase' _ _ => simp [phase] at phase'

theorem Settled.step {s : State} (settled : Settled s) (i : Inputs) : Settled (step s i) := by
  cases settled with
  | rest phase down closed =>
      obtain ⟨-, still⟩ := step_none (access_of_not_granted (not_granted down (i := i)))
      rw [unanswered_nil closed] at still
      rcases phase with idle | done
      · cases accepted : DmaMaster.accepts s.dma (dmaInputs s i) with
        | true =>
            have engine : (CopySystem.step s i).dma = _ := DmaMaster.step_accepts accepted
            exact .fetch (by rw [engine]) (by simp [engine, down]) still
        | false =>
            obtain ⟨idle', down', -⟩ := DmaMaster.step_idle idle accepted
            exact .rest (.inl idle') (down'.trans down) still
      · have engine : (CopySystem.step s i).dma = _ := DmaMaster.step_done done
        exact .rest (.inl (by rw [engine])) (by rw [engine]; exact down) still
  | fetch phase reads closed =>
      have engine : (CopySystem.step s i).dma = _ := DmaMaster.step_fetch phase
      cases grant : granted s i with
      | false =>
          obtain ⟨-, still⟩ := step_none (access_of_not_granted grant)
          rw [unanswered_nil closed] at still
          exact .fetch (by simp [engine, dmaInputs, grant]) (by simp [engine]) still
      | true =>
          have read := access_of_granted grant
          rw [reads (req_of_granted grant), if_neg Bool.false_ne_true] at read
          obtain ⟨-, opened⟩ := step_read read
          rw [unanswered_nil closed, List.nil_append] at opened
          exact .waitR (by simp [engine, dmaInputs, grant]) (by simp [engine, dmaInputs, grant]) _
            opened
  | waitR phase down word one =>
      obtain ⟨-, next⟩ := step_none (access_of_not_granted (not_granted down (i := i)))
      rcases answered_or_open one (i := i) with ⟨answered, none⟩ | ⟨silent, still⟩
      · have engine : (CopySystem.step s i).dma = _ :=
          DmaMaster.step_response phase (by simp [dmaInputs, answered])
        exact .store (by rw [engine]) (by simp [engine, down]) (next.trans none)
      · have engine : (CopySystem.step s i).dma = s.dma :=
          DmaMaster.step_waitR phase (by simp [dmaInputs, silent])
        exact .waitR (by rw [engine, phase]) (by rw [engine, down]) word (next.trans still)
  | store phase writes closed =>
      cases grant : granted s i with
      | false =>
          have engine : (CopySystem.step s i).dma = _ := DmaMaster.step_store phase grant
          obtain ⟨-, still⟩ := step_none (access_of_not_granted grant)
          rw [unanswered_nil closed] at still
          exact .store (by rw [engine]; exact phase) (by simp [engine]) still
      | true =>
          have engine : (CopySystem.step s i).dma = _ := DmaMaster.step_stored phase grant
          have write := access_of_granted grant
          rw [writes (req_of_granted grant), if_pos rfl] at write
          obtain ⟨-, still⟩ := step_write write
          rw [unanswered_nil closed] at still
          by_cases last : s.dma.bytesLeft ≤ 4
          · exact .rest (.inr (by rw [engine]; exact if_pos last)) (by rw [engine]) still
          · exact .fetch (by rw [engine]; exact if_neg last) (by simp [engine]) still

/-! ## Runs -/

/-- The state after `t` cycles from reset. -/
def after (s₀ : State) (ins : ℕ → Inputs) (t : ℕ) : State :=
  Clocked.run step (reset s₀) ins t

theorem after_succ (s₀ : State) (ins : ℕ → Inputs) (t : ℕ) :
    after s₀ ins (t + 1) = step (after s₀ ins t) (ins t) := rfl

/-- The accesses memory performed in the cycles from `a` up to `b`, in order. -/
def accesses (s₀ : State) (ins : ℕ → Inputs) (a b : ℕ) : List Access :=
  Clocked.window (fun t => access (after s₀ ins t) (ins t)) a (b - a)

theorem accesses_succ (s₀ : State) (ins : ℕ → Inputs) {a b : ℕ} (upto : a ≤ b) :
    accesses s₀ ins a (b + 1) =
      accesses s₀ ins a b ++ (access (after s₀ ins b) (ins b)).toList := by
  rw [accesses, Nat.sub_add_comm upto, Clocked.window_succ, Nat.add_sub_cancel' upto]
  rfl

theorem settled (s₀ : State) (ins : ℕ → Inputs) (t : ℕ) : Settled (after s₀ ins t) :=
  Clocked.invariant (P := Settled) (.rest (.inl rfl) rfl rfl) (fun _ i at_ => at_.step i) t

/-- A start is accepted in the cycle. -/
def Accepted (s₀ : State) (ins : ℕ → Inputs) (t : ℕ) : Prop :=
  DmaMaster.accepts (after s₀ ins t).dma (dmaInputs (after s₀ ins t) (ins t)) = true

end MiniMac.Core.CopySystem
