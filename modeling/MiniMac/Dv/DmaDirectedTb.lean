/-
# Dv.DmaDirectedTb -- both engines on one memory

The bench of the shared port: the copy engine and the stream engine behind the
arbiter, and a memory that performs an access in the cycle it grants it and
answers every granted read a fixed number of cycles later with the word as of the
grant.  When it grants is part of the input stream, so the bench's own memory,
which grants at once and answers after two cycles, is one of them.

No result is offered to the stream engine, so it fills its inputs and stops.
-/
import MiniMac.Core.DmaMaster
import MiniMac.Core.ReadOwners
import MiniMac.Accel.FillBeats

namespace MiniMac.Dv.DmaDirectedTb

open MiniMac.Theory MiniMac.Core MiniMac.Accel

set_option autoImplicit false

/-- What a run of the bench is set up with. -/
structure Setup where
  /-- The cycles from the grant of a read to its answer. -/
  latency : ℕ
  copySrc : BitVec 32
  copyDst : BitVec 32
  copyLen : BitVec 16
  /-- The weight and activation ranges. -/
  job : AxiStreamDma.Job

structure Inputs where
  copyStart : Bool
  streamStart : Bool
  /-- Memory takes a request that is up. -/
  memGnt : Bool
  /-- What the read data port carries without an answer. -/
  unknown : BitVec 32

structure State where
  copy : DmaMaster.State
  stream : AxiStreamDma.State
  arbiter : DmaArbiter.State
  mem : BitVec 30 → BitVec 32
  /-- The answers on their way, one entry a cycle, the next one first. -/
  answers : List (Option (BitVec 32))

variable (x : Setup)

/-! ## Wires -/

def memRvalid (s : State) : Bool := (s.answers.headD none).isSome

def memRdata (s : State) (i : Inputs) : BitVec 32 := (s.answers.headD none).getD i.unknown

/-- The arbiter's inputs but for the grant, which depends on its request. -/
def arbiterRequests (s : State) : DmaArbiter.Inputs where
  streamReqI := s.stream.mReqO
  streamAddrI := s.stream.mAddrO
  streamWeI := s.stream.mWeO
  streamWdataI := s.stream.mWdataO
  copyReqI := s.copy.reqO
  copyAddrI := s.copy.addrO
  copyWeI := s.copy.weO
  copyWdataI := s.copy.wdataO
  memGntI := false
  memRvalidI := memRvalid s

def memReq (s : State) : Bool := DmaArbiter.memReqO s.arbiter (arbiterRequests s)

def memAddr (s : State) : BitVec 32 := DmaArbiter.memAddrO s.arbiter (arbiterRequests s)

def memWe (s : State) : Bool := DmaArbiter.memWeO s.arbiter (arbiterRequests s)

def memWdata (s : State) : BitVec 32 := DmaArbiter.memWdataO s.arbiter (arbiterRequests s)

def granted (s : State) (i : Inputs) : Bool := memReq s && i.memGnt

def arbiterInputs (s : State) (i : Inputs) : DmaArbiter.Inputs :=
  { arbiterRequests s with memGntI := granted s i }

def copyInputs (s : State) (i : Inputs) : DmaMaster.Inputs where
  srcAddrI := x.copySrc
  dstAddrI := x.copyDst
  lengthI := x.copyLen
  startI := i.copyStart
  gntI := DmaArbiter.copyGntO s.arbiter (arbiterInputs s i)
  rvalidI := DmaArbiter.copyRvalidO s.arbiter (arbiterInputs s i)
  rdataI := memRdata s i

def streamInputs (s : State) (i : Inputs) : AxiStreamDma.Inputs where
  startI := i.streamStart
  abortI := false
  wgtBaseI := x.job.base .wgt
  actBaseI := x.job.base .act
  resBaseI := 0
  dmaLenWgtI := x.job.len .wgt
  dmaLenActI := x.job.len .act
  mGntI := DmaArbiter.streamGntO s.arbiter (arbiterInputs s i)
  mRvalidI := DmaArbiter.streamRvalidO s.arbiter (arbiterInputs s i)
  mRdataI := memRdata s i
  sAxisResTdata := 0
  sAxisResTvalid := false
  sAxisResTlast := false

/-! ## Runs -/

/-- The answer a cycle's access will have. -/
def opened (s : State) (i : Inputs) : Option (BitVec 32) :=
  if granted s i && !memWe s then some (s.mem (wordIndex (memAddr s))) else none

def step (s : State) (i : Inputs) : State where
  copy := DmaMaster.step s.copy (copyInputs x s i)
  stream := AxiStreamDma.step s.stream (streamInputs x s i)
  arbiter := DmaArbiter.step s.arbiter (arbiterInputs s i)
  mem :=
    if granted s i && memWe s then Function.update s.mem (wordIndex (memAddr s)) (memWdata s)
    else s.mem
  answers := s.answers.tail ++ [opened s i]

def reset (s : State) : State where
  copy := DmaMaster.reset s.copy
  stream := AxiStreamDma.reset s.stream
  arbiter := DmaArbiter.reset
  mem := s.mem
  answers := List.replicate x.latency none

variable (s₀ : State) (ins : ℕ → Inputs)

/-- The bench `t` cycles after reset. -/
def after (t : ℕ) : State := Clocked.run (step x) (reset x s₀) ins t

/-! ## The shared port -/

/-- What the arbiter sees. -/
def arbiterAt (t : ℕ) : DmaArbiter.Inputs := arbiterInputs (after x s₀ ins t) (ins t)

/-- The arbiter in the bench runs as an arbiter on its own. -/
theorem after_arbiter (t : ℕ) :
    (after x s₀ ins t).arbiter = DmaArbiter.after (arbiterAt x s₀ ins) t :=
  Clocked.eq_run (x := fun u => (after x s₀ ins u).arbiter) rfl (fun _ => rfl) t

/-- A read that is granted is one whose answer is on its way. -/
theorem readGrant_isSome (s : State) (i : Inputs) :
    (DmaArbiter.readGrant s.arbiter (arbiterInputs s i)).isSome = (opened s i).isSome := by
  have grants : (arbiterInputs s i).memGntI = true →
      DmaArbiter.memReqO s.arbiter (arbiterInputs s i) = true := by
    intro grant
    exact (Bool.and_eq_true_iff.mp grant).1
  have grant : (arbiterInputs s i).memGntI = granted s i := rfl
  have we : DmaArbiter.memWeO s.arbiter (arbiterInputs s i) = memWe s := rfl
  rw [DmaArbiter.readGrant_isSome grants, grant, we, opened]
  cases granted s i && !memWe s <;> rfl

section Port

variable {x} (positive : 0 < x.latency)

include positive

/-- The answers leave `latency` cycles after their reads. -/
theorem answers_head :
    (∀ t < x.latency, (after x s₀ ins t).answers.headD none = none) ∧
      ∀ t, (after x s₀ ins (t + x.latency)).answers.headD none =
        opened (after x s₀ ins t) (ins t) := by
  have start : (after x s₀ ins 0).answers = List.replicate x.latency none := rfl
  have next (t : ℕ) : (after x s₀ ins (t + 1)).answers =
      (after x s₀ ins t).answers.tail ++ [opened (after x s₀ ins t) (ins t)] := rfl
  obtain ⟨early, delayed⟩ : (∀ t < x.latency, (after x s₀ ins t).answers.head? = some none) ∧
      ∀ t, (after x s₀ ins (t + x.latency)).answers.head? =
        some (opened (after x s₀ ins t) (ins t)) := shift_head start next positive
  constructor
  · intro t soon
    rw [List.headD_eq_head?_getD, early t soon, Option.getD_some]
  · intro t
    rw [List.headD_eq_head?_getD, delayed, Option.getD_some]

/-- To the arbiter it is a memory of fixed latency. -/
theorem fixedLatency : DmaArbiter.FixedLatency x.latency (arbiterAt x s₀ ins) where
  positive := positive
  grants := by
    intro t grant
    rw [← after_arbiter]
    exact (Bool.and_eq_true_iff.mp grant).1
  path := by
    obtain ⟨early, delayed⟩ := answers_head s₀ ins positive
    constructor
    · intro t soon
      have valid : (arbiterAt x s₀ ins t).memRvalidI = memRvalid (after x s₀ ins t) := rfl
      rw [valid, memRvalid, early t soon]
      rfl
    · intro t
      have valid : (arbiterAt x s₀ ins (t + x.latency)).memRvalidI =
        memRvalid (after x s₀ ins (t + x.latency)) := rfl
      rw [valid, memRvalid, delayed, ← after_arbiter]
      exact (readGrant_isSome _ _).symm

/-- A client has its answer `latency` cycles after its granted read, and only then. -/
theorem client_path (c : DmaArbiter.Client) :
    InOrder.Delayed x.latency
      (fun t => DmaArbiter.gnt (after x s₀ ins t).arbiter (arbiterAt x s₀ ins t) c &&
        !(arbiterAt x s₀ ins t).we c)
      fun t => DmaArbiter.rvalid (after x s₀ ins t).arbiter (arbiterAt x s₀ ins t) c := by
  have path := (fixedLatency s₀ ins positive).client_path c
  simp only [← after_arbiter] at path
  exact path

end Port

/-- What memory does in a cycle is what the client that is granted drives. -/
theorem port_granted {s : State} {i : Inputs} {c : DmaArbiter.Client}
    (grant : DmaArbiter.gnt s.arbiter (arbiterInputs s i) c = true) :
    granted s i = true ∧ memAddr s = (arbiterRequests s).addr c ∧
      memWe s = (arbiterRequests s).we c ∧ memWdata s = (arbiterRequests s).wdata c := by
  have took : granted s i = true := by
    by_contra refused
    rw [DmaArbiter.gnt_of_refused (by simpa [arbiterInputs] using refused)] at grant
    cases grant
  have asks : DmaArbiter.memReqO s.arbiter (arbiterInputs s i) = true :=
    (Bool.and_eq_true_iff.mp took).1
  obtain ⟨-, rfl⟩ := (DmaArbiter.gnt_iff asks c).mp grant
  exact ⟨took, DmaArbiter.port_eq s.arbiter (arbiterInputs s i)⟩

/-- A cycle in which memory takes a request grants one of the clients. -/
theorem gnt_selected {s : State} {i : Inputs} (took : granted s i = true) :
    ∃ c, DmaArbiter.gnt s.arbiter (arbiterInputs s i) c = true := by
  have asks : DmaArbiter.memReqO s.arbiter (arbiterInputs s i) = true :=
    (Bool.and_eq_true_iff.mp took).1
  exact ⟨_, (DmaArbiter.gnt_iff asks _).mpr ⟨took, rfl⟩⟩

section Data

variable {x} {s₀ ins} (positive : 0 < x.latency)

include positive

/-- The answer to a client's read is the word at its address as of the grant. -/
theorem memRdata_eq {t : ℕ} {c : DmaArbiter.Client}
    (grant : DmaArbiter.gnt (after x s₀ ins t).arbiter (arbiterAt x s₀ ins t) c = true)
    (reads : (arbiterAt x s₀ ins t).we c = false) :
    memRdata (after x s₀ ins (t + x.latency)) (ins (t + x.latency)) =
      (after x s₀ ins t).mem (wordIndex ((arbiterAt x s₀ ins t).addr c)) := by
  obtain ⟨took, addr, we, -⟩ := port_granted grant
  have open_ : opened (after x s₀ ins t) (ins t) =
      some ((after x s₀ ins t).mem (wordIndex ((arbiterAt x s₀ ins t).addr c))) := by
    have read : memWe (after x s₀ ins t) = false := we.trans reads
    rw [opened, took, read, addr]
    cases c <;> rfl
  rw [memRdata, (answers_head s₀ ins positive).2 t, open_, Option.getD_some]

end Data

end MiniMac.Dv.DmaDirectedTb
