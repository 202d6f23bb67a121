/-
# Core.DmaArbiter -- two engines on one memory port

The accelerator's stream engine and the copy engine share the DMA port of the
memory.  Where both ask, the turn decides, and the turn passes with a grant.  A
read response is routed by a two-entry queue of owners: the client selected when
a read is granted is pushed, and the response goes to the head.  A read request
is held back while the queue is full; a write is not.

`owners` is the queue as a list, and `step_owners` what an edge does to it; the
two owner registers and the counter are looked at nowhere else.
-/
import Mathlib.Data.BitVec
import Mathlib.Tactic.Common

namespace MiniMac.Core.DmaArbiter

set_option autoImplicit false

inductive Client where
  | stream
  | copy
  deriving DecidableEq

structure Inputs where
  streamReqI : Bool
  streamAddrI : BitVec 32
  streamWeI : Bool
  streamWdataI : BitVec 32
  copyReqI : Bool
  copyAddrI : BitVec 32
  copyWeI : Bool
  copyWdataI : BitVec 32
  memGntI : Bool
  memRvalidI : Bool

structure State where
  nextStreamQ : Bool
  /-- Entry 0 of the owner queue. -/
  readOwnerStreamQ0 : Bool
  /-- Entry 1 of the owner queue. -/
  readOwnerStreamQ1 : Bool
  readOwnerCountQ : BitVec 2

def reset : State where
  nextStreamQ := false
  readOwnerStreamQ0 := false
  readOwnerStreamQ1 := false
  readOwnerCountQ := 0

/-! ## Wires -/

def selectStream (s : State) (i : Inputs) : Bool :=
  i.streamReqI && (!i.copyReqI || s.nextStreamQ)

def selectedWe (s : State) (i : Inputs) : Bool :=
  if selectStream s i then i.streamWeI else i.copyWeI

def memReqO (s : State) (i : Inputs) : Bool :=
  (i.streamReqI || i.copyReqI) && !(s.readOwnerCountQ == 2 && !selectedWe s i)

def memAddrO (s : State) (i : Inputs) : BitVec 32 :=
  if selectStream s i then i.streamAddrI else i.copyAddrI

def memWeO (s : State) (i : Inputs) : Bool :=
  if selectStream s i then i.streamWeI else i.copyWeI

def memWdataO (s : State) (i : Inputs) : BitVec 32 :=
  if selectStream s i then i.streamWdataI else i.copyWdataI

def streamGntO (s : State) (i : Inputs) : Bool := i.memGntI && selectStream s i

def copyGntO (s : State) (i : Inputs) : Bool := i.memGntI && !selectStream s i && i.copyReqI

def streamRvalidO (s : State) (i : Inputs) : Bool :=
  i.memRvalidI && s.readOwnerCountQ != 0 && s.readOwnerStreamQ0

def copyRvalidO (s : State) (i : Inputs) : Bool :=
  i.memRvalidI && s.readOwnerCountQ != 0 && !s.readOwnerStreamQ0

def readPush (s : State) (i : Inputs) : Bool := memReqO s i && i.memGntI && !memWeO s i

def readPop (i : Inputs) : Bool := i.memRvalidI

/-! ## Registers -/

/-- The case over `{read_push, read_pop}`. -/
def ownerQueue (s : State) (i : Inputs) (d : State) : State :=
  match readPush s i, readPop i with
  | true, false =>
      { d with
        readOwnerStreamQ0 :=
          if s.readOwnerCountQ == 0 then selectStream s i else s.readOwnerStreamQ0
        readOwnerStreamQ1 :=
          if s.readOwnerCountQ == 0 then s.readOwnerStreamQ1 else selectStream s i
        readOwnerCountQ := s.readOwnerCountQ + 1 }
  | false, true =>
      { d with
        readOwnerStreamQ0 :=
          if s.readOwnerCountQ > 1 then s.readOwnerStreamQ1 else s.readOwnerStreamQ0
        readOwnerCountQ := s.readOwnerCountQ - 1 }
  | true, true =>
      { d with
        readOwnerStreamQ0 :=
          if s.readOwnerCountQ == 1 then selectStream s i else s.readOwnerStreamQ1
        readOwnerStreamQ1 :=
          if s.readOwnerCountQ == 1 then s.readOwnerStreamQ1 else selectStream s i }
  | false, false => d

def step (s : State) (i : Inputs) : State :=
  ownerQueue s i
    { s with
      nextStreamQ := if memReqO s i && i.memGntI then !selectStream s i else s.nextStreamQ }

/-! ## The selected client -/

/-- The client a bit of the owner queue stands for. -/
def client (isStream : Bool) : Client := if isStream then .stream else .copy

/-- The client whose address, write enable and data the port carries. -/
def selected (s : State) (i : Inputs) : Client := client (selectStream s i)

def Inputs.req (i : Inputs) : Client → Bool
  | .stream => i.streamReqI
  | .copy => i.copyReqI

def Inputs.addr (i : Inputs) : Client → BitVec 32
  | .stream => i.streamAddrI
  | .copy => i.copyAddrI

def Inputs.we (i : Inputs) : Client → Bool
  | .stream => i.streamWeI
  | .copy => i.copyWeI

def Inputs.wdata (i : Inputs) : Client → BitVec 32
  | .stream => i.streamWdataI
  | .copy => i.copyWdataI

def gnt (s : State) (i : Inputs) : Client → Bool
  | .stream => streamGntO s i
  | .copy => copyGntO s i

def rvalid (s : State) (i : Inputs) : Client → Bool
  | .stream => streamRvalidO s i
  | .copy => copyRvalidO s i

section Selection

variable {s : State} {i : Inputs}

/-- The port carries what the selected client drives. -/
theorem port_eq (s : State) (i : Inputs) :
    memAddrO s i = i.addr (selected s i) ∧ memWeO s i = i.we (selected s i) ∧
      memWdataO s i = i.wdata (selected s i) := by
  unfold memAddrO memWeO memWdataO selected
  cases selectStream s i
  · exact ⟨rfl, rfl, rfl⟩
  · exact ⟨rfl, rfl, rfl⟩

/-- A client that asks is selected. -/
theorem selected_asks (asks : memReqO s i = true) : i.req (selected s i) = true := by
  unfold memReqO at asks
  unfold selected selectStream
  cases stream : i.streamReqI <;> cases copy : i.copyReqI <;> cases turn : s.nextStreamQ <;>
    simp_all [client, Inputs.req]

/-- A grant of memory goes to the selected client and to no other. -/
theorem gnt_iff (asks : memReqO s i = true) (c : Client) :
    gnt s i c = true ↔ i.memGntI = true ∧ c = selected s i := by
  have req := selected_asks asks
  unfold selected at req ⊢
  cases select : selectStream s i <;> rw [select] at req <;> cases c <;>
    simp_all [gnt, streamGntO, copyGntO, client, Inputs.req]

/-- The turn passes with a grant. -/
theorem step_nextStreamQ (s : State) (i : Inputs) :
    (step s i).nextStreamQ =
      if memReqO s i && i.memGntI then !selectStream s i else s.nextStreamQ := by
  unfold step ownerQueue
  split <;> rfl

/-- A client that is granted asks. -/
theorem req_of_gnt {c : Client} (granted : gnt s i c = true) : i.req c = true := by
  cases c with
  | stream =>
      obtain ⟨-, select⟩ := Bool.and_eq_true_iff.mp granted
      exact (Bool.and_eq_true_iff.mp select).1
  | copy => exact (Bool.and_eq_true_iff.mp granted).2

theorem gnt_of_refused (refused : i.memGntI = false) (c : Client) : gnt s i c = false := by
  cases c <;> simp [gnt, streamGntO, copyGntO, refused]

end Selection

/-! ## The owner queue -/

/-- The owners of the open reads, the oldest first. -/
def owners (s : State) : List Client :=
  match s.readOwnerCountQ with
  | 0 => []
  | 1 => [client s.readOwnerStreamQ0]
  | _ => [client s.readOwnerStreamQ0, client s.readOwnerStreamQ1]

/-- The counter is never three. -/
def CountInRange (s : State) : Prop := s.readOwnerCountQ.toNat ≤ 2

/-- The client an edge adds to the queue. -/
def entering (s : State) (i : Inputs) : Option Client :=
  if readPush s i then some (selected s i) else none

/-- The client an edge takes from the queue. -/
def leaving (s : State) (i : Inputs) : Option Client :=
  if readPop i then (owners s).head? else none

section Queue

variable {s : State} {i : Inputs}

theorem CountInRange.cases (range : CountInRange s) :
    s.readOwnerCountQ = 0 ∨ s.readOwnerCountQ = 1 ∨ s.readOwnerCountQ = 2 := by
  have split : ∀ count : BitVec 2, count.toNat ≤ 2 → count = 0 ∨ count = 1 ∨ count = 2 := by decide
  exact split _ range

theorem owners_none (count : s.readOwnerCountQ = 0) : owners s = [] := by
  rw [owners, count]
  rfl

theorem owners_one (count : s.readOwnerCountQ = 1) : owners s = [client s.readOwnerStreamQ0] := by
  rw [owners, count]
  rfl

theorem owners_two (count : s.readOwnerCountQ = 2) :
    owners s = [client s.readOwnerStreamQ0, client s.readOwnerStreamQ1] := by
  rw [owners, count]
  rfl

theorem owners_length (range : CountInRange s) :
    (owners s).length = s.readOwnerCountQ.toNat := by
  rcases range.cases with count | count | count
  · rw [owners_none count, count]; rfl
  · rw [owners_one count, count]; rfl
  · rw [owners_two count, count]; rfl

/-- No read is granted while the queue is full. -/
theorem readPush_of_full (full : s.readOwnerCountQ = 2) : readPush s i = false := by
  have same : selectedWe s i = memWeO s i := rfl
  simp only [readPush, memReqO, same, full, beq_self_eq_true, Bool.true_and]
  cases memWeO s i <;> simp

/-- The queue after an edge at which `out` has left it and `into` has entered. -/
def Passes (s s' : State) (out into : Option Client) : Prop :=
  CountInRange s' ∧ ∃ rest, owners s = out.toList ++ rest ∧ owners s' = rest ++ into.toList

/-! The four arms of the source's case, each by the number of owners before it. -/

theorem passes_none (range : CountInRange s) (push : readPush s i = false)
    (pop : i.memRvalidI = false) : Passes s (step s i) none none := by
  have edge : (step s i).readOwnerCountQ = s.readOwnerCountQ ∧ owners (step s i) = owners s := by
    simp [step, ownerQueue, push, readPop, pop, owners]
  refine ⟨?_, owners s, rfl, ?_⟩
  · unfold CountInRange
    rw [edge.1]
    exact range
  · simpa using edge.2

theorem passes_pop (range : CountInRange s) (push : readPush s i = false)
    (pop : i.memRvalidI = true) (answered : owners s ≠ []) :
    Passes s (step s i) (owners s).head? none := by
  rcases range.cases with count | count | count
  · exact absurd (owners_none count) answered
  · have next : (step s i).readOwnerCountQ = 0 := by
      simp [step, ownerQueue, push, readPop, pop, count]
    refine ⟨by simp [CountInRange, next], [], ?_, ?_⟩
    · simp [owners_one count]
    · simp [owners_none next]
  · have next : (step s i).readOwnerCountQ = 1 := by
      simp [step, ownerQueue, push, readPop, pop, count]
    refine ⟨by simp [CountInRange, next], [client s.readOwnerStreamQ1], ?_, ?_⟩
    · simp [owners_two count]
    · rw [owners_one next]
      simp [step, ownerQueue, push, readPop, pop, count]

theorem passes_push (range : CountInRange s) (push : readPush s i = true)
    (pop : i.memRvalidI = false) : Passes s (step s i) none (some (selected s i)) := by
  rcases range.cases with count | count | count
  · have next : (step s i).readOwnerCountQ = 1 := by
      simp [step, ownerQueue, push, readPop, pop, count]
    refine ⟨by simp [CountInRange, next], [], ?_, ?_⟩
    · simp [owners_none count]
    · rw [owners_one next]
      simp [step, ownerQueue, push, readPop, pop, count, selected]
  · have next : (step s i).readOwnerCountQ = 2 := by
      simp [step, ownerQueue, push, readPop, pop, count]
    refine ⟨by simp [CountInRange, next], [client s.readOwnerStreamQ0], ?_, ?_⟩
    · simp [owners_one count]
    · rw [owners_two next]
      simp [step, ownerQueue, push, readPop, pop, count, selected]
  · exact absurd (push.symm.trans (readPush_of_full count)) (by decide)

theorem passes_both (range : CountInRange s) (push : readPush s i = true)
    (pop : i.memRvalidI = true) (answered : owners s ≠ []) :
    Passes s (step s i) (owners s).head? (some (selected s i)) := by
  rcases range.cases with count | count | count
  · exact absurd (owners_none count) answered
  · have next : (step s i).readOwnerCountQ = 1 := by
      simp [step, ownerQueue, push, readPop, pop, count]
    refine ⟨by simp [CountInRange, next], [], ?_, ?_⟩
    · simp [owners_one count]
    · rw [owners_one next]
      simp [step, ownerQueue, push, readPop, pop, count, selected]
  · exact absurd (push.symm.trans (readPush_of_full count)) (by decide)

/-- **One edge at the owner queue**: the head leaves with a response, the selected
client enters with a granted read. -/
theorem step_owners (range : CountInRange s)
    (answered : i.memRvalidI = true → owners s ≠ []) :
    Passes s (step s i) (leaving s i) (entering s i) := by
  unfold leaving entering readPop
  cases push : readPush s i with
  | false =>
      cases pop : i.memRvalidI with
      | false => exact passes_none range push pop
      | true => exact passes_pop range push pop (answered pop)
  | true =>
      cases pop : i.memRvalidI with
      | false => exact passes_push range push pop
      | true => exact passes_both range push pop (answered pop)

/-- A response raises the `rvalid` of the client that leaves the queue, and no other. -/
theorem rvalid_iff (range : CountInRange s) (c : Client) :
    rvalid s i c = true ↔ leaving s i = some c := by
  unfold leaving readPop
  cases pop : i.memRvalidI
  · cases c <;> simp [rvalid, streamRvalidO, copyRvalidO, pop]
  · rcases range.cases with count | count | count
    · cases c <;> simp [rvalid, streamRvalidO, copyRvalidO, pop, count, owners_none count]
    · cases c <;> cases owner : s.readOwnerStreamQ0 <;>
        simp [rvalid, streamRvalidO, copyRvalidO, pop, count, owners_one count, owner, client]
    · cases c <;> cases owner : s.readOwnerStreamQ0 <;>
        simp [rvalid, streamRvalidO, copyRvalidO, pop, count, owners_two count, owner, client]

end Queue

end MiniMac.Core.DmaArbiter
