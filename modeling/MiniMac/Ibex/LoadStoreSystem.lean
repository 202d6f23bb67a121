/-
# Ibex.LoadStoreSystem -- the load/store unit in front of a memory

Memory grants the word accesses of the unit and answers them in their order when it likes, at
the earliest in the cycle after the grant.

Next to the stage of a load or a store stands what memory holds there and what the answers
that are out will be (`Flight`).  A response ends it, and leaves the bytes of memory as they
should be behind the load or the store.
-/
import MiniMac.Ibex.LoadStorePipeline
import MiniMac.Theory.Clocked
import MiniMac.Theory.LeadsTo

namespace MiniMac.Ibex.LoadStoreSystem

open MiniMac.Theory MiniMac.Macros.SramWrapper LoadStoreUnit
open LoadStorePipeline (Stage At Quiet Placed)

set_option autoImplicit false

structure Inputs where
  /-- A load or a store is executed. -/
  valid : Bool
  /-- What the decoder shows the unit. -/
  request : Request
  /-- Memory takes a request that is up. -/
  gnt : Bool
  /-- Memory answers the oldest access, if there is one. -/
  answer : Bool
  /-- What the read data port carries otherwise. -/
  unknown : BitVec 32

structure State extends LoadStorePipeline.State where
  mem : BitVec 30 → BitVec 32
  /-- The words of the accesses that are not answered yet, the oldest first. -/
  pending : List (BitVec 32)

def rvalid (s : State) (i : Inputs) : Bool := i.answer && !s.pending.isEmpty

/-- What the pipeline and its unit see. -/
def port (s : State) (i : Inputs) : LoadStorePipeline.Inputs where
  valid := i.valid
  request := i.request
  gnt := i.gnt
  rvalid := rvalid s i
  rdata := if rvalid s i then s.pending.headD i.unknown else i.unknown

def lsuInputs (s : State) (i : Inputs) : LoadStoreUnit.Inputs :=
  LoadStorePipeline.lsuInputs s.toState (port s i)

def granted (s : State) (i : Inputs) : Bool :=
  LoadStorePipeline.requests s.toState (port s i) && i.gnt

/-- The word of the request. -/
def index (s : State) (i : Inputs) : BitVec 30 := wordIndex (dataAddrO (lsuInputs s i))

/-- The response of the cycle is the last of a load or a store. -/
def responds (s : State) (i : Inputs) : Bool :=
  LoadStorePipeline.responds s.toState (port s i)

def step (s : State) (i : Inputs) : State where
  toState := LoadStorePipeline.step s.toState (port s i)
  mem :=
    if granted s i && (lsuInputs s i).lsuWeI then
      Function.update s.mem (index s i)
        (writeLanes (dataBeO s.lsu (lsuInputs s i)) (dataWdataO (lsuInputs s i))
          (s.mem (index s i)))
    else s.mem
  pending := (if rvalid s i then s.pending.tail else s.pending) ++
    if granted s i then [if (lsuInputs s i).lsuWeI then i.unknown else s.mem (index s i)] else []

def reset (mem : BitVec 30 → BitVec 32) (held : Request) : State where
  toState := LoadStorePipeline.reset held
  mem := mem
  pending := []

/-! ## What is out at a stage -/

/-- The accesses that are not answered. -/
def owed (split : Bool) : Stage → List Bool
  | .first => []
  | .both => [false]
  | .second => []
  | .taken => [false, true]
  | .last => [split]

/-- What memory holds. -/
def contentsAt (r : Request) (mem : BitVec 30 → BitVec 32) : Stage → BitVec 30 → BitVec 32
  | .first => mem
  | .both => r.access false mem
  | .second => r.access false mem
  | .taken => r.accesses mem
  | .last => r.accesses mem

/-- The access of a cycle with a grant. -/
def owedNext (x : Stage) (gnt : Bool) : List Bool :=
  match x.asks with
  | some second => if gnt then [second] else []
  | none => []

/-- What a cycle does to memory. -/
def contentsNext (r : Request) (x : Stage) (gnt : Bool) (mem : BitVec 30 → BitVec 32) :
    BitVec 30 → BitVec 32 :=
  match x.asks with
  | some second => if gnt then r.access second mem else mem
  | none => mem

section Stages

variable {r : Request} {x : Stage} (gnt rvalid : Bool)
  (within : x ≠ .first → x ≠ .last → r.split = true)

include within

theorem owed_next (goes : (x == .last && rvalid) = false)
    (there : rvalid = true → owed r.split x ≠ []) :
    owed r.split (x.next r.split gnt rvalid) =
      (if rvalid then (owed r.split x).tail else owed r.split x) ++ owedNext x gnt := by
  cases x with
  | first =>
      obtain rfl : rvalid = false := by
        by_contra up
        exact there (by simpa using up) rfl
      cases split : r.split <;> cases gnt <;> rfl
  | both =>
      have split := within (by decide) (by decide)
      cases gnt <;> cases rvalid <;> simp [owed, owedNext, split]
  | second =>
      have split := within (by decide) (by decide)
      obtain rfl : rvalid = false := by
        by_contra up
        exact there (by simpa using up) rfl
      cases gnt <;> simp [owed, owedNext, split]
  | taken =>
      have split := within (by decide) (by decide)
      cases rvalid <;> simp [owed, owedNext, split]
  | last =>
      obtain rfl : rvalid = false := goes
      rfl

theorem contentsAt_next (mem : BitVec 30 → BitVec 32) :
    contentsAt r mem (x.next r.split gnt rvalid) =
      contentsNext r x gnt (contentsAt r mem x) := by
  cases x with
  | first => cases split : r.split <;> cases gnt <;> simp [contentsAt, contentsNext,
      Request.accesses, split]
  | both =>
      have split := within (by decide) (by decide)
      cases gnt <;> cases rvalid <;> simp [contentsAt, contentsNext, Request.accesses, split]
  | second =>
      have split := within (by decide) (by decide)
      cases gnt <;> simp [contentsAt, contentsNext, Request.accesses, split]
  | taken => cases rvalid <;> rfl
  | last => rfl

end Stages

/-- A load leaves memory alone. -/
theorem access_of_load {r : Request} (load : r.we = false) (second : Bool)
    (mem : BitVec 30 → BitVec 32) : r.access second mem = mem := by
  rw [Request.access, load, if_neg Bool.false_ne_true]

theorem contentsAt_of_load {r : Request} (load : r.we = false) (mem : BitVec 30 → BitVec 32)
    (x : Stage) : contentsAt r mem x = mem := by
  cases x <;> simp [contentsAt, Request.accesses, access_of_load load]

/-- What the answer to an access is, if it is one to a load. -/
def Word (r : Request) (mem : BitVec 30 → BitVec 32) (second : Bool) (word : BitVec 32) : Prop :=
  r.we = false → word = mem (r.index second)

/-- The request `r` met the memory `mem`, and is at a stage. -/
structure Flight (r : Request) (mem : BitVec 30 → BitVec 32) (x : Stage) (s : State) : Prop where
  here : At r x s.toState
  contents : s.mem = contentsAt r mem x
  answers : List.Forall₂ (Word r mem) (owed r.split x) s.pending
  /-- The first of two answers, as far as it is kept. -/
  kept : r.we = false → x = .second ∨ x = .last ∧ r.split = true →
    s.lsu.rdataQ = (mem (r.index false)).extractLsb' 8 24

/-! ## One cycle -/

section Cycle

variable {r : Request} {mem : BitVec 30 → BitVec 32} {x : Stage} {s : State} {i : Inputs}

theorem index_eq {second : Bool} (placed : Placed r second s.toState (port s i)) :
    index s i = r.index second := by
  rw [index, lsuInputs, placed.address_eq]
  exact BitVec.extractLsb'_append_eq_left

/-- Without a grant memory stays as it is. -/
theorem step_refused (refused : granted s i = false) :
    (step s i).mem = s.mem ∧
      (step s i).pending = if rvalid s i then s.pending.tail else s.pending := by
  refine ⟨?_, ?_⟩
  · show (if granted s i && _ then _ else _) = _
    rw [refused, Bool.false_and, if_neg Bool.false_ne_true]
  · show _ ++ (if granted s i then _ else _) = _
    rw [refused, if_neg Bool.false_ne_true, List.append_nil]

/-- A granted request. -/
theorem step_granted {second : Bool} (placed : Placed r second s.toState (port s i))
    (grant : granted s i = true) : (step s i).mem = r.access second s.mem ∧
      ∃ word, (step s i).pending =
        (if rvalid s i then s.pending.tail else s.pending) ++ [word] ∧
          Word r s.mem second word := by
  have place := index_eq placed
  have we : (lsuInputs s i).lsuWeI = r.we := placed.we_eq
  refine ⟨?_, if (lsuInputs s i).lsuWeI then i.unknown else s.mem (index s i), ?_, ?_⟩
  · show (if granted s i && (lsuInputs s i).lsuWeI then _ else _) = _
    rw [grant, Bool.true_and, we, place, lsuInputs, placed.be_eq, placed.wdata_eq]
    rfl
  · show _ ++ (if granted s i then _ else _) = _
    rw [grant, if_pos rfl]
  · intro load
    rw [we, load, if_neg Bool.false_ne_true, place]

/-- What the cycle's request does. -/
theorem step_requested
    (request : LoadStorePipeline.requests s.toState (port s i) = x.asks.isSome)
    (placed : ∀ second, x.asks = some second → Placed r second s.toState (port s i)) :
    (step s i).mem = contentsNext r x i.gnt s.mem ∧
      ∃ words, (step s i).pending =
        (if rvalid s i then s.pending.tail else s.pending) ++ words ∧
          List.Forall₂ (Word r s.mem) (owedNext x i.gnt) words := by
  have grants : granted s i = (x.asks.isSome && i.gnt) := by rw [granted, request]
  rw [contentsNext, owedNext]
  cases asks : x.asks with
  | none =>
      rw [asks] at grants
      obtain ⟨mem', pending⟩ := step_refused grants
      exact ⟨mem', [], by rw [pending, List.append_nil], .nil⟩
  | some second =>
      rw [asks] at grants
      cases grant : i.gnt with
      | false =>
          rw [grant] at grants
          obtain ⟨mem', pending⟩ := step_refused grants
          exact ⟨mem', [], by rw [pending, List.append_nil], .nil⟩
      | true =>
          rw [grant] at grants
          obtain ⟨mem', word, pending, answer⟩ := step_granted (placed second asks) grants
          exact ⟨mem', [word], pending, .cons answer .nil⟩

namespace Flight

variable (flight : Flight r mem x s)

include flight

theorem owes (up : rvalid s i = true) : owed r.split x ≠ [] := by
  intro none
  have answers := flight.answers
  rw [none, List.forall₂_nil_left_iff] at answers
  simp [rvalid, answers] at up

/-- What is left of the answers after the cycle's. -/
theorem left (i : Inputs) :
    List.Forall₂ (Word r mem) (if rvalid s i then (owed r.split x).tail else owed r.split x)
      (if rvalid s i then s.pending.tail else s.pending) := by
  have answers := flight.answers
  split
  · generalize owed r.split x = out at answers ⊢
    generalize s.pending = words at answers ⊢
    cases answers with
    | nil => exact .nil
    | cons _ rest => exact rest
  · exact answers

theorem requested (i : Inputs) : (step s i).mem = contentsNext r x i.gnt s.mem ∧
    ∃ words, (step s i).pending =
      (if rvalid s i then s.pending.tail else s.pending) ++ words ∧
        List.Forall₂ (Word r mem) (owedNext x i.gnt) words := by
  obtain ⟨mem', words, pending, answers⟩ :=
    step_requested flight.here.requests fun _ => flight.here.placed
  refine ⟨mem', words, pending, answers.imp fun second word answer load => ?_⟩
  rw [answer load, flight.contents, contentsAt_of_load load]

/-- The first of two answers is kept. -/
theorem keeps (i : Inputs) (load : r.we = false)
    (later : x.next r.split i.gnt (rvalid s i) = .second ∨
      x.next r.split i.gnt (rvalid s i) = .last ∧ r.split = true) :
    (step s i).lsu.rdataQ = (mem (r.index false)).extractLsb' 8 24 := by
  refine flight.here.rdataQ.trans ?_
  show (if x.answersFirst && rvalid s i && !r.we then
    (if rvalid s i then s.pending.headD i.unknown else i.unknown).extractLsb' 8 24 else _) = _
  have answers := flight.answers
  cases came : x.answersFirst && rvalid s i with
  | true =>
      obtain ⟨first, up⟩ := Bool.and_eq_true_iff.mp came
      obtain ⟨rest, out⟩ : ∃ rest, owed r.split x = false :: rest := by
        cases x with
        | both => exact ⟨[], rfl⟩
        | taken => exact ⟨[true], rfl⟩
        | first => cases first
        | second => cases first
        | last => cases first
      rw [out, List.forall₂_cons_left_iff] at answers
      obtain ⟨word, words, answer, -, open_⟩ := answers
      rw [load, up, open_, ← answer load]
      rfl
  | false =>
      rw [Bool.false_and, if_neg Bool.false_ne_true]
      refine flight.kept load ?_
      cases x with
      | first => cases split : r.split <;> cases gnt : i.gnt <;> simp [split, gnt] at later
      | both =>
          have none : rvalid s i = false := came
          cases gnt : i.gnt <;> simp [none, gnt] at later
      | second => exact .inl rfl
      | taken =>
          have none : rvalid s i = false := came
          simp [none] at later
      | last => exact later

/-- **One cycle of a load or a store** that is not over. -/
theorem step (goes : responds s i = false) :
    Flight r mem (x.next r.split i.gnt (rvalid s i)) (step s i) := by
  have here := flight.here
  have ended : (x == .last && rvalid s i) = false := here.responds.symm.trans goes
  obtain ⟨mem', words, pending, answers⟩ := flight.requested i
  refine ⟨here.step goes, ?_, ?_, flight.keeps i⟩
  · rw [mem', flight.contents]
    exact (contentsAt_next i.gnt (rvalid s i) here.split mem).symm
  · rw [owed_next i.gnt (rvalid s i) here.split ended flight.owes, pending]
    exact List.rel_append (flight.left i) answers

end Flight

/-- What the last cycle of a load or a store shows and leaves behind. -/
structure Finishes (r : Request) (mem : BitVec 30 → BitVec 32) (s : State) (i : Inputs) : Prop where
  quiet : Quiet (step s i).toState
  closed : (step s i).pending = []
  contents : bytes (step s i).mem = r.exec (bytes mem)
  value : r.we = false → lsuRdataO s.lsu (lsuInputs s i) = r.loaded (bytes mem)
  reports : lsuRdataValidO s.lsu (lsuInputs s i) = !r.we ∧
    loadErrO s.lsu (lsuInputs s i) = false ∧ storeErrO s.lsu (lsuInputs s i) = false

/-- **The last cycle of a load or a store.** -/
theorem Flight.finish (flight : Flight r mem x s) (ended : responds s i = true) :
    Finishes r mem s i := by
  obtain ⟨last, up⟩ := Bool.and_eq_true_iff.mp (flight.here.responds.symm.trans ended)
  obtain rfl : x = .last := eq_of_beq last
  have here := flight.here
  obtain ⟨mem', words, pending, answers'⟩ := flight.requested i
  have up' : rvalid s i = true := up
  have answers := flight.answers
  rw [owed, List.forall₂_cons_left_iff] at answers
  obtain ⟨word, rest, answer, none, open_⟩ := answers
  obtain rfl := List.forall₂_nil_left_iff.mp none
  obtain rfl := List.forall₂_nil_left_iff.mp answers'
  refine ⟨(here.finish up).2, ?_, ?_, ?_, here.reports up⟩
  · rw [pending, up', open_]
    rfl
  · rw [mem', flight.contents]
    exact bytes_accesses r mem
  · intro load
    show dataRdataExt s.lsu (if rvalid s i then s.pending.headD i.unknown else i.unknown) = _
    rw [up', if_pos rfl, open_, List.headD_cons, answer load]
    exact dataRdataExt_eq (here.latched (by decide)) mem
      fun split => flight.kept load (.inr ⟨rfl, split⟩)

/-- The first cycle of a load or a store. -/
theorem Flight.start (quiet : Quiet s.toState) (closed : s.pending = []) (valid : i.valid = true) :
    Flight i.request s.mem (Stage.first.next i.request.split i.gnt (rvalid s i))
      (LoadStoreSystem.step s i) := by
  obtain ⟨placed, -, drives⟩ := quiet.drives (i := port s i) valid
  have within : Stage.first ≠ .first → Stage.first ≠ .last → i.request.split = true :=
    fun other => absurd rfl other
  have none : rvalid s i = false := by simp [rvalid, closed]
  obtain ⟨mem', words, pending, answers⟩ : _ ∧ ∃ words, _ ∧ _ :=
    step_requested (x := .first) drives.req fun second asks => Option.some.inj asks ▸ placed
  refine ⟨quiet.start (i := port s i) valid, ?_, ?_, ?_⟩
  · rw [mem']
    exact (contentsAt_next i.gnt (rvalid s i) within s.mem).symm
  · rw [owed_next i.gnt (rvalid s i) within rfl (by simp [none]), pending, none, closed]
    exact answers
  · intro _ later
    cases split : i.request.split <;> cases gnt : i.gnt <;> simp [split, gnt] at later

/-- A cycle without one. -/
theorem rest (quiet : Quiet s.toState) (closed : s.pending = []) (none : i.valid = false) :
    Quiet (step s i).toState ∧ (step s i).mem = s.mem ∧ (step s i).pending = [] := by
  obtain ⟨silent, quiet'⟩ := quiet.rest (i := port s i) none
  have refused : granted s i = false := by rw [granted, silent, Bool.false_and]
  obtain ⟨mem', pending⟩ := step_refused refused
  refine ⟨quiet', mem', ?_⟩
  rw [pending, closed]
  simp

/-- Without an access that is out there is no response. -/
theorem silent (quiet : Quiet s.toState) (closed : s.pending = []) : responds s i = false := by
  rw [responds, quiet.responds]
  simp [port, rvalid, closed]

/-- What a stage waits for. -/
def awaited (i : Inputs) : Stage → Bool
  | .first => i.gnt
  | .both => i.answer
  | .second => i.gnt
  | .taken => i.answer
  | .last => i.answer

/-- How far the response is. -/
def distance : Stage → ℕ
  | .first => 3
  | .both => 2
  | .second => 1
  | .taken => 1
  | .last => 0

theorem distance_next (split gnt rvalid : Bool) (x : Stage) :
    x.next split gnt rvalid = x ∨ distance (x.next split gnt rvalid) < distance x := by
  cases x <;> cases split <;> cases gnt <;> cases rvalid <;> simp [distance]

/-- A load or a store comes nearer to its response as soon as there is what it waits for. -/
theorem Flight.nearer (flight : Flight r mem x s) (comes : awaited i x = true) :
    responds s i = true ∨ distance (x.next r.split i.gnt (rvalid s i)) < distance x := by
  have up : owed r.split x ≠ [] → rvalid s i = i.answer := by
    intro out
    have open_ : s.pending ≠ [] := by
      intro none
      have answers := flight.answers
      rw [none, List.forall₂_nil_right_iff] at answers
      exact out answers
    simp [rvalid, open_]
  cases x with
  | first =>
      have gnt : i.gnt = true := comes
      cases split : r.split <;> simp [distance, gnt]
  | both =>
      have answered : rvalid s i = true := (up (by simp [owed])).trans comes
      cases gnt : i.gnt <;> simp [distance, answered]
  | second =>
      have gnt : i.gnt = true := comes
      simp [distance, gnt]
  | taken =>
      have answered : rvalid s i = true := (up (by simp [owed])).trans comes
      simp [distance, answered]
  | last =>
      have answered : rvalid s i = true := (up (by simp [owed])).trans comes
      exact .inl (flight.here.responds.trans answered)

end Cycle

/-! ## A run -/

section Runs

variable (mem₀ : BitVec 30 → BitVec 32) (held₀ : Request) (ins : ℕ → Inputs)

def after (t : ℕ) : State := Clocked.run step (reset mem₀ held₀) ins t

/-- The request of a cycle gets its response. -/
def respondsAt (t : ℕ) : Bool := responds (after mem₀ held₀ ins t) (ins t)

/-- The memory of bytes on which the loads and stores are executed one after the other, each
when its response comes. -/
def byteMemory : ℕ → BitVec 32 → BitVec 8
  | 0 => bytes mem₀
  | t + 1 =>
      if respondsAt mem₀ held₀ ins t then (after mem₀ held₀ ins t).held.exec (byteMemory t)
      else byteMemory t

/-- Where the unit is in a cycle. -/
inductive Where (t : ℕ) : Prop
  | quiet (quiet : Quiet (after mem₀ held₀ ins t).toState)
      (closed : (after mem₀ held₀ ins t).pending = [])
      (contents : bytes (after mem₀ held₀ ins t).mem = byteMemory mem₀ held₀ ins t) : Where t
  | flight {r : Request} {mem : BitVec 30 → BitVec 32} {x : Stage}
      (flight : Flight r mem x (after mem₀ held₀ ins t))
      (contents : bytes mem = byteMemory mem₀ held₀ ins t) : Where t

theorem byteMemory_succ (t : ℕ) : byteMemory mem₀ held₀ ins (t + 1) =
    if respondsAt mem₀ held₀ ins t then
      (after mem₀ held₀ ins t).held.exec (byteMemory mem₀ held₀ ins t)
    else byteMemory mem₀ held₀ ins t := rfl

variable {mem₀ held₀ ins}

theorem where_succ {t : ℕ} (here : Where mem₀ held₀ ins t) : Where mem₀ held₀ ins (t + 1) := by
  have next := byteMemory_succ mem₀ held₀ ins t
  cases here with
  | quiet quiet closed contents =>
      rw [respondsAt, silent quiet closed, if_neg Bool.false_ne_true, ← contents] at next
      cases valid : (ins t).valid with
      | false =>
          obtain ⟨quiet', mem', closed'⟩ := rest quiet closed valid
          exact .quiet quiet' closed' (next ▸ congrArg bytes mem')
      | true => exact .flight (Flight.start quiet closed valid) next.symm
  | flight flight contents =>
      cases ended : responds (after mem₀ held₀ ins t) (ins t) with
      | false =>
          rw [respondsAt, ended, if_neg Bool.false_ne_true, ← contents] at next
          exact .flight (flight.step ended) next.symm
      | true =>
          have finishes := flight.finish ended
          rw [respondsAt, ended, if_pos rfl, flight.here.held, ← contents] at next
          exact .quiet finishes.quiet finishes.closed (finishes.contents.trans next.symm)

variable (mem₀ held₀ ins) in
theorem where_all (t : ℕ) : Where mem₀ held₀ ins t := by
  induction t with
  | zero => exact .quiet ⟨rfl, rfl, rfl, rfl, rfl⟩ rfl rfl
  | succ t ih => exact where_succ ih

variable (mem₀ held₀ ins) in
/-- What the unit does in a cycle is what a memory of bytes does. -/
structure Serves (t : ℕ) : Prop where
  /-- Between the loads and stores memory is the memory of bytes. -/
  contents : (after mem₀ held₀ ins t).multi = false →
    bytes (after mem₀ held₀ ins t).mem = byteMemory mem₀ held₀ ins t
  /-- There is a response only to what was asked for. -/
  asked : respondsAt mem₀ held₀ ins t = true → (after mem₀ held₀ ins t).multi = true
  /-- The response to a load is the value of its bytes. -/
  value : respondsAt mem₀ held₀ ins t = true → (after mem₀ held₀ ins t).held.we = false →
    lsuRdataO (after mem₀ held₀ ins t).lsu (lsuInputs (after mem₀ held₀ ins t) (ins t)) =
      (after mem₀ held₀ ins t).held.loaded (byteMemory mem₀ held₀ ins t)
  /-- It is written to the register file, and no error is reported. -/
  reports : respondsAt mem₀ held₀ ins t = true →
    lsuRdataValidO (after mem₀ held₀ ins t).lsu (lsuInputs (after mem₀ held₀ ins t) (ins t)) =
        !(after mem₀ held₀ ins t).held.we ∧
      loadErrO (after mem₀ held₀ ins t).lsu (lsuInputs (after mem₀ held₀ ins t) (ins t)) = false ∧
      storeErrO (after mem₀ held₀ ins t).lsu (lsuInputs (after mem₀ held₀ ins t) (ins t)) = false

theorem serves (t : ℕ) : Serves mem₀ held₀ ins t := by
  cases where_all mem₀ held₀ ins t with
  | quiet quiet closed contents =>
      have none : respondsAt mem₀ held₀ ins t ≠ true := by
        rw [respondsAt, silent quiet closed]
        exact Bool.false_ne_true
      exact ⟨fun _ => contents, fun responds => absurd responds none,
        fun responds => absurd responds none, fun responds => absurd responds none⟩
  | flight flight contents =>
      refine ⟨fun single => ?_, fun _ => flight.here.multi, ?_, ?_⟩
      · exact absurd (single.symm.trans flight.here.multi) Bool.false_ne_true
      · intro responds load
        rw [flight.here.held] at load ⊢
        rw [(flight.finish responds).value load, contents]
      · intro responds
        rw [flight.here.held]
        exact (flight.finish responds).reports

/-- A load or a store that is on its way gets its response. -/
theorem flight_ends (grants : ∀ t, ∃ u, t ≤ u ∧ (ins u).gnt = true)
    (answers : ∀ t, ∃ u, t ≤ u ∧ (ins u).answer = true) {r : Request}
    {mem : BitVec 30 → BitVec 32} {x : Stage} {t : ℕ}
    (flight : Flight r mem x (after mem₀ held₀ ins t)) :
    ∃ u, t ≤ u ∧ respondsAt mem₀ held₀ ins u = true ∧
      ∀ v, t ≤ v → v ≤ u → ∃ y, Flight r mem y (after mem₀ held₀ ins v) := by
  induction far : distance x using Nat.strong_induction_on generalizing t x with
  | h n ih =>
      subst far
      let went (v : ℕ) : Stage :=
        x.next r.split (ins v).gnt (rvalid (after mem₀ held₀ ins v) (ins v))
      obtain ⟨w, later, came, lasts⟩ := LeadsTo.wait
        (fun v => Flight r mem x (after mem₀ held₀ ins v))
        (fun v => respondsAt mem₀ held₀ ins v = true ∨ distance (went v) < distance x) flight (by
          intro v _ here stays
          push Not at stays
          have next := here.step (by simpa [respondsAt] using stays.1)
          have same : went v = x := by
            rcases distance_next r.split (ins v).gnt _ x with same | nearer
            · exact same
            · exact absurd nearer (Nat.not_lt.mpr stays.2)
          exact same ▸ next) (by
          intro lasts
          have comes : ∃ v, t ≤ v ∧ awaited (ins v) x = true := by
            cases x with
            | first => exact grants t
            | both => exact answers t
            | second => exact grants t
            | taken => exact answers t
            | last => exact answers t
          obtain ⟨v, low, comes⟩ := comes
          exact ⟨v, low, (lasts v low).nearer comes⟩)
      have here := lasts w later (le_refl w)
      cases ended : respondsAt mem₀ held₀ ins w with
      | true => exact ⟨w, later, ended, fun v low high => ⟨x, lasts v low high⟩⟩
      | false =>
          have nearer : distance (went w) < distance x :=
            came.resolve_left (by rw [ended]; exact Bool.false_ne_true)
          have next : Flight r mem (went w) (after mem₀ held₀ ins (w + 1)) := here.step ended
          obtain ⟨u, beyond, responds, rest⟩ := ih _ nearer next rfl
          refine ⟨u, by omega, responds, fun v low high => ?_⟩
          rcases Nat.lt_or_ge w v with behind | upto
          · exact rest v behind high
          · exact ⟨x, lasts v low upto⟩

/-- A load or a store that is shown is on its way in the next cycle. -/
theorem flight_shown {t : ℕ} (single : (after mem₀ held₀ ins t).multi = false)
    (valid : (ins t).valid = true) : ∃ x,
      Flight (ins t).request (after mem₀ held₀ ins t).mem x (after mem₀ held₀ ins (t + 1)) := by
  cases where_all mem₀ held₀ ins t with
  | quiet quiet closed contents => exact ⟨_, Flight.start quiet closed valid⟩
  | flight flight contents =>
      exact absurd (single.symm.trans flight.here.multi) Bool.false_ne_true

/-- An instruction that goes on has no response yet. -/
theorem silent_of_multi {t : ℕ} (multi : (after mem₀ held₀ ins t).multi = true)
    (multi' : (after mem₀ held₀ ins (t + 1)).multi = true) :
    respondsAt mem₀ held₀ ins t = false := by
  have goes : (if (after mem₀ held₀ ins t).multi then !respondsAt mem₀ held₀ ins t
    else (ins t).valid) = true := multi'
  rw [multi, if_pos rfl] at goes
  simpa using goes

variable (mem₀ held₀ ins) in
/-- A request that is shown in cycle `t` gets one response. -/
def Served (t : ℕ) : Prop :=
  ∃ u, t < u ∧ respondsAt mem₀ held₀ ins u = true ∧
    (∀ v, t < v → v ≤ u → (after mem₀ held₀ ins v).held = (ins t).request) ∧
    (∀ v, t < v → v < u → respondsAt mem₀ held₀ ins v = false) ∧
    (after mem₀ held₀ ins (u + 1)).multi = false

theorem served (grants : ∀ t, ∃ u, t ≤ u ∧ (ins u).gnt = true)
    (answers : ∀ t, ∃ u, t ≤ u ∧ (ins u).answer = true) {t : ℕ}
    (single : (after mem₀ held₀ ins t).multi = false) (valid : (ins t).valid = true) :
    Served mem₀ held₀ ins t := by
  obtain ⟨x, flight⟩ := flight_shown single valid
  obtain ⟨u, later, responds, rest⟩ := flight_ends grants answers flight
  refine ⟨u, later, responds, ?_, ?_, ?_⟩
  · intro v low high
    obtain ⟨y, here⟩ := rest v low high
    exact here.here.held
  · intro v low high
    obtain ⟨y, here⟩ := rest v low high.le
    obtain ⟨z, next⟩ := rest (v + 1) (by omega) high
    exact silent_of_multi here.here.multi next.here.multi
  · obtain ⟨y, here⟩ := rest u later (le_refl u)
    exact (here.finish responds).quiet.single

variable (mem₀ held₀ ins) in
/-- **The load/store unit is a memory of bytes**, when memory grants and answers its word
accesses in whatever cycles it likes: the responses come to what was asked for, one to each,
with the loaded value and after what was stored. -/
theorem loads_and_stores_bytes :
    (∀ t, Serves mem₀ held₀ ins t) ∧
      ((∀ t, ∃ u, t ≤ u ∧ (ins u).gnt = true) → (∀ t, ∃ u, t ≤ u ∧ (ins u).answer = true) →
        ∀ t, (after mem₀ held₀ ins t).multi = false → (ins t).valid = true →
          Served mem₀ held₀ ins t) :=
  ⟨serves, fun grants answers _ single valid => served grants answers single valid⟩

/-- A word that is stored across two words of memory, all the time. -/
def storing (_ : ℕ) : Inputs where
  valid := true
  request :=
    { we := true, type := 0b00, wdata := 0x11223344, signExt := false, addr := 0x00000006 }
  gnt := true
  answer := true
  unknown := 0

/-- The inputs are some on which the unit answers. -/
theorem loads_and_stores_bytes_misaligned :
    (∀ t, ∃ u, t ≤ u ∧ (storing u).gnt = true) ∧ (∀ t, ∃ u, t ≤ u ∧ (storing u).answer = true) ∧
      Served (fun _ => 0) (storing 0).request storing 0 :=
  have always : ∀ t : ℕ, ∃ u, t ≤ u ∧ true = true := fun t => ⟨t, le_refl t, rfl⟩
  ⟨always, always, (loads_and_stores_bytes (fun _ => 0) (storing 0).request storing).2 always
    always 0 rfl rfl⟩

end Runs

end MiniMac.Ibex.LoadStoreSystem
