/-
# Ibex.LoadStorePipeline -- the load/store unit and the pipeline in front of it

The pipeline shows a load or a store to the unit: it asks in the first cycle, holds it until
the response, and adds four to the last address when the unit asks for that.

Behind its first cycle a load or a store is at one of five stages (`Stage`).  What the unit
asks for is a matter of the stage (`At.requests`), and where it goes on one of the grant and
the answer (`At.step`), whatever is behind the port.
-/
import MiniMac.Ibex.LoadStoreData

namespace MiniMac.Ibex.LoadStorePipeline

open MiniMac.Theory LoadStoreUnit

set_option autoImplicit false

structure Inputs where
  /-- A load or a store is executed. -/
  valid : Bool
  /-- What the decoder shows the unit. -/
  request : Request
  gnt : Bool
  rvalid : Bool
  rdata : BitVec 32

structure State where
  lsu : LoadStoreUnit.State
  /-- The instruction is not in its first cycle. -/
  multi : Bool
  /-- The load or the store that is held then. -/
  held : Request

/-- What the pipeline shows. -/
def shown (p : State) (i : Inputs) : Request := if p.multi then p.held else i.request

/-- The address, or four bytes more than the last one. -/
def adderResult (p : State) (i : Inputs) : BitVec 32 :=
  if addrIncrReqO p.lsu then p.lsu.addrLastQ + 4 else (shown p i).addr

def lsuInputs (p : State) (i : Inputs) : LoadStoreUnit.Inputs where
  dataGntI := i.gnt
  dataRvalidI := i.rvalid
  dataBusErrI := false
  dataPmpErrI := false
  dataRdataI := i.rdata
  lsuWeI := (shown p i).we
  lsuTypeI := (shown p i).type
  lsuWdataI := (shown p i).wdata
  lsuSignExtI := (shown p i).signExt
  lsuReqI := i.valid && !p.multi
  adderResultExI := adderResult p i

/-- The unit asks for an access. -/
def requests (p : State) (i : Inputs) : Bool := dataReqO p.lsu (lsuInputs p i)

/-- The response of the cycle is the last of a load or a store. -/
def responds (p : State) (i : Inputs) : Bool := lsuRespValidO p.lsu (lsuInputs p i)

def step (p : State) (i : Inputs) : State where
  lsu := LoadStoreUnit.step p.lsu (lsuInputs p i)
  multi := if p.multi then !responds p i else i.valid
  held := shown p i

def reset (held : Request) : State where
  lsu := LoadStoreUnit.reset
  multi := false
  held := held

/-! ## Stages -/

inductive Stage where
  /-- The first access waits for its grant. -/
  | first
  /-- The second one is requested, the first one is not answered. -/
  | both
  /-- The second one waits for its grant, the first one is answered. -/
  | second
  /-- Both are granted, none is answered. -/
  | taken
  /-- The last answer is out. -/
  | last
  deriving DecidableEq

namespace Stage

/-- The access that is requested. -/
@[simp] def asks : Stage → Option Bool
  | first => some false
  | both => some true
  | second => some true
  | taken => none
  | last => none

@[simp] def phase (split : Bool) : Stage → Phase
  | first => if split then .waitGntMis else .waitGnt
  | both => .waitRvalidMis
  | second => .waitGnt
  | taken => .waitRvalidMisGntsDone
  | last => .idle

/-- The stage of a cycle with this grant and this answer. -/
@[simp] def next (split gnt rvalid : Bool) : Stage → Stage
  | first => if gnt then if split then both else last else first
  | both => if rvalid then if gnt then last else second else if gnt then taken else both
  | second => if gnt then last else second
  | taken => if rvalid then last else taken
  | last => last

/-- The address of the access is kept for the next one. -/
@[simp] def addrUpdate (gnt rvalid : Bool) : Stage → Bool
  | first => gnt
  | both => gnt && rvalid
  | second => gnt
  | taken => rvalid
  | last => false

/-- The request is latched. -/
@[simp] def ctrlUpdate (gnt : Bool) : Stage → Bool
  | first => gnt
  | second => gnt
  | _ => false

/-- An answer in this stage is the first of two. -/
@[simp] def answersFirst : Stage → Bool
  | both => true
  | taken => true
  | _ => false

end Stage

/-! ## One cycle -/

section Cycle

variable {r : Request} {x : Stage} {p : State} {i : Inputs}

theorem lane_four (addr : BitVec 32) : lane (addr + 4) = lane addr := by
  have moved := lane_add addr 4
  exact moved.trans (BitVec.add_zero _)

theorem wordIndex_four (addr : BitVec 32) : wordIndex (addr + 4) = wordIndex addr + 1 :=
  wordIndex_next addr (k := 4) (by decide) (by omega)

/-- The place of an access. -/
structure Placed (r : Request) (second : Bool) (p : State) (i : Inputs) : Prop where
  shown : shown p i = r
  address : adderResult p i = if second then r.addr + 4 else r.addr
  handle : p.lsu.handleMisalignedQ = second

namespace Placed

variable {second : Bool} (placed : Placed r second p i)

include placed

theorem offset : dataOffset (lsuInputs p i) = lane r.addr := by
  show lane (adderResult p i) = _
  rw [placed.address]
  cases second with
  | false => rfl
  | true => exact lane_four r.addr

theorem split : splitMisalignedAccess (lsuInputs p i) = r.split := by
  rw [splitMisalignedAccess, placed.offset, Request.split]
  show (((LoadStorePipeline.shown p i).type == _ && _) ||
    ((LoadStorePipeline.shown p i).type == _ && _)) = _
  rw [placed.shown]

/-- What the unit shows memory. -/
theorem address_eq : dataAddrO (lsuInputs p i) = r.index second ++ 0b00#2 := by
  show wordIndex (adderResult p i) ++ 0b00#2 = _
  rw [placed.address]
  cases second with
  | false => rfl
  | true => exact congrArg (· ++ 0b00#2) (wordIndex_four r.addr)

theorem we_eq : (lsuInputs p i).lsuWeI = r.we := congrArg Request.we placed.shown

theorem be_eq : dataBeO p.lsu (lsuInputs p i) = dataBe r.type second (lane r.addr) := by
  rw [dataBeO, placed.offset, placed.handle]
  exact congrArg (dataBe · second (lane r.addr)) (congrArg Request.type placed.shown)

theorem wdata_eq : dataWdataO (lsuInputs p i) = dataWdata (lane r.addr) r.wdata := by
  rw [dataWdataO, placed.offset]
  exact congrArg (dataWdata _) (congrArg Request.wdata placed.shown)

/-- The unit latches the request. -/
theorem latched (update : (fsm p.lsu (lsuInputs p i)).ctrlUpdate = true) :
    Latched r (step p i).lsu := by
  refine ⟨?_, ?_, ?_, ?_⟩
  · exact (if_pos update).trans placed.offset
  · exact (if_pos update).trans (congrArg Request.type placed.shown)
  · exact (if_pos update).trans (congrArg Request.signExt placed.shown)
  · exact (if_pos update).trans (congrArg Request.we placed.shown)

end Placed

/-- What was latched stays. -/
theorem Latched.keep (latched : Latched r p.lsu)
    (silent : (fsm p.lsu (lsuInputs p i)).ctrlUpdate = false) : Latched r (step p i).lsu := by
  have no : ¬ (fsm p.lsu (lsuInputs p i)).ctrlUpdate = true := by simp [silent]
  refine ⟨?_, ?_, ?_, ?_⟩
  · exact (if_neg no).trans latched.offset
  · exact (if_neg no).trans latched.type
  · exact (if_neg no).trans latched.signExt
  · exact (if_neg no).trans latched.we

/-- Nothing is on its way. -/
structure Quiet (p : State) : Prop where
  phase : p.lsu.lsFsmCs = .idle
  single : p.multi = false
  handle : p.lsu.handleMisalignedQ = false
  pmpErr : p.lsu.pmpErrQ = false
  lsuErr : p.lsu.lsuErrQ = false

/-- The request `r` is at a stage. -/
structure At (r : Request) (x : Stage) (p : State) : Prop where
  multi : p.multi = true
  held : p.held = r
  pmpErr : p.lsu.pmpErrQ = false
  lsuErr : p.lsu.lsuErrQ = false
  phase : p.lsu.lsFsmCs = x.phase r.split
  handle : p.lsu.handleMisalignedQ = (x.asks == some true)
  split : x ≠ .first → x ≠ .last → r.split = true
  last : x.asks = some true → p.lsu.addrLastQ = r.addr
  latched : x ≠ .first → Latched r p.lsu

/-- The state machine's signals at a stage. -/
structure Drives (r : Request) (x : Stage) (i : Inputs) (c : Control) : Prop where
  next : c.lsFsmNs = (x.next r.split i.gnt i.rvalid).phase r.split
  req : c.dataReqO = x.asks.isSome
  handle : c.handleMisalignedD = ((x.next r.split i.gnt i.rvalid).asks == some true)
  pmpErr : c.pmpErrD = false
  lsuErr : c.lsuErrD = false
  addr : c.addrUpdate = x.addrUpdate i.gnt i.rvalid
  ctrl : c.ctrlUpdate = x.ctrlUpdate i.gnt
  rdata : c.rdataUpdate = (x.answersFirst && i.rvalid && !r.we)

/-- From the signals to the next stage. -/
theorem Drives.step (drives : Drives r x i (fsm p.lsu (lsuInputs p i)))
    (shown : shown p i = r) (multi : (step p i).multi = true)
    (placed : ∀ second, x.asks = some second → Placed r second p i)
    (incr : x = .first → addrIncrReqO p.lsu = false)
    (split : x ≠ .first → x ≠ .last → r.split = true)
    (last : x.asks = some true → p.lsu.addrLastQ = r.addr)
    (latched : x ≠ .first → Latched r p.lsu) :
    At r (x.next r.split i.gnt i.rvalid) (step p i) := by
  refine ⟨multi, shown, drives.pmpErr, drives.lsuErr, drives.next, drives.handle, ?_, ?_, ?_⟩
  · intro began goes
    cases x with
    | first =>
        by_contra whole
        rw [Bool.not_eq_true] at whole
        simp only [Stage.next, whole] at began goes
        cases gnt : i.gnt <;> simp [gnt] at began goes
    | both => exact split (by decide) (by decide)
    | second => exact split (by decide) (by decide)
    | taken => exact split (by decide) (by decide)
    | last => exact absurd rfl goes
  · intro asks
    show (if (fsm p.lsu (lsuInputs p i)).addrUpdate then
      (if addrIncrReqO p.lsu then _ else adderResult p i) else p.lsu.addrLastQ) = _
    rw [drives.addr]
    cases x with
    | first =>
        rw [incr rfl, if_neg Bool.false_ne_true, (placed false rfl).address]
        cases gnt : i.gnt with
        | true => rfl
        | false => simp [gnt] at asks
    | both =>
        cases gnt : i.gnt <;> cases valid : i.rvalid <;>
          simp [gnt, valid] at asks
        · exact last rfl
        · exact last rfl
    | second =>
        cases gnt : i.gnt with
        | true => simp [gnt] at asks
        | false => exact last rfl
    | taken => cases valid : i.rvalid <;> simp [valid] at asks
    | last => simp at asks
  · intro began
    cases update : (fsm p.lsu (lsuInputs p i)).ctrlUpdate with
    | true =>
        have which := drives.ctrl
        rw [update] at which
        cases x with
        | first => exact (placed false rfl).latched update
        | second => exact (placed true rfl).latched update
        | both => cases which
        | taken => cases which
        | last => cases which
    | false =>
        refine Latched.keep (latched ?_) update
        rintro rfl
        have refused : i.gnt = false := drives.ctrl.symm.trans update
        exact began (by rw [Stage.next, refused, if_neg Bool.false_ne_true])

/-- The signals in the first cycle of a load or a store. -/
theorem Quiet.drives (quiet : Quiet p) (valid : i.valid = true) :
    Placed i.request false p i ∧ addrIncrReqO p.lsu = false ∧
      Drives i.request .first i (fsm p.lsu (lsuInputs p i)) := by
  have incr : addrIncrReqO p.lsu = false := by rw [addrIncrReqO, quiet.phase]
  have shown : shown p i = i.request := by
    rw [LoadStorePipeline.shown, quiet.single, if_neg Bool.false_ne_true]
  have placed : Placed i.request false p i := by
    refine ⟨shown, ?_, quiet.handle⟩
    rw [adderResult, incr, if_neg Bool.false_ne_true, shown]
    rfl
  have asks : (lsuInputs p i).lsuReqI = true := by
    show (i.valid && !p.multi) = true
    rw [valid, quiet.single]
    rfl
  have gnt : (lsuInputs p i).dataGntI = i.gnt := rfl
  have control := fsm.eq_def p.lsu (lsuInputs p i)
  rw [quiet.phase] at control
  simp only [asks, if_pos, gnt, placed.split, quiet.handle] at control
  refine ⟨placed, incr, ?_⟩
  rw [control]
  refine ⟨?_, rfl, ?_, rfl, rfl, rfl, rfl, rfl⟩
  · cases i.gnt <;> cases i.request.split <;> rfl
  · cases i.gnt <;> cases i.request.split <;> rfl

/-- The first cycle is one of the first stage. -/
theorem Quiet.start (quiet : Quiet p) (valid : i.valid = true) :
    At i.request (Stage.first.next i.request.split i.gnt i.rvalid) (step p i) := by
  obtain ⟨placed, incr, drives⟩ := quiet.drives valid
  refine drives.step placed.shown ?_ ?_ (fun _ => incr) ?_ ?_ ?_
  · show (if p.multi then _ else i.valid) = true
    rw [quiet.single, if_neg Bool.false_ne_true, valid]
  · intro second asks
    obtain rfl := Option.some.inj asks
    exact placed
  · intro other
    exact absurd rfl other
  · intro other
    cases other
  · intro other
    exact absurd rfl other

/-- A cycle without a load or a store. -/
theorem Quiet.rest (quiet : Quiet p) (none : i.valid = false) :
    requests p i = false ∧ Quiet (step p i) := by
  have silent : (lsuInputs p i).lsuReqI = false := by
    show (i.valid && !p.multi) = false
    rw [none, Bool.false_and]
  have control : fsm p.lsu (lsuInputs p i) = { defaults p.lsu with pmpErrD := false } := by
    rw [fsm, quiet.phase]
    simp only [silent, if_neg Bool.false_ne_true]
  refine ⟨by rw [requests, dataReqO, control]; rfl, ⟨?_, ?_, ?_, ?_, ?_⟩⟩
  · show (fsm p.lsu (lsuInputs p i)).lsFsmNs = .idle
    rw [control]
    exact quiet.phase
  · show (if p.multi then _ else i.valid) = false
    rw [quiet.single, if_neg Bool.false_ne_true, none]
  · show (fsm p.lsu (lsuInputs p i)).handleMisalignedD = false
    rw [control]
    exact quiet.handle
  · show (fsm p.lsu (lsuInputs p i)).pmpErrD = false
    rw [control]
  · show (fsm p.lsu (lsuInputs p i)).lsuErrD = false
    rw [control]
    exact quiet.lsuErr

theorem Quiet.responds (quiet : Quiet p) (i : Inputs) :
    LoadStorePipeline.responds p i = i.rvalid := by
  rw [LoadStorePipeline.responds, lsuRespValidO, quiet.pmpErr, quiet.phase]
  simp [lsuInputs]

namespace At

variable (here : At r x p)

include here

theorem shown : shown p i = r := by
  rw [LoadStorePipeline.shown, here.multi, if_pos rfl, here.held]

theorem incr : addrIncrReqO p.lsu = (x.asks == some true || x == .taken) := by
  rw [addrIncrReqO, here.phase, here.handle]
  cases x <;> cases r.split <;> rfl

/-- The access that is requested is in its place. -/
theorem placed {second : Bool} (asks : x.asks = some second) : Placed r second p i := by
  have incr := here.incr
  have handle := here.handle
  rw [asks] at incr handle
  refine ⟨here.shown, ?_, ?_⟩
  · rw [adderResult, incr, here.shown]
    cases second with
    | true =>
        rw [here.last asks]
        rfl
    | false =>
        have other : x ≠ .taken := by
          rintro rfl
          cases asks
        simp [other]
  · rw [handle]
    cases second <;> rfl

theorem responds : responds p i = (x == .last && i.rvalid) := by
  have idle : (x.phase r.split == .idle) = (x == .last) := by
    cases x <;> cases r.split <;> rfl
  rw [LoadStorePipeline.responds, lsuRespValidO, here.pmpErr, here.phase, idle]
  show ((i.rvalid || false) && _) = _
  rw [Bool.or_false, Bool.and_comm]

/-- The signals at a stage. -/
theorem drives : Drives r x i (fsm p.lsu (lsuInputs p i)) := by
  have gnt : (lsuInputs p i).dataGntI = i.gnt := rfl
  have silent : (lsuInputs p i).lsuReqI = false := by
    show (i.valid && !p.multi) = false
    rw [here.multi, Bool.not_true, Bool.and_false]
  have phase := here.phase
  have pmp := here.pmpErr
  have err := here.lsuErr
  have handle := here.handle
  cases x with
  | first =>
      have control : fsm p.lsu (lsuInputs p i) =
          if i.gnt then
            { defaults p.lsu with
              dataReqO := true
              addrUpdate := true
              ctrlUpdate := true
              handleMisalignedD := r.split
              lsFsmNs := if r.split then .waitRvalidMis else .idle }
          else { defaults p.lsu with dataReqO := true } := by
        rw [fsm, phase, Stage.phase]
        cases r.split <;> simp [gnt, pmp, err]
      rw [control]
      cases grant : i.gnt with
      | false => constructor <;> simp [defaults, grant, phase, pmp, err, handle]
      | true =>
          cases split : r.split <;> constructor <;>
            simp [defaults, grant, pmp, err, split]
  | both =>
      rw [fsm, phase]
      have we := (here.latched (by decide)).we
      cases grant : i.gnt <;> cases answered : i.rvalid <;> constructor <;>
        simp [defaults, grant, answered, phase, pmp, err, handle, we, lsuInputs]
  | second =>
      rw [fsm, phase]
      cases grant : i.gnt <;> constructor <;>
        simp [defaults, gnt, grant, phase, pmp, err, handle]
  | taken =>
      rw [fsm, phase]
      have we := (here.latched (by decide)).we
      cases answered : i.rvalid <;> constructor <;>
        simp [defaults, answered, phase, pmp, err, handle, we, lsuInputs]
  | last =>
      rw [fsm, phase]
      constructor <;> simp [defaults, silent, phase, err, handle]

theorem requests : requests p i = x.asks.isSome := here.drives.req

/-- **One cycle of a load or a store** that is not over. -/
theorem step (goes : LoadStorePipeline.responds p i = false) :
    At r (x.next r.split i.gnt i.rvalid) (step p i) := by
  refine here.drives.step here.shown ?_ (fun _ => here.placed) ?_ here.split here.last here.latched
  · show (if p.multi then !LoadStorePipeline.responds p i else i.valid) = true
    rw [here.multi, if_pos rfl, goes]
    rfl
  · rintro rfl
    exact here.incr

/-- Of the first answer to a load the upper three bytes are kept. -/
theorem rdataQ : (LoadStorePipeline.step p i).lsu.rdataQ =
    if x.answersFirst && i.rvalid && !r.we then i.rdata.extractLsb' 8 24 else p.lsu.rdataQ := by
  rw [← here.drives.rdata]
  rfl

end At

section Last

variable (here : At r .last p) (answered : i.rvalid = true)

include here answered

/-- The last answer is the response. -/
theorem At.finish : LoadStorePipeline.responds p i = true ∧ Quiet (LoadStorePipeline.step p i) := by
  have drives := here.drives (i := i)
  have ended : LoadStorePipeline.responds p i = true := by
    rw [here.responds, answered]
    rfl
  refine ⟨ended, drives.next, ?_, drives.handle, drives.pmpErr, drives.lsuErr⟩
  show (if p.multi then !LoadStorePipeline.responds p i else i.valid) = false
  rw [here.multi, if_pos rfl, ended]
  rfl

/-- What is reported with it. -/
theorem At.reports : lsuRdataValidO p.lsu (lsuInputs p i) = !r.we ∧
    loadErrO p.lsu (lsuInputs p i) = false ∧ storeErrO p.lsu (lsuInputs p i) = false := by
  have noErr : dataOrPmpErr p.lsu (lsuInputs p i) = false := by
    rw [dataOrPmpErr, here.lsuErr, here.pmpErr]
    rfl
  refine ⟨?_, ?_, ?_⟩
  · rw [lsuRdataValidO, here.phase, noErr, (here.latched (by decide)).we]
    show (true && i.rvalid && true && !r.we) = _
    rw [answered, Bool.true_and, Bool.true_and, Bool.true_and]
  · rw [loadErrO, noErr]
    rfl
  · rw [storeErrO, noErr]
    rfl

end Last

end Cycle

end MiniMac.Ibex.LoadStorePipeline
