/-
# System.ProcessorPort -- the load/store unit on the chip

The unit drives the chip's data port, and the port's grants and answers drive the unit.  Of
the chip the unit meets the response mux, the phase of the bridge and the two response flags
(`Line`), and together with the stage of a load or a store these run by themselves
(`Visit`).  So every load and store takes a number of cycles that its addresses say
(`latency`), but for one kind: a split one whose first word is the last of the peripherals
has its first answer overtaken, and waits for ever.
-/
import MiniMac.Ibex.LoadStorePipeline
import MiniMac.Soc.SocTop

namespace MiniMac.System.ProcessorPort

open MiniMac.Theory MiniMac.Bus MiniMac.Core MiniMac.Ibex MiniMac.Soc
open LoadStorePipeline (Stage At Quiet Placed)

set_option autoImplicit false

/-- What is open in a cycle. -/
structure Env where
  /-- A load or a store is executed. -/
  valid : Bool
  /-- What the decoder shows the unit. -/
  request : Request
  instrReq : Bool
  instrAddr : BitVec 32
  unknown : BitVec 32

structure State extends LoadStorePipeline.State where
  chip : SocTop.State

/-- The unit's inputs but for the port's, which depend on its request. -/
def issue (e : Env) : LoadStorePipeline.Inputs where
  valid := e.valid
  request := e.request
  gnt := false
  rvalid := false
  rdata := 0

def lsuInputs (c : State) (e : Env) : LoadStoreUnit.Inputs :=
  LoadStorePipeline.lsuInputs c.toState (issue e)

def inputs (c : State) (e : Env) : SocTop.Inputs where
  instrReq := e.instrReq
  instrAddr := e.instrAddr
  cpuReq := LoadStorePipeline.requests c.toState (issue e)
  cpuWe := (lsuInputs c e).lsuWeI
  cpuBe := LoadStoreUnit.dataBeO c.lsu (lsuInputs c e)
  cpuAddr := LoadStoreUnit.dataAddrO (lsuInputs c e)
  cpuWdata := LoadStoreUnit.dataWdataO (lsuInputs c e)
  unknown := e.unknown

def port (c : State) (e : Env) : LoadStorePipeline.Inputs where
  valid := e.valid
  request := e.request
  gnt := SocTop.cpuGnt c.chip (inputs c e)
  rvalid := SocTop.cpuRvalid c.chip
  rdata := SocTop.cpuRdata c.chip (inputs c e)

/-- The response of the cycle is the last of a load or a store. -/
def responds (c : State) (e : Env) : Bool := LoadStorePipeline.responds c.toState (port c e)

def step (rom : BitVec 10 → BitVec 32) (c : State) (e : Env) : State where
  toState := LoadStorePipeline.step c.toState (port c e)
  chip := SocTop.step rom c.chip (inputs c e)

def reset (s₀ : SocTop.State) (held : Request) : State where
  toState := LoadStorePipeline.reset held
  chip := SocTop.reset s₀

/-! ## What the unit meets of the chip -/

structure Line where
  cpuResponseFromPeriph : Bool
  phase : ObiToApb.Phase
  obiRvalid : Bool
  cpuRvalid : Bool
  deriving DecidableEq

namespace Line

variable (l : Line)

def rvalid : Bool := if l.cpuResponseFromPeriph then l.obiRvalid else l.cpuRvalid

/-- A request of memory or of the peripherals is granted. -/
def gnt (periph : Bool) : Bool := if periph then l.phase == .idle else true

def next (request : Option Bool) : Line where
  cpuResponseFromPeriph :=
    match request with
    | some periph => if l.gnt periph then periph else l.cpuResponseFromPeriph
    | none => l.cpuResponseFromPeriph
  phase :=
    match l.phase with
    | .idle => if request = some true then .setup else .idle
    | .setup => .access
    | .access => .idle
  obiRvalid :=
    match l.phase with
    | .idle => false
    | .setup => l.obiRvalid
    | .access => true
  cpuRvalid := decide (request = some false)

/-- Nobody is answered, and the bridge is free. -/
def quiet (fromPeriph : Bool) : Line := ⟨fromPeriph, .idle, false, false⟩

end Line

def lineOf (s : SocTop.State) : Line where
  cpuResponseFromPeriph := s.cpuResponseFromPeriph
  phase := s.bridge.state
  obiRvalid := s.bridge.obiRvalid
  cpuRvalid := s.mem.cpuRvalid

/-- The way of the cycle's request. -/
def wayOf (i : SocTop.Inputs) : Option Bool :=
  if i.cpuReq then some (SocTop.cpuIsPeriph i) else none

section Chip

variable (rom : BitVec 10 → BitVec 32) (s : SocTop.State) (i : SocTop.Inputs)

theorem gnt_eq : SocTop.cpuGnt s i =
    match wayOf i with
    | some periph => (lineOf s).gnt periph
    | none => false := by
  rw [SocTop.cpuGnt, wayOf]
  cases req : i.cpuReq with
  | false => rfl
  | true =>
      cases periph : SocTop.cpuIsPeriph i <;>
        simp [Line.gnt, lineOf, ObiToApb.obiGnt, SocTop.bridgeInputs, periph]

theorem way_periph : (wayOf i = some true) ↔ SocTop.cpuIsPeriph i = true := by
  rw [wayOf]
  cases req : i.cpuReq <;> simp [SocTop.cpuIsPeriph, req]

theorem way_memory : (wayOf i = some false) ↔ SocTop.cpuIsMem i = true := by
  rw [wayOf, SocTop.cpuIsMem]
  cases req : i.cpuReq <;> simp [SocTop.cpuIsPeriph, req]

theorem mux_step : (SocTop.step rom s i).cpuResponseFromPeriph =
    ((lineOf s).next (wayOf i)).cpuResponseFromPeriph := by
  show (if i.cpuReq && SocTop.cpuGnt s i then SocTop.cpuIsPeriph i else _) = _
  rw [gnt_eq, wayOf]
  cases req : i.cpuReq with
  | false => rfl
  | true => rfl

theorem bridge_step :
    (SocTop.step rom s i).bridge.state = ((lineOf s).next (wayOf i)).phase ∧
      (SocTop.step rom s i).bridge.obiRvalid = ((lineOf s).next (wayOf i)).obiRvalid := by
  show (ObiToApb.step s.bridge (SocTop.bridgeInputs s i)).state = _ ∧
    (ObiToApb.step s.bridge (SocTop.bridgeInputs s i)).obiRvalid = _
  have way := way_periph i
  simp only [Line.next, lineOf]
  cases phase : s.bridge.state with
  | idle =>
      cases req : SocTop.cpuIsPeriph i with
      | false =>
          have other : wayOf i ≠ some true := fun same => by
            rw [way.mp same] at req
            cases req
          rw [ObiToApb.step_idle phase req]
          simp [phase, other]
      | true =>
          rw [ObiToApb.step_accept phase req]
          simp [way.mpr req]
  | setup =>
      rw [ObiToApb.step_setup phase]
      simp
  | access =>
      rw [ObiToApb.step_access phase (SocTop.bus_ready s i)]
      simp

theorem lineOf_step : lineOf (SocTop.step rom s i) = (lineOf s).next (wayOf i) := by
  obtain ⟨phase, obi⟩ := bridge_step rom s i
  have memory : (SocTop.step rom s i).mem.cpuRvalid = decide (wayOf i = some false) := by
    rw [Bool.eq_iff_iff, decide_eq_true_iff, way_memory]
    exact Iff.rfl
  rw [lineOf, mux_step, phase, obi, memory]
  rfl

end Chip

/-! ## A load or a store and the line -/

/-- Whether an access goes to the peripherals. -/
def toPeriph (r : Request) (second : Bool) : Bool :=
  (r.index second).extractLsb' 18 12 == 0x400#12

structure Visit where
  stage : Stage
  line : Line
  deriving DecidableEq

namespace Visit

variable (split : Bool) (periph : Bool → Bool) (v : Visit)

def request : Option Bool := v.stage.asks.map periph

def gnt : Bool :=
  match v.request periph with
  | some periph => v.line.gnt periph
  | none => false

def responds : Bool := v.stage == .last && v.line.rvalid

def next : Visit where
  stage := v.stage.next split (v.gnt periph) v.line.rvalid
  line := v.line.next (v.request periph)

/-- The first cycle. -/
def first (fromPeriph : Bool) : Visit := ⟨.first, .quiet fromPeriph⟩

/-- The cycles from there on. -/
def after (fromPeriph : Bool) (n : ℕ) : Visit := (next split periph)^[n] (first fromPeriph)

theorem after_succ (fromPeriph : Bool) (n : ℕ) : after split periph fromPeriph (n + 1) =
    (after split periph fromPeriph n).next split periph :=
  Function.iterate_succ_apply' _ _ _

/-- The cycles between the first and the one of the response. -/
def latency : Option ℕ :=
  match split, periph false, periph true with
  | false, false, _ => some 1
  | false, true, _ => some 3
  | true, false, false => some 2
  | true, false, true => some 4
  | true, true, true => some 6
  | true, true, false => none

theorem eq_ways : periph = fun second => if second then periph true else periph false := by
  funext second
  cases second <;> rfl

variable {split periph}

/-- The response comes after that many cycles, and leaves a quiet line. -/
theorem after_latency {n : ℕ} (finite : latency split periph = some n) (fromPeriph : Bool) :
    0 < n ∧ (∀ k < n, (after split periph fromPeriph k).responds = false) ∧
      (after split periph fromPeriph n).responds = true ∧
      ∃ fromPeriph', ((after split periph fromPeriph n).line.next none) = .quiet fromPeriph' := by
  rw [eq_ways periph] at finite ⊢
  generalize periph false = way at finite ⊢
  generalize periph true = way' at finite ⊢
  cases split <;> cases way <;> cases way' <;> cases finite <;> cases fromPeriph <;> decide

/-- A response that is overtaken does not come. -/
theorem after_overtaken (never : latency split periph = none) (fromPeriph : Bool) (n : ℕ) :
    (after split periph fromPeriph n).responds = false := by
  rw [eq_ways periph] at never ⊢
  generalize periph false = way at never ⊢
  generalize periph true = way' at never ⊢
  obtain ⟨rfl, rfl, rfl⟩ : split = true ∧ way = true ∧ way' = false := by
    revert split way way'
    decide
  have waits : ∀ k, after true (fun second => if second then false else true) fromPeriph (4 + k) =
      ⟨.last, .quiet false⟩ := by
    intro k
    induction k with
    | zero => cases fromPeriph <;> decide
    | succ k ih =>
        rw [← Nat.add_assoc, after_succ, ih]
        decide
  rcases Nat.lt_or_ge n 4 with early | late
  · obtain rfl | rfl | rfl | rfl : n = 0 ∨ n = 1 ∨ n = 2 ∨ n = 3 := by omega
    all_goals cases fromPeriph <;> decide
  · obtain ⟨k, rfl⟩ := Nat.exists_eq_add_of_le late
    rw [waits]
    rfl

end Visit

/-! ## One cycle -/

theorem page_append (x : BitVec 30) :
    (x ++ 0b00#2).extractLsb' 20 12 = x.extractLsb' 18 12 :=
  BitVec.extractLsb'_append_eq_of_le (by omega)

section Cycle

variable {rom : BitVec 10 → BitVec 32} {c : State} {e : Env} {r : Request} {v : Visit}
  {fromPeriph : Bool}

/-- The chip sees the request of the stage. -/
theorem way_eq {x : Stage}
    (request : LoadStorePipeline.requests c.toState (issue e) = x.asks.isSome)
    (placed : ∀ second, x.asks = some second → Placed r second c.toState (issue e)) :
    wayOf (inputs c e) = x.asks.map (toPeriph r) := by
  have req : (inputs c e).cpuReq = x.asks.isSome := request
  rw [wayOf, req]
  cases asks : x.asks with
  | none => rfl
  | some second =>
      have addr : (inputs c e).cpuAddr = r.index second ++ 0b00#2 :=
        (placed second asks).address_eq
      have page : SocTop.cpuIsPeriph (inputs c e) = toPeriph r second := by
        rw [SocTop.cpuIsPeriph, req, asks, addr, page_append]
        rfl
      rw [page]
      rfl

/-- A load or a store at its stage, in front of the chip. -/
structure Shows (r : Request) (v : Visit) (c : State) : Prop where
  stage : At r v.stage c.toState
  line : lineOf c.chip = v.line

/-- Nothing is on its way. -/
structure Rests (fromPeriph : Bool) (c : State) : Prop where
  quiet : Quiet c.toState
  line : lineOf c.chip = .quiet fromPeriph

namespace Shows

variable (shows : Shows r v c)

include shows

theorem way (e : Env) : wayOf (inputs c e) = v.request (toPeriph r) :=
  way_eq shows.stage.requests fun _ => shows.stage.placed

theorem rvalid (e : Env) : (port c e).rvalid = v.line.rvalid := by
  rw [← shows.line]
  rfl

theorem gnt (e : Env) : (port c e).gnt = v.gnt (toPeriph r) := by
  show SocTop.cpuGnt c.chip (inputs c e) = _
  rw [gnt_eq, shows.way, shows.line]
  rfl

theorem responds (e : Env) : responds c e = v.responds := by
  rw [ProcessorPort.responds, shows.stage.responds, shows.rvalid]
  rfl

theorem step (goes : v.responds = false) :
    Shows r (v.next r.split (toPeriph r)) (step rom c e) := by
  have next := shows.stage.step (i := port c e) ((shows.responds e).trans goes)
  rw [shows.gnt, shows.rvalid] at next
  refine ⟨next, ?_⟩
  show lineOf (SocTop.step rom c.chip (inputs c e)) = _
  rw [lineOf_step, shows.way, shows.line]
  rfl

theorem finish (rom : BitVec 10 → BitVec 32) (e : Env) (ended : v.responds = true) :
    Quiet (ProcessorPort.step rom c e).toState ∧
      lineOf (ProcessorPort.step rom c e).chip = v.line.next none := by
  obtain ⟨last, up⟩ := Bool.and_eq_true_iff.mp ended
  have stage := shows.stage
  have way := shows.way e
  rw [Visit.request, eq_of_beq last] at way
  rw [eq_of_beq last] at stage
  refine ⟨(stage.finish (i := port c e) ((shows.rvalid e).trans up)).2, ?_⟩
  show lineOf (SocTop.step rom c.chip (inputs c e)) = _
  rw [lineOf_step, way, shows.line]
  rfl

end Shows

namespace Rests

variable (rests : Rests fromPeriph c)

include rests

/-- The first cycle of a load or a store. -/
theorem start (valid : e.valid = true) : Shows e.request
    ((Visit.first fromPeriph).next e.request.split (toPeriph e.request)) (step rom c e) := by
  obtain ⟨placed, -, drives⟩ := rests.quiet.drives (i := issue e) valid
  have way : wayOf (inputs c e) = (Visit.first fromPeriph).request (toPeriph e.request) :=
    way_eq (x := .first) drives.req fun second asks => Option.some.inj asks ▸ placed
  have gnt : (port c e).gnt = (Visit.first fromPeriph).gnt (toPeriph e.request) := by
    show SocTop.cpuGnt c.chip (inputs c e) = _
    rw [gnt_eq, way, rests.line]
    rfl
  have rvalid : (port c e).rvalid = (Line.quiet fromPeriph).rvalid := by
    rw [← rests.line]
    rfl
  have next := rests.quiet.start (i := port c e) valid
  rw [gnt, rvalid] at next
  refine ⟨next, ?_⟩
  show lineOf (SocTop.step rom c.chip (inputs c e)) = _
  rw [lineOf_step, way, rests.line]
  rfl

/-- A cycle without one. -/
theorem rest (none : e.valid = false) : Rests fromPeriph (step rom c e) := by
  obtain ⟨silent, -⟩ := rests.quiet.rest (i := issue e) none
  have way : wayOf (inputs c e) = Option.none := by
    rw [wayOf]
    exact if_neg (by rw [show (inputs c e).cpuReq = false from silent]; exact Bool.false_ne_true)
  refine ⟨(rests.quiet.rest (i := port c e) none).2, ?_⟩
  show lineOf (SocTop.step rom c.chip (inputs c e)) = _
  rw [lineOf_step, way, rests.line]
  rfl

end Rests

end Cycle

/-! ## A run -/

/-- The way of a load or a store, cycle by cycle. -/
def visitOf (r : Request) (fromPeriph : Bool) (n : ℕ) : Visit :=
  Visit.after r.split (toPeriph r) fromPeriph n

theorem visitOf_succ (r : Request) (fromPeriph : Bool) (n : ℕ) : visitOf r fromPeriph (n + 1) =
    (visitOf r fromPeriph n).next r.split (toPeriph r) :=
  Visit.after_succ _ _ _ _

/-- It has no response in its first cycles. -/
def Silent (r : Request) (fromPeriph : Bool) (k : ℕ) : Prop :=
  ∀ j, 0 < j → j ≤ k → (visitOf r fromPeriph j).responds = false

namespace Silent

variable {r : Request} {fromPeriph : Bool} {j k : ℕ}

theorem zero : Silent r fromPeriph 0 := fun _ pos none => absurd pos (Nat.not_lt.mpr none)

theorem mono (silent : Silent r fromPeriph k) (within : j ≤ k) : Silent r fromPeriph j :=
  fun l pos upto => silent l pos (upto.trans within)

theorem succ (silent : Silent r fromPeriph k)
    (next : (visitOf r fromPeriph (k + 1)).responds = false) : Silent r fromPeriph (k + 1) := by
  intro j pos within
  rcases Nat.lt_or_ge j (k + 1) with earlier | now
  · exact silent j pos (by omega)
  · obtain rfl : j = k + 1 := by omega
    exact next

/-- The response behind them is the one that the latency foretells. -/
theorem answered (silent : Silent r fromPeriph k)
    (ended : (visitOf r fromPeriph (k + 1)).responds = true) :
    Visit.latency r.split (toPeriph r) = some (k + 1) := by
  cases length : Visit.latency r.split (toPeriph r) with
  | none =>
      have never := Visit.after_overtaken length fromPeriph (k + 1)
      exact absurd (never.symm.trans ended) Bool.false_ne_true
  | some n =>
      obtain ⟨pos, before, comes, -⟩ := Visit.after_latency length fromPeriph
      rcases Nat.lt_trichotomy n (k + 1) with low | same | high
      · exact absurd ((silent n pos (by omega)).symm.trans comes) Bool.false_ne_true
      · exact congrArg some same
      · exact absurd ((before (k + 1) high).symm.trans ended) Bool.false_ne_true

end Silent

section Runs

variable (rom : BitVec 10 → BitVec 32) (s₀ : SocTop.State) (held₀ : Request) (env : ℕ → Env)

def after (t : ℕ) : State := Clocked.run (step rom) (reset s₀ held₀) env t

/-- The load or the store of a cycle gets its response. -/
def respondsAt (t : ℕ) : Bool := responds (after rom s₀ held₀ env t) (env t)

/-- The load or the store of cycle `t` is held in a later one. -/
def HeldAt (t u : ℕ) : Prop :=
  (after rom s₀ held₀ env u).multi = true ∧ (after rom s₀ held₀ env u).held = (env t).request

/-- The load or the store of cycle `t` has its response `n` cycles later. -/
structure Takes (t n : ℕ) : Prop where
  waits : ∀ u, t < u → u < t + n → respondsAt rom s₀ held₀ env u = false
  comes : respondsAt rom s₀ held₀ env (t + n) = true
  held : ∀ u, t < u → u ≤ t + n → HeldAt rom s₀ held₀ env t u
  free : (after rom s₀ held₀ env (t + n + 1)).multi = false

/-- It is held for ever, without a response. -/
def Hangs (t : ℕ) : Prop :=
  ∀ u, t < u → respondsAt rom s₀ held₀ env u = false ∧ HeldAt rom s₀ held₀ env t u

variable {rom s₀ held₀ env}

/-- The way of a load or a store up to its response. -/
theorem shows_after {t : ℕ} {fromPeriph : Bool}
    (rests : Rests fromPeriph (after rom s₀ held₀ env t)) (valid : (env t).valid = true) (k : ℕ)
    (silent : Silent (env t).request fromPeriph k) :
    Shows (env t).request (visitOf (env t).request fromPeriph (k + 1))
      (after rom s₀ held₀ env (t + (k + 1))) := by
  induction k with
  | zero => exact rests.start valid
  | succ k ih =>
      have shows := ih (silent.mono (Nat.le_succ k))
      rw [visitOf_succ]
      exact shows.step (silent (k + 1) (by omega) (le_refl _))

variable (rom s₀ held₀ env) in
/-- Where the processor's port is in a cycle. -/
inductive Where (t : ℕ) : Prop
  | rests {fromPeriph : Bool} (rests : Rests fromPeriph (after rom s₀ held₀ env t)) : Where t
  | visits {t₀ k : ℕ} {fromPeriph : Bool} (began : Rests fromPeriph (after rom s₀ held₀ env t₀))
      (valid : (env t₀).valid = true) (now : t = t₀ + (k + 1))
      (silent : Silent (env t₀).request fromPeriph k) : Where t

theorem where_succ {t : ℕ} (here : Where rom s₀ held₀ env t) : Where rom s₀ held₀ env (t + 1) := by
  cases here with
  | rests rests =>
      cases valid : (env t).valid with
      | false => exact .rests (rests.rest valid)
      | true => exact .visits rests valid rfl .zero
  | @visits t₀ k fromPeriph began valid now silent =>
      subst now
      have shows := shows_after began valid k silent
      cases ended : (visitOf (env t₀).request fromPeriph (k + 1)).responds with
      | false => exact .visits began valid rfl (silent.succ ended)
      | true =>
          obtain ⟨-, -, -, fromPeriph', leaves⟩ :=
            Visit.after_latency (silent.answered ended) fromPeriph
          obtain ⟨quiet, line⟩ := shows.finish rom (env _) ended
          exact .rests ⟨quiet, line.trans leaves⟩

variable (rom s₀ held₀ env) in
theorem where_all (t : ℕ) : Where rom s₀ held₀ env t := by
  induction t with
  | zero =>
      have line : lineOf (after rom s₀ held₀ env 0).chip = .quiet false := rfl
      exact .rests ⟨⟨rfl, rfl, rfl, rfl, rfl⟩, line⟩
  | succ t ih => exact where_succ ih

theorem rests_of_single {t : ℕ} (single : (after rom s₀ held₀ env t).multi = false) :
    ∃ fromPeriph, Rests fromPeriph (after rom s₀ held₀ env t) := by
  cases where_all rom s₀ held₀ env t with
  | rests rests => exact ⟨_, rests⟩
  | visits began valid now silent =>
      subst now
      have multi := (shows_after began valid _ silent).stage.multi
      exact absurd (single.symm.trans multi) Bool.false_ne_true

/-- The cycles that a load or a store takes on the chip. -/
def latency (r : Request) : Option ℕ := Visit.latency r.split (toPeriph r)

/-- The last word of the peripherals. -/
theorem page_leaves (w : BitVec 30) : (w.extractLsb' 18 12 = 0x400#12 ∧
    (w + 1).extractLsb' 18 12 ≠ 0x400#12) ↔ w = 0x1003FFFF#30 := by
  have bound := w.isLt
  have top (x : BitVec 30) : x.extractLsb' 18 12 = 0x400#12 ↔ x.toNat / 262144 % 4096 = 0x400 := by
    rw [← BitVec.toNat_inj, BitVec.extractLsb'_toNat, Nat.shiftRight_eq_div_pow]
    rfl
  rw [ne_eq, top, top, BitVec.toNat_add, ← BitVec.toNat_inj]
  show _ ∧ ¬ (w.toNat + 1) % 1073741824 / 262144 % 4096 = 0x400 ↔ w.toNat = 0x1003FFFF
  omega

theorem latency_none_iff (r : Request) :
    latency r = none ↔ r.split = true ∧ r.index false = 0x1003FFFF#30 := by
  rw [← page_leaves]
  have first : toPeriph r false = true ↔ (r.index false).extractLsb' 18 12 = 0x400#12 := beq_iff_eq
  have second : toPeriph r true = true ↔ (r.index false + 1).extractLsb' 18 12 = 0x400#12 :=
    beq_iff_eq
  rw [← first, ne_eq, ← second, latency, Visit.latency.eq_def]
  cases r.split <;> cases toPeriph r false <;> cases toPeriph r true <;> simp

section Access

variable {t : ℕ} (single : (after rom s₀ held₀ env t).multi = false)
  (valid : (env t).valid = true)

include single valid

theorem takes {n : ℕ} (finite : latency (env t).request = some n) :
    Takes rom s₀ held₀ env t n := by
  obtain ⟨fromPeriph, rests⟩ := rests_of_single single
  obtain ⟨pos, before, comes, fromPeriph', leaves⟩ := Visit.after_latency finite fromPeriph
  have shows (k : ℕ) (within : k < n) := shows_after rests valid k
    fun j _ upto => before j (by omega)
  refine ⟨?_, ?_, ?_, ?_⟩
  · intro u low high
    obtain ⟨k, rfl⟩ := Nat.exists_eq_add_of_lt low
    exact ((shows k (by omega)).responds _).trans (before (k + 1) (by omega))
  · obtain ⟨k, rfl⟩ : ∃ k, n = k + 1 := ⟨n - 1, by omega⟩
    exact ((shows k (by omega)).responds _).trans comes
  · intro u low high
    obtain ⟨k, rfl⟩ := Nat.exists_eq_add_of_lt low
    exact ⟨(shows k (by omega)).stage.multi, (shows k (by omega)).stage.held⟩
  · obtain ⟨k, rfl⟩ : ∃ k, n = k + 1 := ⟨n - 1, by omega⟩
    exact ((shows k (by omega)).finish rom (env _) comes).1.single

theorem hangs (never : latency (env t).request = none) : Hangs rom s₀ held₀ env t := by
  obtain ⟨fromPeriph, rests⟩ := rests_of_single single
  intro u later
  obtain ⟨k, rfl⟩ := Nat.exists_eq_add_of_lt later
  have shows := shows_after rests valid k
    fun j _ _ => Visit.after_overtaken never fromPeriph j
  exact ⟨(shows.responds _).trans (Visit.after_overtaken never fromPeriph (k + 1)),
    shows.stage.multi, shows.stage.held⟩

variable (rom s₀ held₀ env) in
/-- **Every load and store of the processor takes the cycles of its addresses on the chip**,
whatever else the chip does; a split one from the last word of the peripherals hangs. -/
theorem chip_access :
    (∀ n, latency (env t).request = some n → Takes rom s₀ held₀ env t n) ∧
      ((env t).request.split = true ∧ (env t).request.index false = 0x1003FFFF#30 ↔
        Hangs rom s₀ held₀ env t) := by
  refine ⟨fun n => takes single valid, ?_⟩
  rw [← latency_none_iff]
  refine ⟨hangs single valid, fun hangs => ?_⟩
  cases length : latency (env t).request with
  | none => rfl
  | some n =>
      obtain ⟨pos, -⟩ := Visit.after_latency length false
      have comes := (takes single valid length).comes
      have never := (hangs (t + n) (by omega)).1
      exact absurd (never.symm.trans comes) Bool.false_ne_true

end Access

/-- A word that is loaded from the last two bytes of the peripherals and what follows. -/
def overtaken (_ : ℕ) : Env where
  valid := true
  request :=
    { we := false, type := 0b00, wdata := 0, signExt := false, addr := 0x400FFFFE }
  instrReq := false
  instrAddr := 0
  unknown := 0

theorem chip_access_hangs :
    Hangs (fun _ => 0) SocTop.powerUp (overtaken 0).request overtaken 0 :=
  (chip_access (fun _ => 0) SocTop.powerUp (overtaken 0).request overtaken (t := 0) rfl rfl).2.mp
    ⟨by decide, by decide⟩

end Runs

end MiniMac.System.ProcessorPort
