/-
# Soc.CpuPort -- responses on the CPU's data port

The memory path answers one cycle after a request and the bridge three; one
register, set by the last accepted request, steers the response mux.  A memory
request accepted while the bridge is busy turns the mux away before the bridge
answers, and that answer is lost.  `cpu_port_in_order_iff` says that nothing else
goes wrong: without such a request every accepted request is answered once, in
order, with the data of its own path.
-/
import MiniMac.Soc.SocTop
import MiniMac.Theory.InOrder

namespace MiniMac.Soc.SocTop

open MiniMac.Theory MiniMac.Theory.InOrder MiniMac.Core MiniMac.Accel MiniMac.Bus

set_option autoImplicit false

/-- The two ways a data request can go. -/
inductive Path where
  | periph
  | memory
  deriving DecidableEq

def pathOf (i : Inputs) : Path := if cpuIsPeriph i then .periph else .memory

section Runs

variable (rom : BitVec 10 → BitVec 32) (s₀ : State) (ins : ℕ → Inputs)

/-- A data request is accepted: `cpu_req` and `cpu_gnt`. -/
def accepted (t : ℕ) : Bool := (ins t).cpuReq && cpuGnt (after rom s₀ ins t) (ins t)

def acceptedBy (p : Path) (t : ℕ) : Bool :=
  accepted rom s₀ ins t && decide (pathOf (ins t) = p)

/-- The port responds. -/
def responds (t : ℕ) : Bool := cpuRvalid (after rom s₀ ins t)

/-- A path responds, whether or not the port shows it. -/
def pathResponds (p : Path) (t : ℕ) : Bool :=
  match p with
  | .periph => (after rom s₀ ins t).bridge.obiRvalid
  | .memory => (after rom s₀ ins t).mem.cpuRvalid

def pathRdata (p : Path) (t : ℕ) : BitVec 32 :=
  match p with
  | .periph => ObiToApb.obiRdata (after rom s₀ ins t).bridge
  | .memory =>
      MemSubsystem.cpuRdata (after rom s₀ ins t).mem (memInputs (after rom s₀ ins t) (ins t))

/-- The port's response of cycle `u` is the answer to the request of cycle `t`: it
stands at the request's position on the port, its path responds at the request's
position on the path, and the data is the path's. -/
structure Answers (t u : ℕ) : Prop where
  port : Pairs (accepted rom s₀ ins) (responds rom s₀ ins) t u
  path : Pairs (acceptedBy rom s₀ ins (pathOf (ins t))) (pathResponds rom s₀ ins (pathOf (ins t)))
    t u
  data : cpuRdata (after rom s₀ ins u) (ins u) = pathRdata rom s₀ ins (pathOf (ins t)) u

/-- Every accepted request is answered, and there is no other response. -/
structure PortInOrder : Prop where
  answered : ∀ t, accepted rom s₀ ins t = true → ∃ u, Answers rom s₀ ins t u
  nothing_else : ∀ u, responds rom s₀ ins u = true → ∃ t, Answers rom s₀ ins t u

/-! ## What is accepted -/

theorem acceptedBy_memory (t : ℕ) : acceptedBy rom s₀ ins .memory t = cpuIsMem (ins t) := by
  unfold acceptedBy accepted pathOf cpuGnt cpuIsMem
  cases req : (ins t).cpuReq <;> cases periph : cpuIsPeriph (ins t) <;> simp

theorem acceptedBy_periph (t : ℕ) :
    acceptedBy rom s₀ ins .periph t =
      (cpuIsPeriph (ins t) && (after rom s₀ ins t).bridge.state == .idle) := by
  unfold acceptedBy accepted pathOf cpuGnt ObiToApb.obiGnt
  cases periph : cpuIsPeriph (ins t) with
  | false => simp
  | true =>
      have req : (ins t).cpuReq = true := by
        simp only [cpuIsPeriph, Bool.and_eq_true] at periph
        exact periph.1
      simp [req, bridgeInputs, periph]

theorem accepted_eq (t : ℕ) :
    accepted rom s₀ ins t =
      (acceptedBy rom s₀ ins .periph t || acceptedBy rom s₀ ins .memory t) := by
  unfold acceptedBy
  cases pathOf (ins t) <;> simp

theorem accepted_apart (t : ℕ) (periph : acceptedBy rom s₀ ins .periph t = true) :
    acceptedBy rom s₀ ins .memory t = false := by
  rw [acceptedBy_memory, cpuIsMem]
  rw [acceptedBy_periph, Bool.and_eq_true] at periph
  simp [periph.1]

theorem pathOf_of_acceptedBy {p : Path} {t : ℕ} (taken : acceptedBy rom s₀ ins p t = true) :
    pathOf (ins t) = p := by
  unfold acceptedBy at taken
  simp only [Bool.and_eq_true, decide_eq_true_eq] at taken
  exact taken.2

/-! ## The two paths -/

theorem memory_delayed :
    Delayed 1 (acceptedBy rom s₀ ins .memory) (pathResponds rom s₀ ins .memory) := by
  constructor
  · intro t early
    obtain rfl : t = 0 := by omega
    rfl
  · intro t
    rw [acceptedBy_memory]
    rfl

theorem bridge_quiet (t : ℕ) : ObiToApb.Quiet (after rom s₀ ins t).bridge :=
  Clocked.invariant (P := fun s : State => ObiToApb.Quiet s.bridge) (fun _ => rfl)
    (fun _ _ quiet => quiet.step) t

theorem setup_succ (t : ℕ) :
    ((after rom s₀ ins (t + 1)).bridge.state == .setup) = acceptedBy rom s₀ ins .periph t := by
  rw [acceptedBy_periph, after_succ, Bool.and_comm]
  exact ObiToApb.step_state_setup

theorem access_succ (t : ℕ) :
    ((after rom s₀ ins (t + 1)).bridge.state == .access) =
      ((after rom s₀ ins t).bridge.state == .setup) := by
  rw [after_succ]
  refine ObiToApb.step_state_access.trans ?_
  rw [bus_ready, Bool.not_true, Bool.and_false, Bool.or_false]

theorem periph_succ (t : ℕ) :
    pathResponds rom s₀ ins .periph (t + 1) =
      ((after rom s₀ ins t).bridge.state == .access) := by
  refine (ObiToApb.step_obiRvalid (bridge_quiet rom s₀ ins t)).trans ?_
  rw [bus_ready, Bool.and_true]

theorem periph_delayed :
    Delayed 3 (acceptedBy rom s₀ ins .periph) (pathResponds rom s₀ ins .periph) := by
  constructor
  · intro t early
    obtain rfl | rfl | rfl : t = 0 ∨ t = 1 ∨ t = 2 := by omega
    · rfl
    · exact (periph_succ rom s₀ ins 0).trans rfl
    · exact (periph_succ rom s₀ ins 1).trans ((access_succ rom s₀ ins 0).trans rfl)
  · intro t
    rw [periph_succ, access_succ, setup_succ]

/-! ## The response mux -/

theorem mux_succ (t : ℕ) :
    (after rom s₀ ins (t + 1)).cpuResponseFromPeriph =
      if accepted rom s₀ ins t then cpuIsPeriph (ins t)
      else (after rom s₀ ins t).cpuResponseFromPeriph := rfl

variable {rom s₀ ins}

/-- A path that the mux selects is what the port shows. -/
theorem shown {p : Path} {t : ℕ}
    (mux : (after rom s₀ ins t).cpuResponseFromPeriph = decide (p = .periph)) :
    responds rom s₀ ins t = pathResponds rom s₀ ins p t ∧
      cpuRdata (after rom s₀ ins t) (ins t) = pathRdata rom s₀ ins p t := by
  unfold responds cpuRvalid cpuRdata
  cases p with
  | periph => simp [mux, pathResponds, pathRdata]
  | memory => simp [mux, pathResponds, pathRdata]

/-- The mux selects the memory path when that path responds. -/
theorem mux_memory {t : ℕ} (taken : acceptedBy rom s₀ ins .memory t = true) :
    (after rom s₀ ins (t + 1)).cpuResponseFromPeriph = false := by
  have request : cpuIsMem (ins t) = true := by rwa [acceptedBy_memory] at taken
  have other : cpuIsPeriph (ins t) = false := by
    simp only [cpuIsMem, Bool.and_eq_true, Bool.not_eq_true'] at request
    exact request.2
  rw [mux_succ, accepted_eq, taken, Bool.or_true, if_pos rfl, other]

/-- Nothing is accepted by a busy bridge. -/
theorem periph_refused {t : ℕ} (busy : (after rom s₀ ins t).bridge.state ≠ .idle) :
    acceptedBy rom s₀ ins .periph t = false := by
  rw [acceptedBy_periph]
  simp [busy]

/-- The two cycles after an accepted peripheral request. -/
theorem busy_after {t : ℕ} (taken : acceptedBy rom s₀ ins .periph t = true) :
    (after rom s₀ ins (t + 1)).bridge.state = .setup ∧
      (after rom s₀ ins (t + 2)).bridge.state = .access := by
  have setup := setup_succ rom s₀ ins t
  rw [taken, beq_iff_eq] at setup
  have access := access_succ rom s₀ ins (t + 1)
  rw [setup, beq_self_eq_true, beq_iff_eq] at access
  exact ⟨setup, access⟩

/-- A busy bridge works on a request of the last two cycles. -/
theorem accepted_of_busy {t : ℕ} (busy : (after rom s₀ ins t).bridge.state ≠ .idle) :
    ∃ s, acceptedBy rom s₀ ins .periph s = true ∧ (t = s + 1 ∨ t = s + 2) := by
  cases t with
  | zero => exact absurd rfl busy
  | succ t =>
      by_cases setup : (after rom s₀ ins (t + 1)).bridge.state = .setup
      · refine ⟨t, ?_, .inl rfl⟩
        rw [← setup_succ, setup]
        rfl
      · have access : (after rom s₀ ins (t + 1)).bridge.state = .access := by
          cases phase : (after rom s₀ ins (t + 1)).bridge.state with
          | idle => exact absurd phase busy
          | setup => exact absurd phase setup
          | access => rfl
        have before := access_succ rom s₀ ins t
        rw [access, beq_self_eq_true] at before
        cases t with
        | zero =>
            have start : (after rom s₀ ins 0).bridge.state = .idle := rfl
            rw [start] at before
            exact absurd before (by decide)
        | succ t =>
            refine ⟨t, ?_, .inr rfl⟩
            rw [← setup_succ]
            exact before.symm

/-! ## The exact condition -/

/-- No memory request is made while the bridge is busy. -/
def BridgeAlone (rom : BitVec 10 → BitVec 32) (s₀ : State) (ins : ℕ → Inputs) : Prop :=
  ∀ t, cpuIsMem (ins t) = true → (after rom s₀ ins t).bridge.state = .idle

namespace BridgeAlone

variable (alone : BridgeAlone rom s₀ ins)

include alone

theorem no_memory {t : ℕ} (busy : (after rom s₀ ins t).bridge.state ≠ .idle) :
    acceptedBy rom s₀ ins .memory t = false := by
  rw [acceptedBy_memory]
  by_contra request
  exact busy (alone t (by simpa using request))

/-- Nothing is accepted while the bridge works on a request. -/
theorem nothing_accepted {t : ℕ} (busy : (after rom s₀ ins t).bridge.state ≠ .idle) :
    accepted rom s₀ ins t = false := by
  rw [accepted_eq, periph_refused busy, alone.no_memory busy]
  rfl

/-- The mux waits for the bridge. -/
theorem mux_periph {t : ℕ} (taken : acceptedBy rom s₀ ins .periph t = true) :
    (after rom s₀ ins (t + 3)).cpuResponseFromPeriph = true := by
  obtain ⟨setup, access⟩ := busy_after taken
  have request : cpuIsPeriph (ins t) = true := by
    rw [acceptedBy_periph, Bool.and_eq_true] at taken
    exact taken.1
  have first : (after rom s₀ ins (t + 1)).cpuResponseFromPeriph = true := by
    rw [mux_succ, accepted_eq, taken, Bool.true_or, if_pos rfl, request]
  have second := mux_succ rom s₀ ins (t + 1)
  rw [alone.nothing_accepted (by rw [setup]; decide), if_neg Bool.false_ne_true, first] at second
  have third := mux_succ rom s₀ ins (t + 2)
  rw [alone.nothing_accepted (by rw [access]; decide), if_neg Bool.false_ne_true, second] at third
  exact third

/-- The port responds when a path does. -/
theorem responds_eq (t : ℕ) :
    responds rom s₀ ins t =
      (pathResponds rom s₀ ins .periph t || pathResponds rom s₀ ins .memory t) ∧
    (pathResponds rom s₀ ins .periph t = true → pathResponds rom s₀ ins .memory t = false) := by
  have memory_mux (up : pathResponds rom s₀ ins .memory t = true) :
      (after rom s₀ ins t).cpuResponseFromPeriph = false := by
    obtain ⟨s, rfl, taken⟩ := (memory_delayed rom s₀ ins).request up
    exact mux_memory taken
  have periph_mux (up : pathResponds rom s₀ ins .periph t = true) :
      (after rom s₀ ins t).cpuResponseFromPeriph = true := by
    obtain ⟨s, rfl, taken⟩ := (periph_delayed rom s₀ ins).request up
    exact alone.mux_periph taken
  cases mux : (after rom s₀ ins t).cpuResponseFromPeriph with
  | true =>
      have silent : pathResponds rom s₀ ins .memory t = false := by
        by_contra up
        have := memory_mux (by simpa using up)
        rw [mux] at this
        cases this
      refine ⟨?_, fun _ => silent⟩
      rw [(shown (p := .periph) mux).1, silent, Bool.or_false]
  | false =>
      have silent : pathResponds rom s₀ ins .periph t = false := by
        by_contra up
        have := periph_mux (by simpa using up)
        rw [mux] at this
        cases this
      refine ⟨?_, fun up => absurd (silent.symm.trans up) (by decide)⟩
      rw [(shown (p := .memory) mux).1, silent, Bool.false_or]

theorem responses (t : ℕ) :
    events (responds rom s₀ ins) t =
      events (pathResponds rom s₀ ins .periph) t + events (pathResponds rom s₀ ins .memory) t := by
  have same : responds rom s₀ ins =
      fun u => pathResponds rom s₀ ins .periph u || pathResponds rom s₀ ins .memory u := by
    funext u
    exact (alone.responds_eq u).1
  rw [same]
  exact events_or t fun u _ => (alone.responds_eq u).2

end BridgeAlone

theorem requests (t : ℕ) :
    events (accepted rom s₀ ins) t =
      events (acceptedBy rom s₀ ins .periph) t + events (acceptedBy rom s₀ ins .memory) t := by
  have same : accepted rom s₀ ins =
      fun u => acceptedBy rom s₀ ins .periph u || acceptedBy rom s₀ ins .memory u := by
    funext u
    exact accepted_eq rom s₀ ins u
  rw [same]
  exact events_or t fun u _ => accepted_apart rom s₀ ins u

theorem accepted_of_path {p : Path} {t : ℕ} (taken : acceptedBy rom s₀ ins p t = true) :
    accepted rom s₀ ins t = true := by
  unfold acceptedBy at taken
  simp only [Bool.and_eq_true] at taken
  exact taken.1

/-- A peripheral request is answered by the bridge three cycles later. -/
theorem BridgeAlone.answers_periph (alone : BridgeAlone rom s₀ ins) {t : ℕ}
    (taken : acceptedBy rom s₀ ins .periph t = true) : Answers rom s₀ ins t (t + 3) := by
  have path := (periph_delayed rom s₀ ins).pairs (by omega) taken
  obtain ⟨port, data⟩ := shown (p := .periph) (alone.mux_periph taken)
  obtain ⟨setup, access⟩ := busy_after taken
  have memory : events (pathResponds rom s₀ ins .memory) (t + 3) =
      events (acceptedBy rom s₀ ins .memory) t := by
    have quiet := events_quiet (b := acceptedBy rom s₀ ins .memory) (t := t) (n := 2) (by
      intro u low high
      obtain rfl | rfl : u = t ∨ u = t + 1 := by omega
      · exact accepted_apart rom s₀ ins u taken
      · exact alone.no_memory (by rw [setup]; decide))
    rw [← quiet]
    exact (memory_delayed rom s₀ ins).events_eq (t + 2)
  have way := pathOf_of_acceptedBy rom s₀ ins taken
  refine ⟨⟨accepted_of_path taken, port.trans path.responds, by omega, ?_⟩, ?_, ?_⟩
  · rw [alone.responses, requests, path.position, memory]
  · rw [way]
    exact path
  · rw [way]
    exact data

/-- A memory request is answered in the next cycle. -/
theorem BridgeAlone.answers_memory (alone : BridgeAlone rom s₀ ins) {t : ℕ}
    (taken : acceptedBy rom s₀ ins .memory t = true) : Answers rom s₀ ins t (t + 1) := by
  have path := (memory_delayed rom s₀ ins).pairs (by omega) taken
  obtain ⟨port, data⟩ := shown (p := .memory) (mux_memory taken)
  have idle : (after rom s₀ ins t).bridge.state = .idle := by
    rw [acceptedBy_memory] at taken
    exact alone t taken
  have periph : events (pathResponds rom s₀ ins .periph) (t + 1) =
      events (acceptedBy rom s₀ ins .periph) t := by
    rw [← (periph_delayed rom s₀ ins).events_eq t]
    refine (events_quiet (b := pathResponds rom s₀ ins .periph) (t := t + 1) (n := 2) ?_).symm
    intro u low high
    obtain rfl | rfl : u = t + 1 ∨ u = t + 2 := by omega
    · rw [periph_succ, idle]
      rfl
    · rw [periph_succ, access_succ, idle]
      rfl
  have way := pathOf_of_acceptedBy rom s₀ ins taken
  refine ⟨⟨accepted_of_path taken, port.trans path.responds, by omega, ?_⟩, ?_, ?_⟩
  · rw [alone.responses, requests, path.position, periph]
  · rw [way]
    exact path
  · rw [way]
    exact data

theorem BridgeAlone.answers (alone : BridgeAlone rom s₀ ins) {p : Path} {t : ℕ}
    (taken : acceptedBy rom s₀ ins p t = true) : ∃ u, Answers rom s₀ ins t u := by
  cases p with
  | periph => exact ⟨t + 3, alone.answers_periph taken⟩
  | memory => exact ⟨t + 1, alone.answers_memory taken⟩

theorem BridgeAlone.inOrder (alone : BridgeAlone rom s₀ ins) : PortInOrder rom s₀ ins := by
  constructor
  · intro t taken
    rw [accepted_eq, Bool.or_eq_true] at taken
    rcases taken with periph | memory
    · exact alone.answers periph
    · exact alone.answers memory
  · intro u up
    rw [(alone.responds_eq u).1, Bool.or_eq_true] at up
    rcases up with periph | memory
    · obtain ⟨t, rfl, taken⟩ := (periph_delayed rom s₀ ins).request periph
      exact ⟨t, alone.answers_periph taken⟩
    · obtain ⟨t, rfl, taken⟩ := (memory_delayed rom s₀ ins).request memory
      exact ⟨t, alone.answers_memory taken⟩

/-- A memory request while the bridge is busy turns the mux away from its answer. -/
theorem mux_turned {s t : ℕ} (taken : acceptedBy rom s₀ ins .periph s = true)
    (soon : t = s + 1 ∨ t = s + 2) (request : acceptedBy rom s₀ ins .memory t = true) :
    (after rom s₀ ins (s + 3)).cpuResponseFromPeriph = false := by
  rcases soon with rfl | rfl
  · have first := mux_memory request
    by_cases again : acceptedBy rom s₀ ins .memory (s + 2) = true
    · exact mux_memory again
    · have busy := (busy_after taken).2
      have none : accepted rom s₀ ins (s + 2) = false := by
        rw [Bool.not_eq_true] at again
        rw [accepted_eq, periph_refused (by rw [busy]; decide), again]
        rfl
      rw [mux_succ, none, if_neg Bool.false_ne_true]
      exact first
  · exact mux_memory request

theorem PortInOrder.bridgeAlone (inOrder : PortInOrder rom s₀ ins) : BridgeAlone rom s₀ ins := by
  intro t request
  by_contra busy
  rw [← acceptedBy_memory rom s₀ ins] at request
  obtain ⟨s, taken, soon⟩ := accepted_of_busy busy
  -- the bridge answers in cycle `s + 3`, where the mux shows the memory path
  obtain ⟨u, answer⟩ := inOrder.answered s (accepted_of_path taken)
  have path := answer.path
  rw [pathOf_of_acceptedBy rom s₀ ins taken] at path
  obtain rfl := path.unique ((periph_delayed rom s₀ ins).pairs (by omega) taken)
  have mux := mux_turned taken soon request
  have memory := answer.port.responds
  rw [(shown (p := .memory) mux).1] at memory
  -- so it is the answer to a memory request of cycle `s + 2`, which stands further back
  have second : acceptedBy rom s₀ ins .memory (s + 2) = true :=
    ((memory_delayed rom s₀ ins).delayed (s + 2)).symm.trans memory
  obtain ⟨v, answer'⟩ := inOrder.answered (s + 2) (accepted_of_path second)
  have path' := answer'.path
  rw [pathOf_of_acceptedBy rom s₀ ins second] at path'
  obtain rfl := path'.unique ((memory_delayed rom s₀ ins).pairs (by omega) second)
  exact absurd (answer.port.order answer'.port (by omega)) (lt_irrefl _)

end Runs

/-- **The CPU's data port is in order exactly when no memory request is made in the
two cycles after an accepted peripheral request.** -/
theorem cpu_port_in_order_iff (rom : BitVec 10 → BitVec 32) (s₀ : State) (ins : ℕ → Inputs) :
    PortInOrder rom s₀ ins ↔
      ∀ t, cpuIsMem (ins t) = true → (after rom s₀ ins t).bridge.state = .idle := by
  constructor
  · intro inOrder
    exact inOrder.bridgeAlone
  · intro alone
    exact BridgeAlone.inOrder alone

/-! ## A load behind a register read -/

/-- A register read, and a load accepted in the next cycle. -/
def loadBehindRead (t : ℕ) : Inputs :=
  if t = 0 then cpuAccess false 0x40000000 0
  else if t = 1 then cpuAccess false 0x10000000 0
  else cpuIdle

/-- The master has never more than two requests without a response. -/
def AtMostTwo (rom : BitVec 10 → BitVec 32) (s₀ : State) (ins : ℕ → Inputs) : Prop :=
  ∀ t, events (accepted rom s₀ ins) t ≤ events (responds rom s₀ ins) t + 2

theorem cpu_port_loses_response :
    ¬ ∀ (rom : BitVec 10 → BitVec 32) (s₀ : State) (ins : ℕ → Inputs),
      AtMostTwo rom s₀ ins → PortInOrder rom s₀ ins := by
  intro claim
  have two : AtMostTwo (fun _ => 0) powerUp loadBehindRead := by
    intro t
    have most : events (accepted (fun _ => 0) powerUp loadBehindRead) t ≤ 2 := by
      rcases Nat.lt_or_ge t 2 with early | late
      · exact (events_le _ t).trans early.le
      · obtain ⟨n, rfl⟩ : ∃ n, t = 2 + n := ⟨t - 2, by omega⟩
        rw [events_quiet]
        · exact events_le _ 2
        · intro u low _
          have idle : loadBehindRead u = cpuIdle := by
            rw [loadBehindRead, if_neg (by omega), if_neg (by omega)]
          rw [accepted, idle]
          rfl
    omega
  have alone := (claim (fun _ => 0) powerUp loadBehindRead two).bridgeAlone
  exact absurd (alone 1 (by decide)) (by decide)

end MiniMac.Soc.SocTop
