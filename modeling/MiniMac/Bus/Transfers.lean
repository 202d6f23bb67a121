/-
# Bus.Transfers -- the bridge performs each request once

A request takes the bridge through one setup cycle and an access that lasts up to
the first cycle in which the bus is ready; the response follows in the next cycle,
in which the bridge already takes a new request.  While a transfer is under way
nothing is accepted, so acceptances and transfers alternate (`events_accepts`), and
the transfer and the response of a request stand at its position
(`transfers_exact`).
-/
import MiniMac.Bus.ObiToApb
import MiniMac.Theory.Clocked
import MiniMac.Theory.InOrder

namespace MiniMac.Bus.ObiToApb

open MiniMac.Theory MiniMac.Theory.InOrder

set_option autoImplicit false

/-- What the select and enable lines are in each phase. -/
structure Lines (s : State) : Prop where
  quiet : Quiet s
  psel : s.psel = (s.state != .idle)
  penable : s.penable = (s.state == .access)

theorem Lines.step {s : State} (lines : Lines s) (i : Inputs) : Lines (step s i) where
  quiet := lines.quiet.step
  psel := by
    have psel := lines.psel
    unfold ObiToApb.step
    cases phase : s.state <;> rw [phase] at psel <;> cases req : i.obiReq <;>
      cases ready : i.pready <;> simp [psel, phase] <;> rfl
  penable := by
    have penable := lines.penable
    unfold ObiToApb.step
    cases phase : s.state <;> rw [phase] at penable <;> cases req : i.obiReq <;>
      cases ready : i.pready <;> simp [penable, phase]

/-- The bus carries a request. -/
structure Carries (s : State) (request : Inputs) : Prop where
  paddr : s.paddr = request.obiAddr
  pwrite : s.pwrite = request.obiWe
  pwdata : s.pwdata = request.obiWdata

variable (s₀ : State) (ins : ℕ → Inputs)

/-- The bridge `t` cycles after reset. -/
def after (t : ℕ) : State := Clocked.run step (reset s₀) ins t

theorem after_succ (t : ℕ) : after s₀ ins (t + 1) = step (after s₀ ins t) (ins t) := rfl

theorem lines (t : ℕ) : Lines (after s₀ ins t) :=
  Clocked.invariant ⟨fun up => absurd up Bool.false_ne_true, rfl, rfl⟩
    (fun _ i lines => lines.step i) t

/-- A request is accepted: `obi_req` and `obi_gnt`. -/
def accepts (t : ℕ) : Bool := (ins t).obiReq && obiGnt (after s₀ ins t) (ins t)

/-- A transfer is performed: `psel`, `penable` and `pready`. -/
def performs (t : ℕ) : Bool :=
  (after s₀ ins t).psel && (after s₀ ins t).penable && (ins t).pready

def responds (t : ℕ) : Bool := (after s₀ ins t).obiRvalid

/-- The bus is not ready in the access of the request of cycle `t`, up to cycle `u`. -/
def Waits (ins : ℕ → Inputs) (t u : ℕ) : Prop := ∀ v, t + 2 ≤ v → v < u → (ins v).pready = false

variable {s₀ ins}

theorem accepts_iff (t : ℕ) :
    accepts s₀ ins t = true ↔ (after s₀ ins t).state = .idle ∧ (ins t).obiReq = true := by
  cases phase : (after s₀ ins t).state <;> simp [accepts, obiGnt, phase]

theorem performs_iff (t : ℕ) :
    performs s₀ ins t = true ↔ (after s₀ ins t).state = .access ∧ (ins t).pready = true := by
  have lines := lines s₀ ins t
  cases phase : (after s₀ ins t).state <;> simp [performs, lines.psel, lines.penable, phase]

/-! ## One request -/

section Request

variable {t : ℕ} (accepted : accepts s₀ ins t = true)

include accepted

theorem setup_of_accepts :
    (after s₀ ins (t + 1)).state = .setup ∧ Carries (after s₀ ins (t + 1)) (ins t) := by
  obtain ⟨phase, req⟩ := (accepts_iff t).mp accepted
  rw [after_succ, step_accept phase req]
  exact ⟨rfl, rfl, rfl, rfl⟩

/-- The access goes on until the bus is ready. -/
theorem access_of_accepts {u : ℕ} (later : t + 2 ≤ u) :
    Waits ins t u → (after s₀ ins u).state = .access ∧ Carries (after s₀ ins u) (ins t) := by
  induction u, later using Nat.le_induction with
  | base =>
      intro _
      obtain ⟨phase, carries⟩ := setup_of_accepts accepted
      rw [after_succ, step_setup phase]
      exact ⟨rfl, carries.paddr, carries.pwrite, carries.pwdata⟩
  | succ u later ih =>
      intro waits
      obtain ⟨phase, carries⟩ := ih fun v low high => waits v low (by omega)
      have stalled := waits u later (Nat.lt_succ_self u)
      have stays : step (after s₀ ins u) (ins u) = after s₀ ins u := by
        simp [step, phase, stalled]
      rw [after_succ, stays]
      exact ⟨phase, carries⟩

theorem busy_of_accepts {v : ℕ} (later : t < v) (waits : Waits ins t v) :
    (after s₀ ins v).state ≠ .idle := by
  rcases Nat.lt_or_ge v (t + 2) with first | rest
  · obtain rfl : v = t + 1 := by omega
    rw [(setup_of_accepts accepted).1]
    decide
  · rw [(access_of_accepts accepted rest waits).1]
    decide

/-- Nothing is accepted while the transfer is under way. -/
theorem refuses_of_accepts {v : ℕ} (later : t < v) (waits : Waits ins t v) :
    accepts s₀ ins v = false := by
  by_contra again
  exact busy_of_accepts accepted later waits ((accepts_iff v).mp (by simpa using again)).1

/-- What the bus sees of the request: the setup cycle, and the access. -/
theorem bus_setup : (after s₀ ins (t + 1)).psel = true ∧ (after s₀ ins (t + 1)).penable = false ∧
    Carries (after s₀ ins (t + 1)) (ins t) := by
  obtain ⟨phase, carries⟩ := setup_of_accepts accepted
  have lines := lines s₀ ins (t + 1)
  rw [lines.psel, lines.penable, phase]
  exact ⟨rfl, rfl, carries⟩

theorem bus_access {v : ℕ} (later : t + 2 ≤ v) (waits : Waits ins t v) :
    (after s₀ ins v).psel = true ∧ (after s₀ ins v).penable = true ∧
      Carries (after s₀ ins v) (ins t) := by
  obtain ⟨phase, carries⟩ := access_of_accepts accepted later waits
  have lines := lines s₀ ins v
  rw [lines.psel, lines.penable, phase]
  exact ⟨rfl, rfl, carries⟩

end Request

/-! ## All requests -/

/-- A transfer under way is that of an accepted request. -/
theorem started (v : ℕ) (busy : (after s₀ ins v).state ≠ .idle) :
    ∃ t, accepts s₀ ins t = true ∧ t < v ∧ Waits ins t v := by
  induction v with
  | zero => exact absurd rfl busy
  | succ v ih =>
      by_cases idle : (after s₀ ins v).state = .idle
      · refine ⟨v, (accepts_iff v).mpr ⟨idle, ?_⟩, Nat.lt_succ_self v, ?_⟩
        · by_contra quiet
          apply busy
          rw [after_succ, step_idle idle (by simpa using quiet)]
          exact idle
        · intro u low high
          omega
      · obtain ⟨t, accepted, later, waits⟩ := ih idle
        refine ⟨t, accepted, by omega, ?_⟩
        intro u low high
        rcases Nat.lt_succ_iff_lt_or_eq.mp high with earlier | rfl
        · exact waits u low earlier
        · -- a ready bus would have ended the access
          by_contra ready
          apply busy
          have phase := (access_of_accepts accepted low waits).1
          rw [after_succ, step_access phase (by simpa using ready)]

theorem responds_delayed : Delayed 1 (performs s₀ ins) (responds s₀ ins) where
  early t soon := by
    obtain rfl : t = 0 := by omega
    rfl
  delayed t := by
    rw [Bool.eq_iff_iff, performs_iff, responds, after_succ, step_obiRvalid (lines s₀ ins t).quiet]
    simp

/-- **Acceptances and transfers alternate.** -/
theorem events_accepts (t : ℕ) :
    events (accepts s₀ ins) t =
      events (performs s₀ ins) t + if (after s₀ ins t).state = .idle then 0 else 1 := by
  induction t with
  | zero => rfl
  | succ t ih =>
      have accepts_iff : accepts s₀ ins t = true ↔ _ := accepts_iff t
      have performs_iff : performs s₀ ins t = true ↔ _ := performs_iff t
      rw [events_succ, events_succ, ih, after_succ]
      cases phase : (after s₀ ins t).state with
      | idle =>
          cases req : (ins t).obiReq with
          | false => simp_all [step_idle phase req]
          | true => simp_all [step_accept phase req]
      | setup => simp_all [step_setup phase]
      | access =>
          cases ready : (ins t).pready with
          | false =>
              have stays : step (after s₀ ins t) (ins t) = after s₀ ins t := by
                simp [step, phase, ready]
              simp_all
          | true => simp_all [step_access phase ready]

/-- The transfer of the request of cycle `t` ends in cycle `u`. -/
structure Transfer (s₀ : State) (ins : ℕ → Inputs) (t u : ℕ) : Prop where
  accepted : accepts s₀ ins t = true
  later : t + 2 ≤ u
  waits : Waits ins t u
  ready : (ins u).pready = true

namespace Transfer

variable {t u : ℕ} (transfer : Transfer s₀ ins t u)

include transfer

theorem performs_pairs : Pairs (accepts s₀ ins) (performs s₀ ins) t u := by
  obtain ⟨accepted, later, waits, ready⟩ := transfer
  have access := (access_of_accepts accepted later waits).1
  refine ⟨accepted, (performs_iff u).mpr ⟨access, ready⟩, by omega, ?_⟩
  have silent : events (accepts s₀ ins) u = events (accepts s₀ ins) (t + 1) := by
    have quiet := events_quiet (b := accepts s₀ ins) (t := t + 1) (n := u - (t + 1)) ?_
    · rwa [show t + 1 + (u - (t + 1)) = u by omega] at quiet
    · intro v low high
      exact refuses_of_accepts accepted (by omega) fun w low' high' => waits w low' (by omega)
  have position : events (accepts s₀ ins) u = _ := events_accepts u
  rw [silent, events_succ, accepted, access] at position
  simpa using position.symm

theorem responds_pairs : Pairs (accepts s₀ ins) (responds s₀ ins) t (u + 1) := by
  have performs := transfer.performs_pairs
  have later := performs.later
  refine ⟨performs.accepts, (responds_delayed.delayed u).trans performs.responds, by omega, ?_⟩
  rw [responds_delayed.events_eq, performs.position]

/-- The response carries the data of the last cycle, and the bus is released. -/
theorem ends : obiRdata (after s₀ ins (u + 1)) = (ins u).prdata ∧
    (after s₀ ins (u + 1)).psel = false := by
  obtain ⟨accepted, later, waits, ready⟩ := transfer
  have access := (access_of_accepts accepted later waits).1
  rw [after_succ, step_access access ready]
  exact ⟨rfl, rfl⟩

end Transfer

/-- A transfer that is performed is that of an accepted request. -/
theorem transfer_of_performs {u : ℕ} (performs : performs s₀ ins u = true) :
    ∃ t, Transfer s₀ ins t u := by
  obtain ⟨phase, ready⟩ := (performs_iff u).mp performs
  obtain ⟨t, accepted, later, waits⟩ := started u (by rw [phase]; decide)
  refine ⟨t, accepted, ?_, waits, ready⟩
  -- the first cycle of the transfer is the setup cycle
  by_contra early
  obtain rfl : u = t + 1 := by omega
  rw [(setup_of_accepts accepted).1] at phase
  cases phase

/-- **The bridge performs each request once.**  After an accepted request comes one setup
cycle and an access that lasts up to the first ready cycle, both with the request's
address, direction and data, and nothing else is accepted; that cycle is the transfer at
the request's position, and the cycle after it the response, with its data.  There are
no other transfers and no other responses. -/
theorem transfers_exact (s₀ : State) (ins : ℕ → Inputs) :
    (∀ t, accepts s₀ ins t = true →
      ((after s₀ ins (t + 1)).psel = true ∧ (after s₀ ins (t + 1)).penable = false ∧
        Carries (after s₀ ins (t + 1)) (ins t)) ∧
      (∀ v, t + 2 ≤ v → Waits ins t v →
        (after s₀ ins v).psel = true ∧ (after s₀ ins v).penable = true ∧
          Carries (after s₀ ins v) (ins t)) ∧
      ∀ v, t < v → Waits ins t v → accepts s₀ ins v = false) ∧
    (∀ t u, Transfer s₀ ins t u →
      Pairs (accepts s₀ ins) (performs s₀ ins) t u ∧
        Pairs (accepts s₀ ins) (responds s₀ ins) t (u + 1) ∧
        obiRdata (after s₀ ins (u + 1)) = (ins u).prdata ∧
        (after s₀ ins (u + 1)).psel = false) ∧
    (∀ v, (after s₀ ins v).psel = true → ∃ t, accepts s₀ ins t = true ∧ t < v ∧ Waits ins t v) ∧
    (∀ u, performs s₀ ins u = true → ∃ t, Transfer s₀ ins t u) ∧
    ∀ v, responds s₀ ins v = true → ∃ t u, v = u + 1 ∧ Transfer s₀ ins t u := by
  refine ⟨?_, ?_, ?_, ?_, ?_⟩
  · intro t accepted
    refine ⟨bus_setup accepted, ?_, ?_⟩
    · intro v later waits
      exact bus_access accepted later waits
    · intro v later waits
      exact refuses_of_accepts accepted later waits
  · intro t u transfer
    exact ⟨transfer.performs_pairs, transfer.responds_pairs, transfer.ends⟩
  · intro v psel
    apply started
    intro idle
    rw [(lines s₀ ins v).psel, idle] at psel
    cases psel
  · intro u performs
    exact transfer_of_performs performs
  · intro v responds
    obtain ⟨u, rfl, performs⟩ := responds_delayed.request responds
    obtain ⟨t, transfer⟩ := transfer_of_performs performs
    exact ⟨t, u, rfl, transfer⟩

end MiniMac.Bus.ObiToApb
