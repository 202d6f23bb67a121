/-
# System.BoardLine -- rules for programs on the board

How to prove something about a program: an invariant of its steps
(`disciplined_of_invariant`), a straight line of instructions run on what is known of the
registers (`Ahead`), and one instruction of the other kinds.
-/
import MiniMac.System.Board

namespace MiniMac.System.Board

open MiniMac.Theory.Rv32i MiniMac.Core

set_option autoImplicit false

variable {program : BitVec 32 → Option Instr} {b b' : Board} {i : Instr}

/-- **The invariant rule**: a program is disciplined that keeps an invariant under which the next
instruction may be done. -/
theorem disciplined_of_invariant (inv : Board → Prop) (start : inv b)
    (keep : ∀ b b', inv b → Step program b b' → inv b') (safe : ∀ b, inv b → b.Safe program) :
    b.Disciplined program := by
  intro b' reached
  refine safe b' ?_
  induction reached with
  | refl => exact start
  | tail _ step ih => exact keep _ _ ih step

/-! ## One instruction -/

section Instruction

variable (here : program b.machine.pc = some i)

include here

theorem next_eq : b.next program = access b.machine i := by
  rw [next, here]
  rfl

theorem safe_compute (inner : access b.machine i = none) : b.Safe program := by
  refine ⟨by rw [here]; rfl, fun a next => ?_⟩
  rw [next_eq here, inner] at next
  cases next

theorem safe_load {a : Access} (asks : access b.machine i = some a) (read : a.write = false)
    (allowed : b.device.Loadable a.addr) : b.Safe program := by
  refine ⟨by rw [here]; rfl, fun a' next => ?_⟩
  rw [next_eq here, asks] at next
  obtain rfl := Option.some.inj next
  rw [read, if_neg Bool.false_ne_true]
  exact allowed

theorem safe_store {a : Access} (asks : access b.machine i = some a) (write : a.write = true)
    {d : Device} (stored : b.device.store a.addr a.data = some d) : b.Safe program := by
  refine ⟨by rw [here]; rfl, fun a' next => ?_⟩
  rw [next_eq here, asks] at next
  obtain rfl := Option.some.inj next
  rw [write, if_pos rfl, stored]
  rfl

variable (step : Step program b b')

include step

theorem Step.compute_eq (inner : access b.machine i = none) :
    b' = ⟨retire b.machine i 0, b.device⟩ := by
  cases step with
  | compute here' =>
      obtain rfl := Option.some.inj (here'.symm.trans here)
      rfl
  | store here' asks =>
      obtain rfl := Option.some.inj (here'.symm.trans here)
      exact absurd (asks.symm.trans inner) (Option.some_ne_none _)
  | load here' asks =>
      obtain rfl := Option.some.inj (here'.symm.trans here)
      exact absurd (asks.symm.trans inner) (Option.some_ne_none _)

theorem Step.load_eq {a : Access} (asks : access b.machine i = some a) (read : a.write = false) :
    ∃ word d, b.device.Loads a.addr word d ∧ b' = ⟨retire b.machine i word, d⟩ := by
  cases step with
  | compute here' inner =>
      obtain rfl := Option.some.inj (here'.symm.trans here)
      exact absurd (asks.symm.trans inner) (Option.some_ne_none _)
  | store here' asks' write =>
      obtain rfl := Option.some.inj (here'.symm.trans here)
      obtain rfl := Option.some.inj (asks'.symm.trans asks)
      exact absurd (read.symm.trans write) Bool.false_ne_true
  | load here' asks' _ _ loaded =>
      obtain rfl := Option.some.inj (here'.symm.trans here)
      obtain rfl := Option.some.inj (asks'.symm.trans asks)
      exact ⟨_, _, loaded, rfl⟩

theorem Step.store_eq {a : Access} (asks : access b.machine i = some a) (write : a.write = true)
    {d : Device} (stored : b.device.store a.addr a.data = some d) :
    b' = ⟨retire b.machine i 0, d⟩ := by
  cases step with
  | compute here' inner =>
      obtain rfl := Option.some.inj (here'.symm.trans here)
      exact absurd (asks.symm.trans inner) (Option.some_ne_none _)
  | store here' asks' _ stored' =>
      obtain rfl := Option.some.inj (here'.symm.trans here)
      obtain rfl := Option.some.inj (asks'.symm.trans asks)
      obtain rfl := Option.some.inj (stored'.symm.trans stored)
      rfl
  | load here' asks' read =>
      obtain rfl := Option.some.inj (here'.symm.trans here)
      obtain rfl := Option.some.inj (asks'.symm.trans asks)
      exact absurd (read.symm.trans write) Bool.false_ne_true

end Instruction

/-! ## Straight lines -/

/-- The board is about to execute the instructions `l`, at addresses up to `last`.  Run on
what is known, they do stores that the device can do, and `post` holds in the end. -/
structure Ahead (program : BitVec 32 → Option Instr) (last : BitVec 32)
    (post : Known → Device → Prop) (b : Board) (l : List Instr) : Prop where
  code : Follows program last b.machine.pc l
  runs : ∃ k k' stores d, Knows b.machine k ∧ k.line l = some (k', stores) ∧
    b.device.stores stores = some d ∧ post k' d

namespace Ahead

variable {last : BitVec 32} {post : Known → Device → Prop} {l : List Instr}

/-- What the next instruction does, as a store or without. -/
theorem cases (ahead : Ahead program last post b (i :: l)) :
    (access b.machine i = none ∧
        Ahead program last post ⟨retire b.machine i 0, b.device⟩ l) ∨
      ∃ addr word d, access b.machine i = some ⟨true, addr, word⟩ ∧
        b.device.store addr word = some d ∧
        Ahead program last post ⟨retire b.machine i 0, d⟩ l := by
  obtain ⟨⟨here, code⟩, k, k', stores, d, knows, runs, stored, holds⟩ := ahead
  obtain ⟨first, rest, asked, others, rfl⟩ := Known.line_cons runs
  obtain ⟨linear, other⟩ := knows.access asked
  have knows' := knows.retire i 0
  rw [← retire_pc linear 0] at code
  rcases other with ⟨inner, rfl⟩ | ⟨addr, word, asks, rfl⟩
  · exact .inl ⟨inner, code, _, k', rest, d, knows', others, stored, holds⟩
  · obtain ⟨d', now, later⟩ := Option.bind_eq_some_iff.mp stored
    exact .inr ⟨addr, word, d', asks, now, code, _, k', rest, d, knows', others, later, holds⟩

theorem step (ahead : Ahead program last post b (i :: l)) (step : Step program b b') :
    Ahead program last post b' l := by
  have here := ahead.code.1
  rcases ahead.cases with ⟨inner, ahead'⟩ | ⟨addr, word, d, asks, stored, ahead'⟩
  · rw [step.compute_eq here inner]
    exact ahead'
  · rw [step.store_eq here asks rfl stored]
    exact ahead'

theorem safe (ahead : Ahead program last post b (i :: l)) : b.Safe program := by
  have here := ahead.code.1
  rcases ahead.cases with ⟨inner, -⟩ | ⟨addr, word, d, asks, stored, -⟩
  · exact safe_compute here inner
  · exact safe_store here asks rfl stored

theorem done (ahead : Ahead program last post b []) :
    b.machine.pc = last ∧ ∃ k, Knows b.machine k ∧ post k b.device := by
  obtain ⟨code, k, k', stores, d, knows, runs, stored, holds⟩ := ahead
  obtain ⟨rfl, rfl⟩ := Prod.mk.inj (Option.some.inj runs)
  obtain rfl := Option.some.inj stored
  exact ⟨code, k, knows, holds⟩

/-- **A straight line is run to its end.** -/
theorem run {boards : ℕ → Board} (run : Run program boards) {k : ℕ}
    (ahead : Ahead program last post (boards k) l) :
    Ahead program last post (boards (k + l.length)) [] := by
  induction l generalizing k with
  | nil => exact ahead
  | cons i l ih =>
      have later := ih (ahead.step (run.next k))
      rw [Nat.add_assoc, Nat.add_comm 1] at later
      exact later

end Ahead

end MiniMac.System.Board
