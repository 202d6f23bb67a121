/-
# Theory.Rv32iConstants -- what a straight line of instructions does

Constant propagation over the registers.  `after` is what is known behind an instruction,
`asked` what it stores, and `line` runs a whole line of instructions on what is known of the
registers alone.  A machine about which this is true (`Knows`) asks for the very same
accesses (`Knows.access`).
-/
import MiniMac.Theory.Rv32iCore

namespace MiniMac.Theory.Rv32i

set_option autoImplicit false

/-- The values that are known of the registers. -/
abbrev Known := BitVec 5 → Option (BitVec 32)

/-- An address and the word for it. -/
abbrev Store := BitVec 32 × BitVec 32

namespace Known

/-- Register 0 is always known. -/
def value (k : Known) (r : BitVec 5) : Option (BitVec 32) := if r = 0 then some 0 else k r

/-- What is known behind an instruction.  What a load returns is not. -/
def after (k : Known) : Instr → Known
  | .lui rd imm => Function.update k rd (some imm)
  | .addi rd rs1 imm => Function.update k rd ((k.value rs1).map (· + imm))
  | .andi rd rs1 imm => Function.update k rd ((k.value rs1).map (· &&& imm))
  | .lw rd _ _ => Function.update k rd none
  | .jal rd _ => Function.update k rd none
  | .sw _ _ _ => k
  | .beq _ _ _ => k
  | .bne _ _ _ => k

/-- What an instruction of a straight line stores, if that is known. -/
def asked (k : Known) : Instr → Option (List Store)
  | .lui _ _ => some []
  | .addi _ _ _ => some []
  | .andi _ _ _ => some []
  | .sw rs1 rs2 imm =>
      (k.value rs1).bind fun base => (k.value rs2).map fun word => [(base + imm, word)]
  | _ => none

/-- What is known behind a line of instructions, and what they store. -/
def line (k : Known) : List Instr → Option (Known × List Store)
  | [] => some (k, [])
  | i :: l => (k.asked i).bind fun first => (line (k.after i) l).map fun r => (r.1, first ++ r.2)

theorem line_cons {k k' : Known} {i : Instr} {l : List Instr} {stores : List Store}
    (runs : k.line (i :: l) = some (k', stores)) : ∃ first rest, k.asked i = some first ∧
      (k.after i).line l = some (k', rest) ∧ stores = first ++ rest := by
  obtain ⟨first, asks, others⟩ := Option.bind_eq_some_iff.mp runs
  obtain ⟨⟨k'', rest⟩, later, same⟩ := Option.map_eq_some_iff.mp others
  obtain ⟨rfl, rfl⟩ := Prod.mk.inj same
  exact ⟨first, rest, asks, later, rfl⟩

end Known

/-- What is known of the registers is true. -/
def Knows (m : Machine) (k : Known) : Prop := ∀ r v, k.value r = some v → m.read r = v

variable {m : Machine} {k : Known} {i : Instr}

/-- Nothing is known. -/
theorem knows_nothing (m : Machine) : Knows m fun _ => none := by
  intro r v known
  unfold Known.value at known
  split at known
  · next zero =>
      obtain rfl := Option.some.inj known
      exact if_pos zero
  · cases known

theorem Knows.write (knows : Knows m k) {rd : BitVec 5} {word : BitVec 32}
    {known : Option (BitVec 32)} (true_ : ∀ v, known = some v → word = v) :
    Knows (m.write rd word) (Function.update k rd known) := by
  intro r v value
  by_cases zero : r = 0
  · rw [Known.value, if_pos zero] at value
    rw [Machine.read, if_pos zero]
    exact Option.some.inj value
  · rw [Known.value, if_neg zero] at value
    rw [Machine.read, if_neg zero]
    show Function.update m.regs rd word r = v
    by_cases same : r = rd
    · subst same
      rw [Function.update_self] at value ⊢
      exact true_ v value
    · rw [Function.update_of_ne same] at value ⊢
      have kept := knows r v (by rw [Known.value, if_neg zero, value])
      rwa [Machine.read, if_neg zero] at kept

/-- What an instruction does to the registers is known. -/
theorem Knows.retire (knows : Knows m k) (i : Instr) (word : BitVec 32) :
    Knows (retire m i word) (k.after i) := by
  cases i with
  | lui rd imm => exact knows.write fun v same => Option.some.inj same
  | addi rd rs1 imm =>
      refine knows.write fun v same => ?_
      obtain ⟨u, value, rfl⟩ := Option.map_eq_some_iff.mp same
      rw [knows rs1 u value]
  | andi rd rs1 imm =>
      refine knows.write fun v same => ?_
      obtain ⟨u, value, rfl⟩ := Option.map_eq_some_iff.mp same
      rw [knows rs1 u value]
  | lw rd rs1 imm => exact knows.write fun v same => by cases same
  | jal rd imm => exact knows.write fun v same => by cases same
  | sw rs1 rs2 imm => exact knows
  | beq rs1 rs2 imm =>
      show Knows (if m.read rs1 = m.read rs2 then _ else _) k
      split <;> exact knows
  | bne rs1 rs2 imm =>
      show Knows (if m.read rs1 = m.read rs2 then _ else _) k
      split <;> exact knows

/-- An instruction of a straight line goes on to the next, and asks for what is known. -/
theorem Knows.access (knows : Knows m k) {stores : List Store} (asks : k.asked i = some stores) :
    i.linear = true ∧ (Rv32i.access m i = none ∧ stores = [] ∨
      ∃ addr word, Rv32i.access m i = some ⟨true, addr, word⟩ ∧ stores = [(addr, word)]) := by
  cases i with
  | lui | addi | andi => exact ⟨rfl, .inl ⟨rfl, (Option.some.inj asks).symm⟩⟩
  | sw rs1 rs2 imm =>
      obtain ⟨base, first, asks⟩ := Option.bind_eq_some_iff.mp asks
      obtain ⟨word, second, rfl⟩ := Option.map_eq_some_iff.mp asks
      refine ⟨rfl, .inr ⟨base + imm, word, ?_, rfl⟩⟩
      rw [Rv32i.access, knows rs1 base first, knows rs2 word second]
  | lw | beq | bne | jal => cases asks

theorem retire_pc (linear : i.linear = true) (word : BitVec 32) :
    (retire m i word).pc = m.pc + 4 := by
  cases i with
  | lui | addi | andi | sw => rfl
  | lw | beq | bne | jal => cases linear

/-- The program has these instructions from `pc` on, up to `last`. -/
def Follows (program : BitVec 32 → Option Instr) (last : BitVec 32) :
    BitVec 32 → List Instr → Prop
  | pc, [] => pc = last
  | pc, i :: l => program pc = some i ∧ Follows program last (pc + 4) l

end MiniMac.Theory.Rv32i
