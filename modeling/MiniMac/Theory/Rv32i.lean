/-
# Theory.Rv32i -- a subset of RV32I

The fields of an instruction word, the eight instructions a boot program needs, and a
machine that runs them.  What a load returns is not the machine's business: the
`k`-th load of a run returns word `k` of a stream, so a statement about all streams
is one about everything the memory and the devices can answer.

A run that comes back to an instruction without a load in between has nothing to
wait for.  `not_loadFreeCycle` rules that out by a rank of the program counter that
every step without a load raises.
-/
import Mathlib.Data.BitVec
import Mathlib.Logic.Function.Basic

namespace MiniMac.Theory.Rv32i

set_option autoImplicit false

/-! ## Fields -/

section Fields

variable (w : BitVec 32)

def opcode : BitVec 7 := w.extractLsb' 0 7

def rd : BitVec 5 := w.extractLsb' 7 5

def funct3 : BitVec 3 := w.extractLsb' 12 3

def rs1 : BitVec 5 := w.extractLsb' 15 5

def rs2 : BitVec 5 := w.extractLsb' 20 5

def immI : BitVec 32 := (w.extractLsb' 20 12).signExtend 32

def immS : BitVec 32 := (w.extractLsb' 25 7 ++ w.extractLsb' 7 5).signExtend 32

def immB : BitVec 32 :=
  (w.extractLsb' 31 1 ++ w.extractLsb' 7 1 ++ w.extractLsb' 25 6 ++ w.extractLsb' 8 4 ++
    0#1).signExtend 32

def immU : BitVec 32 := w.extractLsb' 12 20 ++ 0#12

def immJ : BitVec 32 :=
  (w.extractLsb' 31 1 ++ w.extractLsb' 12 8 ++ w.extractLsb' 20 1 ++ w.extractLsb' 21 10 ++
    0#1).signExtend 32

end Fields

/-! ## Instructions -/

inductive Instr where
  | lui (rd : BitVec 5) (imm : BitVec 32)
  | addi (rd rs1 : BitVec 5) (imm : BitVec 32)
  | andi (rd rs1 : BitVec 5) (imm : BitVec 32)
  | lw (rd rs1 : BitVec 5) (imm : BitVec 32)
  | sw (rs1 rs2 : BitVec 5) (imm : BitVec 32)
  | beq (rs1 rs2 : BitVec 5) (imm : BitVec 32)
  | bne (rs1 rs2 : BitVec 5) (imm : BitVec 32)
  | jal (rd : BitVec 5) (imm : BitVec 32)
  deriving DecidableEq

def decode (w : BitVec 32) : Option Instr :=
  match opcode w, funct3 w with
  | 0x37#7, _ => some (.lui (rd w) (immU w))
  | 0x13#7, 0#3 => some (.addi (rd w) (rs1 w) (immI w))
  | 0x13#7, 7#3 => some (.andi (rd w) (rs1 w) (immI w))
  | 0x03#7, 2#3 => some (.lw (rd w) (rs1 w) (immI w))
  | 0x23#7, 2#3 => some (.sw (rs1 w) (rs2 w) (immS w))
  | 0x63#7, 0#3 => some (.beq (rs1 w) (rs2 w) (immB w))
  | 0x63#7, 1#3 => some (.bne (rs1 w) (rs2 w) (immB w))
  | 0x6F#7, _ => some (.jal (rd w) (immJ w))
  | _, _ => none

/-- The instructions that go on to the next one and read nothing. -/
def Instr.linear : Instr → Bool
  | .lui .. | .addi .. | .andi .. | .sw .. => true
  | _ => false

/-! ## The machine -/

structure Machine where
  pc : BitVec 32
  regs : BitVec 5 → BitVec 32
  /-- The loads executed so far. -/
  loads : ℕ

namespace Machine

/-- Register 0 reads as zero. -/
def read (m : Machine) (r : BitVec 5) : BitVec 32 := if r = 0 then 0 else m.regs r

def write (m : Machine) (r : BitVec 5) (v : BitVec 32) : Machine :=
  { m with regs := Function.update m.regs r v }

def goto (m : Machine) (pc : BitVec 32) : Machine := { m with pc := pc }

def next (m : Machine) : Machine := m.goto (m.pc + 4)

@[simp] theorem write_pc (m : Machine) (r : BitVec 5) (v : BitVec 32) : (m.write r v).pc = m.pc :=
  rfl

@[simp] theorem write_loads (m : Machine) (r : BitVec 5) (v : BitVec 32) :
    (m.write r v).loads = m.loads := rfl

@[simp] theorem goto_pc (m : Machine) (pc : BitVec 32) : (m.goto pc).pc = pc := rfl

@[simp] theorem goto_loads (m : Machine) (pc : BitVec 32) : (m.goto pc).loads = m.loads := rfl

@[simp] theorem next_pc (m : Machine) : m.next.pc = m.pc + 4 := rfl

@[simp] theorem next_loads (m : Machine) : m.next.loads = m.loads := rfl

theorem read_write {m : Machine} {r : BitVec 5} (other : r ≠ 0) (v : BitVec 32) :
    (m.write r v).read r = v := by
  rw [read, if_neg other]
  exact Function.update_self r v m.regs

end Machine

/-- A store leaves no trace in the machine: what a load returns is up to the stream. -/
def exec (stream : ℕ → BitVec 32) (m : Machine) : Instr → Machine
  | .lui rd imm => (m.write rd imm).next
  | .addi rd rs1 imm => (m.write rd (m.read rs1 + imm)).next
  | .andi rd rs1 imm => (m.write rd (m.read rs1 &&& imm)).next
  | .lw rd _ _ => { (m.write rd (stream m.loads)).next with loads := m.loads + 1 }
  | .sw _ _ _ => m.next
  | .beq rs1 rs2 imm => if m.read rs1 = m.read rs2 then m.goto (m.pc + imm) else m.next
  | .bne rs1 rs2 imm => if m.read rs1 = m.read rs2 then m.next else m.goto (m.pc + imm)
  | .jal rd imm => (m.write rd (m.pc + 4)).goto (m.pc + imm)

/-- The word of the program at an address. -/
def fetch (image : List (BitVec 32)) (pc : BitVec 32) : Option (BitVec 32) :=
  if pc.toNat % 4 = 0 then image[pc.toNat / 4]? else none

def instrAt (image : List (BitVec 32)) (pc : BitVec 32) : Option Instr :=
  (fetch image pc).bind decode

/-- One instruction, if there is one at the program counter. -/
def step (image : List (BitVec 32)) (stream : ℕ → BitVec 32) (m : Machine) : Option Machine :=
  (instrAt image m.pc).map (exec stream m)

/-- `k` instructions. -/
def run (image : List (BitVec 32)) (stream : ℕ → BitVec 32) : ℕ → Machine → Option Machine
  | 0, m => some m
  | k + 1, m => (step image stream m).bind (run image stream k)

section Runs

variable {image : List (BitVec 32)} {stream : ℕ → BitVec 32} {m m' m'' : Machine} {j k : ℕ}

theorem step_of_instrAt (stream : ℕ → BitVec 32) {i : Instr} (here : instrAt image m.pc = some i) :
    step image stream m = some (exec stream m i) := by
  rw [step, here]
  rfl

theorem run_succ (first : step image stream m = some m') :
    run image stream (k + 1) m = run image stream k m' := by
  rw [run, first]
  rfl

theorem run_add (first : run image stream j m = some m')
    (rest : run image stream k m' = some m'') : run image stream (j + k) m = some m'' := by
  induction j generalizing m with
  | zero =>
      obtain rfl := Option.some.inj first
      rw [Nat.zero_add]
      exact rest
  | succ j ih =>
      obtain ⟨next, stepped, last⟩ := Option.bind_eq_some_iff.mp first
      rw [Nat.succ_add, run_succ stepped]
      exact ih last

/-- A linear instruction goes on and reads nothing. -/
theorem step_linear (stream : ℕ → BitVec 32)
    (here : (instrAt image m.pc).any Instr.linear = true) :
    ∃ m', step image stream m = some m' ∧ m'.pc = m.pc + 4 ∧ m'.loads = m.loads := by
  cases at_ : instrAt image m.pc with
  | none =>
      rw [at_] at here
      cases here
  | some i =>
      refine ⟨_, step_of_instrAt stream at_, ?_⟩
      cases i with
      | lui | addi | andi | sw => exact ⟨rfl, rfl⟩
      | lw | beq | bne | jal =>
          rw [at_] at here
          cases here

/-- A straight line of them is run to its end. -/
theorem run_linear (stream : ℕ → BitVec 32)
    (line : ∀ j < k, (instrAt image (m.pc + BitVec.ofNat 32 (4 * j))).any Instr.linear = true) :
    ∃ m', run image stream k m = some m' ∧ m'.pc = m.pc + BitVec.ofNat 32 (4 * k) ∧
      m'.loads = m.loads := by
  induction k with
  | zero => exact ⟨m, rfl, by simp, rfl⟩
  | succ k ih =>
      obtain ⟨m', steps, pc, loads⟩ := ih fun j within => line j (Nat.lt_succ_of_lt within)
      have here := line k (Nat.lt_succ_self k)
      rw [← pc] at here
      obtain ⟨m'', last, pc', loads'⟩ := step_linear stream here
      refine ⟨m'', run_add steps (k := 1) ?_, ?_, loads'.trans loads⟩
      · rw [run_succ last, run]
      · rw [pc', pc, Nat.mul_add_one, BitVec.ofNat_add, BitVec.add_assoc]
        rfl

/-! ## Cycles without a load -/

/-- The run comes back to the instruction of `m` without a load in between. -/
def LoadFreeCycle (image : List (BitVec 32)) (stream : ℕ → BitVec 32) (m : Machine) : Prop :=
  ∃ k m', run image stream (k + 1) m = some m' ∧ m'.pc = m.pc ∧ m'.loads = m.loads

/-- **The rank rule**: there is no such cycle where every step reads a load or raises a rank
of the program counter. -/
theorem not_loadFreeCycle (inv : Machine → Prop) (rank : BitVec 32 → ℕ)
    (progress : ∀ m m', inv m → step image stream m = some m' → inv m' ∧
      (m.loads < m'.loads ∨ m'.loads = m.loads ∧ rank m.pc < rank m'.pc)) (start : inv m) :
    ¬ LoadFreeCycle image stream m := by
  have raises : ∀ (k : ℕ) (m m' : Machine), inv m → run image stream (k + 1) m = some m' →
      m.loads < m'.loads ∨ m'.loads = m.loads ∧ rank m.pc < rank m'.pc := by
    intro k
    induction k with
    | zero =>
        intro m m' here steps
        obtain ⟨next, first, last⟩ := Option.bind_eq_some_iff.mp steps
        obtain rfl := Option.some.inj last
        exact (progress m next here first).2
    | succ k ih =>
        intro m m' here steps
        obtain ⟨next, first, rest⟩ := Option.bind_eq_some_iff.mp steps
        obtain ⟨there, moved⟩ := progress m next here first
        have later := ih next m' there rest
        omega
  rintro ⟨k, m', steps, pc, loads⟩
  rcases raises k m m' start steps with more | ⟨-, higher⟩
  · omega
  · rw [pc] at higher
    exact Nat.lt_irrefl _ higher

/-- What every step keeps holds in every state of a run. -/
theorem run_invariant (inv : Machine → Prop)
    (keep : ∀ m m', inv m → step image stream m = some m' → inv m') (start : inv m)
    (steps : run image stream k m = some m') : inv m' := by
  induction k generalizing m with
  | zero => exact Option.some.inj steps ▸ start
  | succ k ih =>
      obtain ⟨next, first, rest⟩ := Option.bind_eq_some_iff.mp steps
      exact ih (keep m next start first) rest

end Runs

end MiniMac.Theory.Rv32i
