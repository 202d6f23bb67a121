/-
# Theory.Rv32iCore -- a processor in front of a data port

A processor that executes one instruction after the other.  A load or a store is an access
of the data port: the request stays up until it is granted, and the instruction is finished
by the response.  When the processor goes on is not its own business: `go` says in every
cycle whether it does, so a statement about all `go` is one about all timings.

Where the program has none of the instructions nothing is said of a processor: the core stands.
-/
import MiniMac.Theory.Rv32i

namespace MiniMac.Theory.Rv32i

set_option autoImplicit false

/-- An access of the data port, of a word. -/
structure Access where
  write : Bool
  addr : BitVec 32
  data : BitVec 32

/-- What an instruction asks for. -/
def access (m : Machine) : Instr → Option Access
  | .lw _ rs1 imm => some ⟨false, m.read rs1 + imm, 0⟩
  | .sw rs1 rs2 imm => some ⟨true, m.read rs1 + imm, m.read rs2⟩
  | _ => none

/-- The machine behind an instruction that `word` was returned to. -/
def retire (m : Machine) (i : Instr) (word : BitVec 32) : Machine := exec (fun _ => word) m i

/-- A store does not look at what is returned. -/
theorem retire_write {m : Machine} {i : Instr} {a : Access} (asks : access m i = some a)
    (write : a.write = true) (word word' : BitVec 32) : retire m i word = retire m i word' := by
  cases i with
  | sw => rfl
  | lw =>
      obtain rfl := Option.some.inj asks
      cases write
  | lui | addi | andi | beq | bne | jal => cases asks

/-- What the data port shows the processor. -/
structure Port where
  gnt : Bool
  rvalid : Bool
  rdata : BitVec 32

structure Core where
  machine : Machine
  /-- An access is open. -/
  waiting : Bool

namespace Core

variable (program : BitVec 32 → Option Instr)

/-- The request of a cycle. -/
def request (c : Core) (go : Bool) : Option Access :=
  if go && !c.waiting then (program c.machine.pc).bind (access c.machine) else none

def step (c : Core) (go : Bool) (port : Port) : Core :=
  match program c.machine.pc with
  | none => c
  | some i =>
      if c.waiting then
        if port.rvalid then ⟨retire c.machine i port.rdata, false⟩ else c
      else if go then
        match access c.machine i with
        | some _ => { c with waiting := port.gnt }
        | none => ⟨retire c.machine i 0, false⟩
      else c

variable {program} {m : Machine} {go : Bool} {port : Port}

theorem request_waiting (m : Machine) (go : Bool) : request program ⟨m, true⟩ go = none := by
  simp [request]

theorem request_rest (c : Core) : request program c false = none := rfl

theorem step_rest (m : Machine) (port : Port) :
    step program ⟨m, false⟩ false port = ⟨m, false⟩ := by
  unfold step
  split <;> rfl

section Instruction

variable {i : Instr} (here : program m.pc = some i)

include here

theorem request_go : request program ⟨m, false⟩ true = access m i := by
  simp [request, here]

theorem step_compute (inner : access m i = none) :
    step program ⟨m, false⟩ true port = ⟨retire m i 0, false⟩ := by
  simp [step, here, inner]

theorem step_granted {a : Access} (asks : access m i = some a) (grant : port.gnt = true) :
    step program ⟨m, false⟩ true port = ⟨m, true⟩ := by
  simp [step, here, asks, grant]

theorem step_silent (silent : port.rvalid = false) :
    step program ⟨m, true⟩ go port = ⟨m, true⟩ := by
  simp [step, here, silent]

theorem step_answered (valid : port.rvalid = true) :
    step program ⟨m, true⟩ go port = ⟨retire m i port.rdata, false⟩ := by
  simp [step, here, valid]

end Instruction

end Core

end MiniMac.Theory.Rv32i
