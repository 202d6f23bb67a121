/-
# System.Board -- the chip as its software sees it

A processor, a RAM, and the registers of the copy engine.  An instruction is one step.  A
start is a whole copy at once, but from then on the program keeps to the registers, until a
load of STATUS has told the end; how many loads that takes is open.  The RAM is there for
the engines: what the processor loads from it is not specified.

What a program must not do has no step: an access that is not of a whole word, or to an
address that is neither in the RAM nor a register of the copy engine, an access of the RAM
during a copy, a start during a copy or of one that leaves the RAM.  The processor is known by
eight instructions only, so a program must not come to anything else either (`Safe`).
-/
import MiniMac.Core.CopyTransfer
import MiniMac.Core.MemSubsystem
import MiniMac.Theory.Rv32iConstants
import Mathlib.Logic.Relation

namespace MiniMac.System

open MiniMac.Theory.Rv32i MiniMac.Core

set_option autoImplicit false

/-- What is behind the processor. -/
structure Device where
  ram : BitVec 11 → BitVec 32
  src : BitVec 32
  dst : BitVec 32
  len : BitVec 16
  /-- A copy was started, and no load of STATUS has told its end. -/
  copying : Bool
  /-- The done flag, outside of a copy. -/
  done : Bool

structure Board where
  machine : Machine
  device : Device

/-- At reset the RAM holds whatever it holds. -/
def Device.reset (ram : BitVec 11 → BitVec 32) : Device where
  ram := ram
  src := 0
  dst := 0
  len := 0
  copying := false
  done := false

/-- So do the processor's registers. -/
def Board.reset (ram : BitVec 11 → BitVec 32) (regs : BitVec 5 → BitVec 32) : Board where
  machine := ⟨0x80, regs, 0⟩
  device := .reset ram

/-- The registers of the copy engine are in the first of the peripherals' pages. -/
def isCopyReg (addr : BitVec 32) : Bool :=
  addr.extractLsb' 20 12 == 0x400#12 && addr.extractLsb' 12 4 == 0x0#4

def isWord (addr : BitVec 32) : Bool := addr.extractLsb' 0 2 == 0#2

namespace Device

/-- What a start asks for. -/
def transfer (d : Device) : DmaMaster.Transfer := ⟨d.src, d.dst, d.len⟩

/-- All places of the copy are in the RAM. -/
def Fits (d : Device) : Prop :=
  DmaMaster.aligned d.src d.dst = true ∧ ∀ k < d.transfer.words,
    MemSubsystem.inRam (Theory.wordAddr d.src k) = true ∧
      MemSubsystem.inRam (Theory.wordAddr d.dst k) = true

instance (d : Device) : Decidable d.Fits :=
  inferInstanceAs (Decidable (_ ∧ ∀ k < d.transfer.words, _))

def start (d : Device) : Option Device :=
  if d.copying = false ∧ d.Fits then
    some { d with
      ram := d.transfer.copied MemSubsystem.ramIndex d.ram d.transfer.words
      copying := true
      done := false }
  else none

/-- A store to a register. -/
def write (d : Device) (offset : BitVec 8) (word : BitVec 32) : Option Device :=
  match offset with
  | 0x00#8 => some { d with src := word }
  | 0x04#8 => some { d with dst := word }
  | 0x08#8 => some { d with len := word.setWidth 16 }
  | 0x0C#8 => if word.getLsbD 0 then d.start else some d
  | 0x14#8 =>
      if word.getLsbD 0 then
        if d.copying then none else some { d with done := false }
      else some d
  | _ => some d

section Writes

variable {d d' : Device} {offset : BitVec 8} {word : BitVec 32}

theorem start_registers (started : d.start = some d') :
    d'.src = d.src ∧ d'.dst = d.dst ∧ d'.len = d.len := by
  unfold start at started
  split at started
  · obtain rfl := Option.some.inj started
    exact ⟨rfl, rfl, rfl⟩
  · cases started

theorem write_registers (stored : d.write offset word = some d') :
    d'.src = (if offset = 0x00 then word else d.src) ∧
    d'.dst = (if offset = 0x04 then word else d.dst) ∧
    d'.len = (if offset = 0x08 then word.setWidth 16 else d.len) := by
  unfold write at stored
  split at stored
  · obtain rfl := Option.some.inj stored
    exact ⟨rfl, rfl, rfl⟩
  · obtain rfl := Option.some.inj stored
    exact ⟨rfl, rfl, rfl⟩
  · obtain rfl := Option.some.inj stored
    exact ⟨rfl, rfl, rfl⟩
  · split at stored
    · exact start_registers stored
    · obtain rfl := Option.some.inj stored
      exact ⟨rfl, rfl, rfl⟩
  · split at stored
    · split at stored
      · cases stored
      · obtain rfl := Option.some.inj stored
        exact ⟨rfl, rfl, rfl⟩
    · obtain rfl := Option.some.inj stored
      exact ⟨rfl, rfl, rfl⟩
  · obtain rfl := Option.some.inj stored
    simp_all

/-- A write is a start, a clear, or one that the copy does not notice. -/
theorem write_cases (stored : d.write offset word = some d') :
    offset = 0x0C ∧ word.getLsbD 0 = true ∧ d.start = some d' ∨
    offset = 0x14 ∧ word.getLsbD 0 = true ∧ d.copying = false ∧ d' = { d with done := false } ∨
    ¬ ((offset = 0x0C ∨ offset = 0x14) ∧ word.getLsbD 0 = true) ∧
      d'.ram = d.ram ∧ d'.copying = d.copying ∧ d'.done = d.done := by
  unfold write at stored
  split at stored
  · obtain rfl := Option.some.inj stored
    exact .inr (.inr (by simp))
  · obtain rfl := Option.some.inj stored
    exact .inr (.inr (by simp))
  · obtain rfl := Option.some.inj stored
    exact .inr (.inr (by simp))
  · split at stored
    · next bit => exact .inl ⟨rfl, bit, stored⟩
    · next bit =>
        obtain rfl := Option.some.inj stored
        exact .inr (.inr ⟨fun both => bit both.2, rfl, rfl, rfl⟩)
  · split at stored
    · next bit =>
        split at stored
        · cases stored
        · next free =>
            exact .inr (.inl ⟨rfl, bit, by simpa using free, (Option.some.inj stored).symm⟩)
    · next bit =>
        obtain rfl := Option.some.inj stored
        exact .inr (.inr ⟨fun both => bit both.2, rfl, rfl, rfl⟩)
  · obtain rfl := Option.some.inj stored
    exact .inr (.inr (by simp_all))

end Writes

def store (d : Device) (addr word : BitVec 32) : Option Device :=
  if isWord addr then
    if MemSubsystem.inRam addr then
      if d.copying then none
      else some { d with ram := Function.update d.ram (MemSubsystem.ramIndex addr) word }
    else if isCopyReg addr then d.write (addr.setWidth 8) word
    else none
  else none

/-- Some stores, one after the other. -/
def stores (d : Device) : List Store → Option Device
  | [] => some d
  | s :: l => (d.store s.1 s.2).bind fun d' => stores d' l

theorem stores_append (d : Device) (l l' : List Store) :
    d.stores (l ++ l') = (d.stores l).bind fun d' => d'.stores l' := by
  induction l generalizing d with
  | nil => rfl
  | cons s l ih =>
      rw [List.cons_append, stores, stores, Option.bind_assoc]
      exact congrArg _ (funext fun d' => ih d')

/-- What a register other than STATUS reads as. -/
def read (d : Device) (offset : BitVec 8) : BitVec 32 :=
  match offset with
  | 0x00#8 => d.src
  | 0x04#8 => d.dst
  | 0x08#8 => d.len.setWidth 32
  | _ => 0

/-- The end of the copy was seen. -/
def ended (d : Device) : Device := { d with copying := false, done := true }

/-- A load of STATUS. -/
def isStatus (addr : BitVec 32) : Bool := isCopyReg addr && addr.setWidth 8 == 0x10#8

/-- A load returns a word. -/
inductive Loads (d : Device) (addr : BitVec 32) : BitVec 32 → Device → Prop
  | ram (word : BitVec 32) (inside : MemSubsystem.inRam addr = true)
      (free : d.copying = false) : Loads d addr word d
  | register (reg : isCopyReg addr = true) (other : addr.setWidth 8 ≠ 0x10#8) :
      Loads d addr (d.read (addr.setWidth 8)) d
  | resting (word : BitVec 32) (status : isStatus addr = true) (free : d.copying = false)
      (flag : word.getLsbD 1 = d.done) : Loads d addr word d
  | unfinished (word : BitVec 32) (status : isStatus addr = true) (copying : d.copying = true)
      (flag : word.getLsbD 1 = false) : Loads d addr word d
  | finished (word : BitVec 32) (status : isStatus addr = true) (copying : d.copying = true)
      (flag : word.getLsbD 1 = true) : Loads d addr word d.ended

/-- A load that the program may do. -/
def Loadable (d : Device) (addr : BitVec 32) : Prop :=
  isWord addr = true ∧
    (MemSubsystem.inRam addr = true ∧ d.copying = false ∨ isCopyReg addr = true)

end Device

namespace Board

/-! ## Programs -/

section Programs

variable (program : BitVec 32 → Option Instr)

/-- The access of the next instruction. -/
def next (b : Board) : Option Access :=
  (program b.machine.pc).bind (access b.machine)

/-- One instruction. -/
inductive Step (b : Board) : Board → Prop
  | compute {i : Instr} (here : program b.machine.pc = some i)
      (inner : access b.machine i = none) : Step b ⟨retire b.machine i 0, b.device⟩
  | store {i : Instr} {a : Access} {d : Device} (here : program b.machine.pc = some i)
      (asks : access b.machine i = some a) (write : a.write = true)
      (stored : b.device.store a.addr a.data = some d) :
      Step b ⟨retire b.machine i 0, d⟩
  | load {i : Instr} {a : Access} {word : BitVec 32} {d : Device}
      (here : program b.machine.pc = some i) (asks : access b.machine i = some a)
      (read : a.write = false) (whole : isWord a.addr = true)
      (loaded : b.device.Loads a.addr word d) : Step b ⟨retire b.machine i word, d⟩

/-- There is a next instruction, and the program may do it. -/
structure Safe (b : Board) : Prop where
  decoded : (program b.machine.pc).isSome = true
  allowed : ∀ a, b.next program = some a →
    if a.write then (b.device.store a.addr a.data).isSome = true else b.device.Loadable a.addr

/-- A program that does nothing it must not do. -/
def Disciplined (b : Board) : Prop :=
  ∀ b', Relation.ReflTransGen (Step program) b b' → b'.Safe program

/-- The next instruction is a load of STATUS. -/
def polls (b : Board) : Bool :=
  (b.next program).any fun a => !a.write && Device.isStatus a.addr

variable {program} in
theorem polls_eq {b : Board} {a : Option Access} (next : b.next program = a) :
    b.polls program = a.any fun a => !a.write && Device.isStatus a.addr := by
  rw [polls, next]

/-- A run of a program: one instruction after the other, and a copy the end of which is looked
for again and again is seen to end. -/
structure Run (b : ℕ → Board) : Prop where
  next : ∀ k, Step program (b k) (b (k + 1))
  ends : ∀ k, ∃ n, ∀ j, n ≤ j → (∀ i, k ≤ i → i ≤ j → (b i).device.copying = true) →
    (b j).polls program = true → (b (j + 1)).device.copying = false

end Programs

end Board

end MiniMac.System
