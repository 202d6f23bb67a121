/-
# Dv.BootFirmware -- where the boot program gets to

The program that the generator emits, run from the reset address with every load
answered by a stream of words.  It polls the copy engine's status until bit 1 is set,
stores a signature, and then meets a jump to itself at address 0xD4 that its
documented source does not have.  So it is caught outside of its two final loops as
soon as a poll succeeds, and polls for ever otherwise (`no_dead_end_iff`).
-/
import MiniMac.Theory.Rv32i
import MiniMac.Dv.BuildFirmware
import Mathlib.Data.Nat.Find

namespace MiniMac.Dv.BuildFirmware

open MiniMac.Theory.Rv32i

set_option autoImplicit false

/-- The words of the ROM. -/
def image : List (BitVec 32) := (firmware.map Firmware.words).getD []

/-- The address of an instruction of the program. -/
def address (index : ℕ) : BitVec 32 := BitVec.ofNat 32 (0x80 + 4 * index)

def between (first last : ℕ) (pc : BitVec 32) : Bool :=
  decide (address first ≤ pc) && decide (pc ≤ address last)

/-- The two final loops, from the label of the signature code to the jump back to it. -/
def terminal (pc : BitVec 32) : Bool :=
  firmware.any fun f => between f.failLabel f.failLoop pc || between f.passLabel f.passLoop pc

/-- The machine at reset, with whatever the registers hold. -/
def start (regs : BitVec 5 → BitVec 32) : Machine := ⟨address 0, regs, 0⟩

/-- No state of the run is caught in a cycle without a load outside of the final loops. -/
def NoDeadEnd (regs : BitVec 5 → BitVec 32) (stream : ℕ → BitVec 32) : Prop :=
  ∀ k m, run image stream k (start regs) = some m → LoadFreeCycle image stream m →
    terminal m.pc = true

/-! ## What the image holds -/

/-- The two straight lines of the program, and the poll between them and the jump behind them,
read off the image at one go. -/
theorem image_lines :
    (∀ j < 15, (instrAt image (address 0 + BitVec.ofNat 32 (4 * j))).any Instr.linear = true) ∧
    (instrAt image (address 15) = some (.lw 6 2 16) ∧
      instrAt image (address 16) = some (.andi 6 6 2) ∧
      instrAt image (address 17) = some (.beq 6 0 (-8))) ∧
    (∀ j < 3, (instrAt image (address 18 + BitVec.ofNat 32 (4 * j))).any Instr.linear = true) ∧
    instrAt image (address 21) = some (.jal 0 0) := by
  decide +kernel

/-- The instructions before the poll. -/
theorem line_before : ∀ j < 15, (instrAt image (address 0 + BitVec.ofNat 32 (4 * j))).any
    Instr.linear = true :=
  image_lines.1

theorem at_lw : instrAt image (address 15) = some (.lw 6 2 16) := image_lines.2.1.1

theorem at_andi : instrAt image (address 16) = some (.andi 6 6 2) := image_lines.2.1.2.1

theorem at_beq : instrAt image (address 17) = some (.beq 6 0 (-8)) := image_lines.2.1.2.2

/-- The instructions of the signature. -/
theorem line_after : ∀ j < 3, (instrAt image (address 18 + BitVec.ofNat 32 (4 * j))).any
    Instr.linear = true :=
  image_lines.2.2.1

theorem at_jal : instrAt image (address 21) = some (.jal 0 0) := image_lines.2.2.2

/-! ## The poll -/

section Runs

variable {stream : ℕ → BitVec 32} {m : Machine}

theorem and_two_eq_zero_iff (w : BitVec 32) : w &&& 2 = 0 ↔ w.getLsbD 1 = false := by
  have two : (2 : BitVec 32) = BitVec.twoPow 32 1 := rfl
  rw [two, BitVec.and_twoPow]
  cases w.getLsbD 1 with
  | false => simp
  | true => simp; decide

theorem step_lw (stream : ℕ → BitVec 32) (here : m.pc = address 15) :
    ∃ m', step image stream m = some m' ∧ m'.pc = address 16 ∧ m'.loads = m.loads + 1 ∧
      m'.read 6 = stream m.loads := by
  refine ⟨_, step_of_instrAt stream (here.symm ▸ at_lw), ?_, rfl, ?_⟩
  · simp [exec, here]
    rfl
  · exact Machine.read_write (m := m) (by decide) _

theorem step_andi (stream : ℕ → BitVec 32) (here : m.pc = address 16) :
    ∃ m', step image stream m = some m' ∧ m'.pc = address 17 ∧ m'.loads = m.loads ∧
      m'.read 6 = m.read 6 &&& 2 := by
  refine ⟨_, step_of_instrAt stream (here.symm ▸ at_andi), ?_, rfl, ?_⟩
  · simp [exec, here]
    rfl
  · exact Machine.read_write (m := m) (by decide) _

theorem step_beq (stream : ℕ → BitVec 32) (here : m.pc = address 17) :
    ∃ m', step image stream m = some m' ∧ m'.loads = m.loads ∧
      m'.pc = if m.read 6 = 0 then address 15 else address 18 := by
  refine ⟨_, step_of_instrAt stream (here.symm ▸ at_beq), ?_, ?_⟩
  · rw [exec]
    split
    · exact Machine.goto_loads _ _
    · exact Machine.next_loads _
  · have zero : m.read 0 = 0 := rfl
    rw [exec, zero]
    split
    · rw [Machine.goto_pc, here]
      rfl
    · rw [Machine.next_pc, here]
      rfl

/-- One turn of the poll: it ends with bit 1 of the word loaded. -/
theorem run_poll (stream : ℕ → BitVec 32) (here : m.pc = address 15) :
    ∃ m', run image stream 3 m = some m' ∧ m'.loads = m.loads + 1 ∧
      m'.pc = if (stream m.loads).getLsbD 1 then address 18 else address 15 := by
  obtain ⟨m₁, first, pc₁, loads₁, word⟩ := step_lw stream here
  obtain ⟨m₂, second, pc₂, loads₂, masked⟩ := step_andi stream pc₁
  obtain ⟨m₃, third, loads₃, pc₃⟩ := step_beq stream pc₂
  refine ⟨m₃, ?_, ?_, ?_⟩
  · rw [run_succ first, run_succ second, run_succ third, run]
  · rw [loads₃, loads₂, loads₁]
  · rw [pc₃, masked, word]
    cases bit : (stream m.loads).getLsbD 1 with
    | false => rw [if_pos ((and_two_eq_zero_iff _).mpr bit), if_neg Bool.false_ne_true]
    | true =>
        have some_ : ¬ stream m.loads &&& 2 = 0 := by
          rw [and_two_eq_zero_iff, bit]
          exact Bool.noConfusion
        rw [if_neg some_, if_pos rfl]

/-! ## While the poll fails -/

/-- The machine is on its way to the poll or in it, and bit 1 of the word it looks at is clear. -/
def Polling (m : Machine) : Prop :=
  (∃ j < 15, m.pc = address j) ∨ m.pc = address 15 ∨
    (m.pc = address 16 ∧ (m.read 6).getLsbD 1 = false) ∨ (m.pc = address 17 ∧ m.read 6 = 0)

/-- The poll comes after everything that leads to it. -/
def rank (pc : BitVec 32) : ℕ := if pc = address 15 then 0x100 else pc.toNat

theorem address_toNat {j : ℕ} (small : j < 32) : (address j).toNat = 0x80 + 4 * j := by
  rw [address, BitVec.toNat_ofNat]
  omega

theorem rank_address {j : ℕ} (small : j < 32) (other : j ≠ 15) :
    rank (address j) = 0x80 + 4 * j := by
  have ne : address j ≠ address 15 := by
    intro same
    have values := congrArg BitVec.toNat same
    rw [address_toNat small, address_toNat (by decide)] at values
    omega
  rw [rank, if_neg ne, address_toNat small]

theorem rank_poll : rank (address 15) = 0x100 := if_pos rfl

theorem address_succ (j : ℕ) : address j + 4 = address (j + 1) := by
  rw [address, address, Nat.mul_add_one, ← Nat.add_assoc, BitVec.ofNat_add _ 4]
  rfl

/-- Every step keeps on polling, and reads a word or goes further. -/
theorem polling_step (clear : ∀ k, (stream k).getLsbD 1 = false) (m m' : Machine)
    (polling : Polling m) (stepped : step image stream m = some m') :
    Polling m' ∧ (m.loads < m'.loads ∨ m'.loads = m.loads ∧ rank m.pc < rank m'.pc) := by
  rcases polling with ⟨j, before, here⟩ | here | ⟨here, bit⟩ | ⟨here, zero⟩
  · have linear := line_before j before
    have at_ : address 0 + BitVec.ofNat 32 (4 * j) = m.pc := by
      rw [here, address, address, ← BitVec.ofNat_add]
    rw [at_] at linear
    obtain ⟨next, first, pc, loads⟩ := step_linear stream linear
    obtain rfl := Option.some.inj (first.symm.trans stepped)
    rw [here, address_succ] at pc
    refine ⟨?_, .inr ⟨loads, ?_⟩⟩
    · by_cases last : j + 1 = 15
      · exact .inr (.inl (last ▸ pc))
      · exact .inl ⟨j + 1, by omega, pc⟩
    · rw [here, pc, rank_address (by omega) (by omega)]
      by_cases last : j + 1 = 15
      · rw [last, rank_poll]
        omega
      · rw [rank_address (by omega) last]
        omega
  · obtain ⟨next, first, pc, loads, word⟩ := step_lw stream here
    obtain rfl := Option.some.inj (first.symm.trans stepped)
    exact ⟨.inr (.inr (.inl ⟨pc, word ▸ clear _⟩)), .inl (by omega)⟩
  · obtain ⟨next, first, pc, loads, masked⟩ := step_andi stream here
    obtain rfl := Option.some.inj (first.symm.trans stepped)
    refine ⟨.inr (.inr (.inr ⟨pc, masked.trans ((and_two_eq_zero_iff _).mpr bit)⟩)),
      .inr ⟨loads, ?_⟩⟩
    rw [here, pc, rank_address (by decide) (by decide), rank_address (by decide) (by decide)]
    decide
  · obtain ⟨next, first, loads, pc⟩ := step_beq stream here
    obtain rfl := Option.some.inj (first.symm.trans stepped)
    rw [if_pos zero] at pc
    refine ⟨.inr (.inl pc), .inr ⟨loads, ?_⟩⟩
    rw [here, pc, rank_address (by decide) (by decide), rank_poll]
    decide

theorem noDeadEnd_of_clear (regs : BitVec 5 → BitVec 32)
    (clear : ∀ k, (stream k).getLsbD 1 = false) : NoDeadEnd regs stream := by
  intro k m reached cycle
  have polling : Polling m := run_invariant Polling
    (fun m m' here stepped => (polling_step clear m m' here stepped).1)
    (.inl ⟨0, by decide, rfl⟩) reached
  exact absurd cycle (not_loadFreeCycle Polling rank (polling_step clear) polling)

/-! ## When a poll succeeds -/

/-- The poll is reached again and again as long as it fails. -/
theorem reaches_poll (regs : BitVec 5 → BitVec 32) (n : ℕ)
    (fails : ∀ k < n, (stream k).getLsbD 1 = false) :
    ∃ k m, run image stream k (start regs) = some m ∧ m.pc = address 15 ∧ m.loads = n := by
  induction n with
  | zero =>
      obtain ⟨m, steps, pc, loads⟩ := run_linear (m := start regs) stream line_before
      exact ⟨15, m, steps, pc, loads⟩
  | succ n ih =>
      obtain ⟨k, m, steps, here, loads⟩ := ih fun k before => fails k (Nat.lt_succ_of_lt before)
      obtain ⟨m', turn, loads', pc⟩ := run_poll stream here
      rw [loads, fails n (Nat.lt_succ_self n), if_neg Bool.false_ne_true] at pc
      exact ⟨k + 3, m', run_add steps turn, pc, by omega⟩

/-- The first poll that succeeds leads into the jump to itself. -/
theorem reaches_jump (regs : BitVec 5 → BitVec 32) {n : ℕ}
    (fails : ∀ k < n, (stream k).getLsbD 1 = false) (succeeds : (stream n).getLsbD 1 = true) :
    ∃ k m, run image stream k (start regs) = some m ∧ m.pc = address 21 := by
  obtain ⟨k, m, steps, here, loads⟩ := reaches_poll regs n fails
  obtain ⟨m', turn, -, pc⟩ := run_poll stream here
  rw [loads, succeeds, if_pos rfl] at pc
  obtain ⟨m'', signature, pc', -⟩ := run_linear (m := m') (k := 3) stream
    (by rw [pc]; exact line_after)
  refine ⟨k + 3 + 3, m'', run_add (run_add steps turn) signature, ?_⟩
  rw [pc', pc]
  rfl

theorem jump_caught (stream : ℕ → BitVec 32) (here : m.pc = address 21) :
    LoadFreeCycle image stream m := by
  have stepped := step_of_instrAt stream (here.symm ▸ at_jal)
  refine ⟨0, _, (run_succ stepped).trans rfl, ?_, rfl⟩
  exact BitVec.add_zero m.pc

theorem jump_not_terminal : terminal (address 21) = false := by decide +kernel

theorem clear_of_noDeadEnd {regs : BitVec 5 → BitVec 32} (free : NoDeadEnd regs stream) (k : ℕ) :
    (stream k).getLsbD 1 = false := by
  by_contra bit
  have succeeds : ∃ n, (stream n).getLsbD 1 = true := ⟨k, by simpa using bit⟩
  obtain ⟨k, m, steps, here⟩ := reaches_jump regs
    (fun k before => by simpa using Nat.find_min succeeds before) (Nat.find_spec succeeds)
  have final := free k m steps (jump_caught stream here)
  rw [here, jump_not_terminal] at final
  cases final

end Runs

/-- **The boot program has no dead end exactly when** no word it loads has bit 1 set, so that
it polls for ever. -/
theorem no_dead_end_iff (regs : BitVec 5 → BitVec 32) (stream : ℕ → BitVec 32) :
    NoDeadEnd regs stream ↔ ∀ k, (stream k).getLsbD 1 = false := by
  constructor
  · intro free
    exact clear_of_noDeadEnd free
  · intro clear
    exact noDeadEnd_of_clear regs clear

/-- A copy that is done at the first poll. -/
theorem boot_caught :
    ¬ ∀ (regs : BitVec 5 → BitVec 32) (stream : ℕ → BitVec 32), NoDeadEnd regs stream := by
  intro claim
  have clear := (clear_of_noDeadEnd (claim (fun _ => 0) fun _ => 2)) 0
  exact absurd clear (by decide)

end MiniMac.Dv.BuildFirmware
