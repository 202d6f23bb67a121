/-
# Dv.BootRun -- the boot program on the chip

The generator's image in the boot ROM, executed by the processor on the chip.  On the board
the program writes two words, has the engine copy them, polls until the copy is seen to end
and stores its signature; there it stays (`boot_settles`).  Since it is disciplined, so does
the chip, whatever the timing (`boot_reaches_signature`).
-/
import MiniMac.Dv.BootFirmware
import MiniMac.Dv.FirmwareImage
import MiniMac.System.BoardLine
import MiniMac.System.BoardRefines

namespace MiniMac.Dv.BuildFirmware

open MiniMac.Theory MiniMac.Theory.Rv32i MiniMac.Core MiniMac.Soc MiniMac.System

set_option autoImplicit false

/-! ## The instructions -/

/-- From the reset address up to the start of the copy. -/
def setup : List Instr :=
  [.lui 1 0x10000000, .lui 2 0x40000000,
    .lui 3 0x11223000, .addi 3 3 0x344, .sw 1 3 0,
    .lui 3 0x55667000, .addi 3 3 0x788, .sw 1 3 4,
    .addi 4 1 32, .sw 2 1 0, .sw 2 4 4,
    .addi 5 0 8, .sw 2 5 8, .addi 5 0 1, .sw 2 5 12]

def poll : List Instr := [.lw 6 2 16, .andi 6 6 2, .beq 6 0 (-8)]

/-- The signature. -/
def signature : List Instr := [.lui 7 0x600D0000, .addi 7 7 1, .sw 1 7 64]

def bootCode : List Instr := setup ++ poll ++ signature ++ [.jal 0 0]

/-- The generator's program, as the ROM gets it. -/
def bootProgram : List ℤ := (firmware.map Firmware.program).getD []

theorem bootProgram_nonneg : ∀ value ∈ bootProgram, 0 ≤ value := by decide +kernel

theorem boot_code : ∀ k < 22, k < bootProgram.length ∧
    decode (BitVec.ofInt 32 (bootProgram.getD k 0)) = bootCode[k]? := by
  decide +kernel

theorem isWord_address : ∀ k < 22, isWord (address k) = true := by decide

/-- What the processor executes at the addresses of the program. -/
theorem fetchRom_address {unknown rom : BitVec 10 → BitVec 32}
    (loaded : bootRom unknown (imageText bootProgram) = some rom) {k : ℕ} (small : k < 22) :
    Computer.fetchRom rom (address k) = bootCode[k]? := by
  obtain ⟨within, code⟩ := boot_code k small
  rw [bootRom_imageText] at loaded
  split at loaded
  · have length : (imageWords bootProgram).length = 32 + bootProgram.length := by
      rw [imageWords, List.length_append, List.length_replicate]
    have index : (imageWords bootProgram).getD (32 + k) 0 = bootProgram.getD k 0 := by
      rw [imageWords, List.getD_append_right _ _ _ _ (by simp), List.length_replicate,
        Nat.add_sub_cancel_left]
    rw [Computer.fetchRom, if_pos (isWord_address k small), ← Option.some.inj loaded, ← code,
      address]
    dsimp only
    rw [romIndex_ofNat (by omega), length, if_pos (by omega), index]
  · cases loaded

/-- A program that has instructions at the addresses from `k` on. -/
theorem follows_address {program : BitVec 32 → Option Instr} {l : List Instr} {k : ℕ}
    (code : ∀ j (within : j < l.length), program (address (k + j)) = some l[j]) :
    Follows program (address (k + l.length)) (address k) l := by
  induction l generalizing k with
  | nil => rfl
  | cons i l ih =>
      refine ⟨code 0 (Nat.zero_lt_succ _), ?_⟩
      rw [address_succ, List.length_cons, Nat.add_comm l.length, ← Nat.add_assoc]
      refine ih fun j within => ?_
      rw [Nat.add_assoc, Nat.add_comm 1]
      exact code (j + 1) (Nat.succ_lt_succ within)

/-! ## The board -/

section Boards

variable (mem : BitVec 11 → BitVec 32)

/-- The RAM with the two words of the program. -/
def sourceRam : BitVec 11 → BitVec 32 :=
  Function.update (Function.update mem 0 0x11223344) 1 0x55667788

/-- The RAM with their copy. -/
def copiedRam : BitVec 11 → BitVec 32 :=
  Function.update (Function.update (sourceRam mem) 8 0x11223344) 9 0x55667788

/-- The RAM in the end. -/
def bootRam : BitVec 11 → BitVec 32 := Function.update (copiedRam mem) 16 0x600D0001

/-- The board's device at the poll. -/
def copyStarted : Device where
  ram := copiedRam mem
  src := 0x10000000
  dst := 0x10000020
  len := 8
  copying := true
  done := false

/-- The board's device in the end. -/
def signed : Device := { (copyStarted mem).ended with ram := bootRam mem }

/-- The bases of the RAM and of the copy engine's registers. -/
def bases : Known := Function.update (Function.update (fun _ => none) 1 (some 0x10000000)) 2
  (some 0x40000000)

def setupStores : List Store :=
  [(0x10000000, 0x11223344), (0x10000004, 0x55667788), (0x40000000, 0x10000000),
    (0x40000004, 0x10000020), (0x40000008, 8), (0x4000000C, 1)]

theorem setup_line : (Known.line (fun _ => none) setup).map (fun r => (r.1 1, r.1 2, r.2)) =
    some (some 0x10000000, some 0x40000000, setupStores) := by
  decide +kernel

theorem signature_line : (Known.line bases signature).map Prod.snd =
    some [(0x10000040, 0x600D0001)] := by
  decide +kernel

/-- What the program asks of the copy engine. -/
def bootTransfer : DmaMaster.Transfer := ⟨0x10000000, 0x10000020, 8⟩

/-- The board's device before the start. -/
def configured : Device := { copyStarted mem with ram := sourceRam mem, copying := false }

theorem configured_fits : (configured mem).Fits := by
  have fits : (configured fun _ => 0).Fits := by decide
  exact fits

theorem bootTransfer_copied : bootTransfer.copied MemSubsystem.ramIndex (sourceRam mem)
    bootTransfer.words = copiedRam mem := by
  have words : bootTransfer.words = 2 := by decide
  have first : bootTransfer.word MemSubsystem.ramIndex (sourceRam mem) 0 = 0x11223344 := rfl
  have second : bootTransfer.word MemSubsystem.ramIndex (sourceRam mem) 1 = 0x55667788 := rfl
  rw [words, DmaMaster.Transfer.copied_succ, DmaMaster.Transfer.copied_succ, first, second]
  rfl

theorem setup_stores : (Device.reset mem).stores setupStores = some (copyStarted mem) := by
  have before : (Device.reset mem).stores (setupStores.take 5) = some (configured mem) := rfl
  have started : (configured mem).start = some (copyStarted mem) := by
    rw [Device.start, if_pos ⟨rfl, configured_fits mem⟩]
    exact congrArg (fun ram => some { copyStarted mem with ram := ram }) (bootTransfer_copied mem)
  rw [← List.take_append_drop 5 setupStores, Device.stores_append, before]
  show ((configured mem).start.bind fun d => some d) = _
  rw [started]
  rfl

theorem signature_store : (copyStarted mem).ended.store 0x10000040 0x600D0001 =
    some (signed mem) := rfl

/-- What a load of STATUS tells during the copy. -/
theorem copyStarted_loads {word : BitVec 32} {d : Device}
    (loaded : (copyStarted mem).Loads 0x40000010 word d) :
    d = if word.getLsbD 1 then (copyStarted mem).ended else copyStarted mem := by
  cases loaded with
  | ram _ inside free => cases free
  | register reg other => exact absurd rfl other
  | resting _ status free => cases free
  | unfinished _ status copying flag => rw [flag, if_neg Bool.false_ne_true]
  | finished _ status copying flag => rw [flag, if_pos rfl]

/-! ## The poll -/

structure AtPoll (b : Board) : Prop where
  here : b.machine.pc = address 15
  knows : Knows b.machine bases
  device : b.device = copyStarted mem

/-- Bit 1 of the word that was loaded tells the end of the copy. -/
structure AtMask (b : Board) : Prop where
  here : b.machine.pc = address 16
  knows : Knows b.machine bases
  device : b.device =
    if (b.machine.read 6).getLsbD 1 then (copyStarted mem).ended else copyStarted mem

structure AtTest (b : Board) : Prop where
  here : b.machine.pc = address 17
  knows : Knows b.machine bases
  device : b.device = if b.machine.read 6 = 0 then copyStarted mem else (copyStarted mem).ended

/-- What the setup leaves behind. -/
def Ready (k : Known) (d : Device) : Prop :=
  k 1 = some 0x10000000 ∧ k 2 = some 0x40000000 ∧ d = copyStarted mem

/-- The signature is ahead. -/
def Signing (program : BitVec 32 → Option Instr) (b : Board) (l : List Instr) : Prop :=
  b.Ahead program (address 21) (fun _ d => d = signed mem) l

/-- The program is through. -/
structure Signed (b : Board) : Prop where
  here : b.machine.pc = address 21
  device : b.device = signed mem

end Boards

section Steps

variable {mem : BitVec 11 → BitVec 32} {program : BitVec 32 → Option Instr}
  (code : ∀ k < 22, program (address k) = bootCode[k]?) {b b' : Board}

include code

theorem AtPoll.next (poll : AtPoll mem b) : program b.machine.pc = some (.lw 6 2 16) ∧
    access b.machine (.lw 6 2 16) = some ⟨false, 0x40000010, 0⟩ := by
  refine ⟨?_, ?_⟩
  · rw [poll.here]
    exact code 15 (by decide)
  · rw [access, poll.knows 2 0x40000000 rfl]
    rfl

theorem AtPoll.safe (poll : AtPoll mem b) : b.Safe program := by
  obtain ⟨here, asks⟩ := poll.next code
  exact Board.safe_load here asks rfl ⟨by decide, .inr (by decide)⟩

theorem AtPoll.polls (poll : AtPoll mem b) : b.polls program = true := by
  obtain ⟨here, asks⟩ := poll.next code
  rw [Board.polls_eq ((Board.next_eq here).trans asks)]
  decide

theorem AtPoll.step (poll : AtPoll mem b) (step : Board.Step program b b') : AtMask mem b' := by
  obtain ⟨here, asks⟩ := poll.next code
  obtain ⟨word, d, loaded, rfl⟩ := step.load_eq here asks rfl
  rw [poll.device] at loaded
  refine ⟨?_, ?_, ?_⟩
  · show b.machine.pc + 4 = address 16
    rw [poll.here]
    exact address_succ 15
  · have kept : bases.after (.lw 6 2 16) = bases := Function.update_eq_self_iff.mpr rfl
    exact kept ▸ poll.knows.retire (.lw 6 2 16) word
  · have read : (retire b.machine (.lw 6 2 16) word).read 6 = word :=
      Machine.read_write (m := b.machine) (by decide) word
    dsimp only
    rw [read]
    exact copyStarted_loads mem loaded

theorem AtMask.step (mask : AtMask mem b) (step : Board.Step program b b') :
    AtTest mem b' ∧ b'.device = b.device := by
  have here : program b.machine.pc = some (.andi 6 6 2) := by
    rw [mask.here]
    exact code 16 (by decide)
  obtain rfl := step.compute_eq here rfl
  refine ⟨⟨?_, ?_, ?_⟩, rfl⟩
  · show b.machine.pc + 4 = address 17
    rw [mask.here]
    exact address_succ 16
  · have kept : bases.after (.andi 6 6 2) = bases := Function.update_eq_self_iff.mpr rfl
    exact kept ▸ mask.knows.retire (.andi 6 6 2) 0
  · have read : (retire b.machine (.andi 6 6 2) 0).read 6 = b.machine.read 6 &&& 2 :=
      Machine.read_write (m := b.machine) (by decide) _
    dsimp only
    rw [read, mask.device]
    cases bit : (b.machine.read 6).getLsbD 1 with
    | false => rw [if_pos ((and_two_eq_zero_iff _).mpr bit), if_neg Bool.false_ne_true]
    | true =>
        have set : ¬ b.machine.read 6 &&& 2 = 0 := by
          rw [and_two_eq_zero_iff, bit]
          exact Bool.noConfusion
        rw [if_neg set, if_pos rfl]

/-- The poll goes round, or the copy was seen to end. -/
theorem AtTest.step (test : AtTest mem b) (step : Board.Step program b b') :
    AtPoll mem b' ∧ b.device = copyStarted mem ∨ Signing mem program b' signature := by
  have here : program b.machine.pc = some (.beq 6 0 (-8)) := by
    rw [test.here]
    exact code 17 (by decide)
  obtain rfl := step.compute_eq here rfl
  have device := test.device
  have knows := test.knows.retire (.beq 6 0 (-8)) 0
  have zero : b.machine.read 0 = 0 := rfl
  have pc : (retire b.machine (.beq 6 0 (-8)) 0).pc =
      if b.machine.read 6 = 0 then address 15 else address 18 := by
    rw [retire, exec, zero]
    split
    · rw [Machine.goto_pc, test.here]
      rfl
    · rw [Machine.next_pc, test.here]
      rfl
  by_cases clear : b.machine.read 6 = 0
  · rw [if_pos clear] at device pc
    exact .inl ⟨⟨pc, knows, device⟩, device⟩
  · rw [if_neg clear] at device pc
    refine .inr ⟨?_, ?_⟩
    · rw [pc]
      exact follows_address (l := signature) (k := 18) fun j within => by
        have small : j < 3 := within
        rw [code (18 + j) (by omega)]
        obtain rfl | rfl | rfl : j = 0 ∨ j = 1 ∨ j = 2 := by omega
        · rfl
        · rfl
        · rfl
    · obtain ⟨⟨k, stores⟩, line, rfl⟩ := Option.map_eq_some_iff.mp signature_line
      refine ⟨_, k, _, signed mem, knows, line, ?_, rfl⟩
      dsimp only
      rw [device, Device.stores, signature_store]
      rfl

theorem Signed.jump (signed : Signed mem b) : program b.machine.pc = some (.jal 0 0) := by
  rw [signed.here]
  exact code 21 (by decide)

theorem Signed.step (signed : Signed mem b) (step : Board.Step program b b') : Signed mem b' := by
  obtain rfl := step.compute_eq (signed.jump code) rfl
  refine ⟨?_, signed.device⟩
  exact (BitVec.add_zero b.machine.pc).trans signed.here

theorem setup_ahead (mem : BitVec 11 → BitVec 32) (regs : BitVec 5 → BitVec 32) :
    (Board.reset mem regs).Ahead program (address 15) (Ready mem) setup := by
  refine ⟨?_, ?_⟩
  · refine follows_address (l := setup) (k := 0) fun j within => ?_
    have small : j < 15 := within
    rw [Nat.zero_add, code j (by omega), bootCode, List.append_assoc, List.append_assoc,
      List.getElem?_append_left within, List.getElem?_eq_getElem within]
  · obtain ⟨⟨k, stores⟩, line, known⟩ := Option.map_eq_some_iff.mp setup_line
    obtain ⟨first, second, rfl⟩ : k 1 = some 0x10000000 ∧ k 2 = some 0x40000000 ∧
        stores = setupStores := by
      simpa using known
    exact ⟨_, k, _, copyStarted mem, knows_nothing _, line, setup_stores mem, first, second, rfl⟩

end Steps

section Program

variable {mem : BitVec 11 → BitVec 32} {program : BitVec 32 → Option Instr} {b b' : Board}

theorem AtPoll.of_setup (ahead : b.Ahead program (address 15) (Ready mem) []) : AtPoll mem b := by
  obtain ⟨here, k, knows, first, second, device⟩ := ahead.done
  refine ⟨here, fun r v value => knows r v ?_, device⟩
  by_cases zero : r = 0
  · rw [Known.value, if_pos zero] at value ⊢
    exact value
  · rw [Known.value, if_neg zero] at value ⊢
    by_cases two : r = 2
    · subst two
      exact second.trans value
    · rw [bases, Function.update_of_ne two] at value
      by_cases one : r = 1
      · subst one
        exact first.trans value
      · rw [Function.update_of_ne one] at value
        cases value

theorem Signed.of_signing (signing : Signing mem program b []) : Signed mem b := by
  obtain ⟨here, k, -, device⟩ := Board.Ahead.done signing
  exact ⟨here, device⟩

/-! ## The whole program -/

variable (mem program) in
/-- Where the program can be. -/
inductive Boot (b : Board) : Prop
  | setup {i : Instr} {l : List Instr}
      (ahead : b.Ahead program (address 15) (Ready mem) (i :: l)) : Boot b
  | poll (poll : AtPoll mem b) : Boot b
  | mask (mask : AtMask mem b) : Boot b
  | test (test : AtTest mem b) : Boot b
  | signing {i : Instr} {l : List Instr} (signing : Signing mem program b (i :: l)) : Boot b
  | signed (signed : Signed mem b) : Boot b

theorem Boot.of_setup {l : List Instr} (ahead : b.Ahead program (address 15) (Ready mem) l) :
    Boot mem program b := by
  cases l with
  | nil => exact .poll (.of_setup ahead)
  | cons i l => exact .setup ahead

theorem Boot.of_signing {l : List Instr} (signing : Signing mem program b l) :
    Boot mem program b := by
  cases l with
  | nil => exact .signed (.of_signing signing)
  | cons i l => exact .signing signing

variable (code : ∀ k < 22, program (address k) = bootCode[k]?)

include code

theorem Boot.step (boot : Boot mem program b) (step : Board.Step program b b') :
    Boot mem program b' := by
  cases boot with
  | setup ahead => exact .of_setup (ahead.step step)
  | poll poll => exact .mask (poll.step code step)
  | mask mask => exact .test (mask.step code step).1
  | test test =>
      rcases test.step code step with ⟨poll, -⟩ | signing
      · exact .poll poll
      · exact .of_signing signing
  | signing signing => exact .of_signing (Board.Ahead.step signing step)
  | signed signed => exact .signed (signed.step code step)

theorem Boot.safe (boot : Boot mem program b) : b.Safe program := by
  cases boot with
  | setup ahead => exact ahead.safe
  | poll poll => exact poll.safe code
  | mask mask =>
      refine Board.safe_compute (i := .andi 6 6 2) ?_ rfl
      rw [mask.here]
      exact code 16 (by decide)
  | test test =>
      refine Board.safe_compute (i := .beq 6 0 (-8)) ?_ rfl
      rw [test.here]
      exact code 17 (by decide)
  | signing signing => exact Board.Ahead.safe signing
  | signed signed => exact Board.safe_compute (signed.jump code) rfl

/-- **The boot program does nothing it must not do.** -/
theorem boot_disciplined (mem : BitVec 11 → BitVec 32) (regs : BitVec 5 → BitVec 32) :
    (Board.reset mem regs).Disciplined program :=
  Board.disciplined_of_invariant (Boot mem program) (.of_setup (setup_ahead code mem regs))
    (fun _ _ boot step => boot.step code step) fun _ boot => boot.safe code

section Runs

variable {boards : ℕ → Board} (run : Board.Run program boards)

include run

/-- A turn of the poll during the copy. -/
theorem poll_turn {k : ℕ} (poll : AtPoll mem (boards k)) :
    (AtPoll mem (boards (k + 3)) ∧ (boards (k + 1)).device = copyStarted mem ∧
        (boards (k + 2)).device = copyStarted mem) ∨
      Signing mem program (boards (k + 3)) signature := by
  have mask := poll.step code (run.next k)
  obtain ⟨test, same⟩ := mask.step code (run.next (k + 1))
  rcases test.step code (run.next (k + 2)) with ⟨poll', device⟩ | signing
  · exact .inl ⟨poll', same.symm.trans device, device⟩
  · exact .inr signing

/-- The copy is seen to end. -/
theorem poll_ends {k : ℕ} (poll : AtPoll mem (boards k)) :
    ∃ j, k ≤ j ∧ Signing mem program (boards j) signature := by
  by_contra never
  push Not at never
  have polls : ∀ n, AtPoll mem (boards (k + 3 * n)) := by
    intro n
    induction n with
    | zero => exact poll
    | succ n ih =>
        rcases poll_turn code run ih with ⟨poll', -⟩ | signing
        · exact poll'
        · exact absurd signing (never _ (by omega))
  have copying : ∀ i, k ≤ i → (boards i).device.copying = true := by
    intro i low
    rcases poll_turn code run (polls ((i - k) / 3)) with ⟨-, first, second⟩ | signing
    · obtain here | here | here : i = k + 3 * ((i - k) / 3) ∨ i = k + 3 * ((i - k) / 3) + 1 ∨
          i = k + 3 * ((i - k) / 3) + 2 := by omega
      · rw [here, (polls _).device]
        rfl
      · rw [here, first]
        rfl
      · rw [here, second]
        rfl
    · exact absurd signing (never _ (by omega))
  obtain ⟨n, ends⟩ := run.ends k
  have ended := ends (k + 3 * n) (by omega) (fun i low _ => copying i low) ((polls n).polls code)
  exact absurd (ended.symm.trans (copying _ (by omega))) Bool.false_ne_true

/-- **The boot program comes to its signature**, and stays there. -/
theorem boot_settles {regs : BitVec 5 → BitVec 32} (start : boards 0 = .reset mem regs) :
    ∃ K, ∀ k, K ≤ k → Signed mem (boards k) := by
  have ahead : (boards 0).Ahead program (address 15) (Ready mem) setup := by
    rw [start]
    exact setup_ahead code mem regs
  obtain ⟨j, -, signing⟩ := poll_ends code run (.of_setup (ahead.run run))
  refine ⟨j + signature.length, fun k later => ?_⟩
  induction k, later using Nat.le_induction with
  | base => exact .of_signing (Board.Ahead.run run signing)
  | succ k _ ih => exact ih.step code (run.next k)

end Runs

end Program

/-! ## The chip -/

/-- **The boot program on the chip comes to its signature**: whatever the timing, and whatever
the RAM and the registers hold at reset, from some cycle on the processor is at the jump behind
the signature, and the RAM holds the copy and the signature, and else what it held. -/
theorem boot_reaches_signature {unknown rom : BitVec 10 → BitVec 32}
    (loaded : bootRom unknown (imageText bootProgram) = some rom) (s₀ : SocTop.State)
    (regs : BitVec 5 → BitVec 32) (env : ℕ → Computer.Env)
    (fair : ∀ t, ∃ u, t ≤ u ∧ (env u).go = true) :
    ∃ T, ∀ t, T ≤ t → (Computer.coreAt rom s₀ regs env t).machine.pc = address 21 ∧
      SocTop.ram rom s₀ (Computer.insAt rom s₀ regs env) t = bootRam s₀.mem.ram.mem := by
  have code : ∀ k < 22, Computer.fetchRom rom (address k) = bootCode[k]? :=
    fun k small => fetchRom_address loaded small
  obtain ⟨p, start, points⟩ := Computer.exists_points rom s₀ regs env fair
    (boot_disciplined code _ regs)
  obtain ⟨K, signed⟩ := boot_settles code points.run
    ((congrArg Computer.Point.board start : (p 0).board = .reset s₀.mem.ram.mem regs))
  refine ⟨(p K).time, fun t later => ?_⟩
  obtain ⟨k, low, here, before⟩ := points.covers later
  have now := signed k low
  have next := signed (k + 1) (by omega)
  refine ⟨?_, ?_⟩
  · rw [(points.advance k).machine t here before]
    exact now.here
  · have free : (p k).board.device.copying = false := by
      rw [now.device]
      rfl
    have free' : (p (k + 1)).board.device.copying = false := by
      rw [next.device]
      rfl
    rcases (points.advance k).mem free free' t here before with same | same
    · rw [same, now.device]
      rfl
    · rw [same, next.device]
      rfl

/-- The boot program is one of those that the chip runs as the board does: at power-up, with a
processor that never waits, its run of the board does the copy and comes to the signature. -/
theorem runs_board_boot : ∃ rom, bootRom (fun _ => 0) (imageText bootProgram) = some rom ∧
    ∃ (b : ℕ → Board) (τ : ℕ → ℕ), StrictMono τ ∧ (∃ K, Signed SocTop.powerUp.mem.ram.mem (b K)) ∧
      ∀ k, Computer.Executes rom SocTop.powerUp (fun _ => 0) (fun _ => ⟨true, false, 0, 0⟩)
        (b k) (b (k + 1)) (τ k) (τ (k + 1)) := by
  have loaded := bootRom_imageText (fun _ => 0) bootProgram
  rw [if_pos bootProgram_nonneg] at loaded
  have code := fun k (small : k < 22) => fetchRom_address loaded small
  obtain ⟨b, τ, start, -, later, run, executes⟩ :=
    Computer.runs_board _ SocTop.powerUp (fun _ => 0) (fun _ => ⟨true, false, 0, 0⟩)
      (fun t => ⟨t, le_refl t, rfl⟩) (boot_disciplined code _ _)
  obtain ⟨K, signed⟩ := boot_settles code run start
  exact ⟨_, loaded, b, τ, later, ⟨K, signed K (le_refl K)⟩, executes⟩

/-- At power-up, with a processor that never waits. -/
theorem boot_reaches_signature_power_up : ∃ rom, bootRom (fun _ => 0) (imageText bootProgram) =
    some rom ∧ ∃ T, ∀ t, T ≤ t →
      (Computer.coreAt rom SocTop.powerUp (fun _ => 0) (fun _ => ⟨true, false, 0, 0⟩)
        t).machine.pc = address 21 ∧
      SocTop.ram rom SocTop.powerUp (Computer.insAt rom SocTop.powerUp (fun _ => 0)
        fun _ => ⟨true, false, 0, 0⟩) t = bootRam SocTop.powerUp.mem.ram.mem := by
  have loaded := bootRom_imageText (fun _ => 0) bootProgram
  rw [if_pos bootProgram_nonneg] at loaded
  exact ⟨_, loaded, boot_reaches_signature loaded _ _ _ fun t => ⟨t, le_refl t, rfl⟩⟩

end MiniMac.Dv.BuildFirmware
