/-
# Macros.SramBanked -- a 4096-word SRAM made of sixteen banks

The upper four address bits select the bank that is enabled, and the output mux
looks at the same bits of the current address.  A bank's output register only
moves when the bank is accessed, so the banked SRAM holds what the flat one holds (`mem_eq`), but
shows the word of the last access only while the address stays in its bank
(`banked_matches_iff`).
-/
import MiniMac.Macros.SramWrapper
import MiniMac.Theory.Clocked

namespace MiniMac.Macros.SramBanked

open MiniMac.Theory

set_option autoImplicit false

abbrev Inputs := SramWrapper.Inputs 12

/-- The sixteen banks. -/
abbrev State := BitVec 4 → SramWrapper.State 8

/-- `sram_addr[11:8]`. -/
def bankOf (addr : BitVec 12) : BitVec 4 := addr.extractLsb' 8 4

/-- `sram_addr[7:0]`. -/
def offsetOf (addr : BitVec 12) : BitVec 8 := addr.extractLsb' 0 8

def bankInputs (i : Inputs) (b : BitVec 4) : SramWrapper.Inputs 8 where
  sramCen := i.sramCen || !(bankOf i.sramAddr == b)
  sramWen := i.sramWen
  sramAddr := offsetOf i.sramAddr
  sramWmask := i.sramWmask
  sramDin := i.sramDin

def step (s : State) (i : Inputs) : State := fun b => SramWrapper.step (s b) (bankInputs i b)

def sramDout (s : State) (i : Inputs) : BitVec 32 := (s (bankOf i.sramAddr)).sramDout

theorem bank_offset (a a' : BitVec 12) :
    bankOf a = bankOf a' ∧ offsetOf a = offsetOf a' ↔ a = a' := by
  constructor
  · rintro ⟨bank, offset⟩
    have high := congrArg BitVec.toNat bank
    have low := congrArg BitVec.toNat offset
    simp only [bankOf, offsetOf, BitVec.extractLsb'_toNat, Nat.shiftRight_eq_div_pow] at high low
    apply BitVec.eq_of_toNat_eq
    have := a.isLt
    have := a'.isLt
    omega
  · rintro rfl
    exact ⟨rfl, rfl⟩

/-! ## The flat SRAM -/

/-- A flat SRAM with the contents of the banks. -/
def flatten (s : State) (q : BitVec 32) : SramWrapper.State 12 where
  mem := fun a => (s (bankOf a)).mem (offsetOf a)
  sramDout := q

section Runs

variable (s₀ : State) (q : BitVec 32) (ins : ℕ → Inputs)

def after (t : ℕ) : State := Clocked.run step s₀ ins t

def flatAfter (t : ℕ) : SramWrapper.State 12 := Clocked.run SramWrapper.step (flatten s₀ q) ins t

/-! ## What the accesses store and find -/

/-- The write of a cycle, if it is an enabled write access. -/
def written (i : Inputs) : List (Write (BitVec 12) (BitVec 32)) :=
  if i.sramCen || i.sramWen then []
  else [SramWrapper.maskedWrite i.sramAddr i.sramWmask i.sramDin]

/-- The initial words after the writes before cycle `t`. -/
def contents : ℕ → BitVec 12 → BitVec 32
  | 0 => (flatten s₀ q).mem
  | t + 1 => replay (contents t) (written (ins t))

/-- The address of the last enabled access before cycle `t`. -/
def lastAccess : ℕ → Option (BitVec 12)
  | 0 => none
  | t + 1 => if (ins t).sramCen then lastAccess t else some (ins t).sramAddr

/-- The word found by the last access before cycle `t`, the output at power-up if
there was none. -/
def lastWord : ℕ → BitVec 32
  | 0 => q
  | t + 1 => if (ins t).sramCen then lastWord t else contents s₀ q ins t (ins t).sramAddr

/-- The same for the accesses of one bank. -/
def lastWordIn (b : BitVec 4) : ℕ → BitVec 32
  | 0 => (s₀ b).sramDout
  | t + 1 =>
      if (ins t).sramCen || !(bankOf (ins t).sramAddr == b) then lastWordIn b t
      else contents s₀ q ins t (ins t).sramAddr

/-! ## One access -/

theorem flat_step_mem (f : SramWrapper.State 12) (i : Inputs) :
    (SramWrapper.step f i).mem = replay f.mem (written i) := by
  unfold written
  by_cases off : i.sramCen = true
  · rw [SramWrapper.step_disabled f i off, off]
    rfl
  · rw [Bool.not_eq_true] at off
    rw [SramWrapper.step_mem f i off, off, BitVec.setWidth_eq]
    cases i.sramWen <;> rfl

theorem flat_step_sramDout (f : SramWrapper.State 12) (i : Inputs) :
    (SramWrapper.step f i).sramDout = if i.sramCen then f.sramDout else f.mem i.sramAddr := by
  by_cases off : i.sramCen = true
  · rw [SramWrapper.step_disabled f i off, if_pos off]
  · rw [if_neg off]
    rw [Bool.not_eq_true] at off
    rw [SramWrapper.step_sramDout f i off, BitVec.setWidth_eq]

/-- The banks together do what the flat memory does. -/
theorem bank_step_mem (s : State) (i : Inputs) :
    (flatten (step s i) q).mem = replay (flatten s q).mem (written i) := by
  funext a
  have cell : (flatten (step s i) q).mem a =
      (SramWrapper.step (s (bankOf a)) (bankInputs i (bankOf a))).mem (offsetOf a) := rfl
  rw [cell, ← flat_step_mem]
  by_cases on : (bankInputs i (bankOf a)).sramCen = false
  · obtain ⟨enabled, here⟩ : i.sramCen = false ∧ bankOf i.sramAddr = bankOf a := by
      simpa [bankInputs] using on
    have wen : (bankInputs i (bankOf a)).sramWen = i.sramWen := rfl
    rw [SramWrapper.step_mem _ _ on, SramWrapper.step_mem _ _ enabled, BitVec.setWidth_eq,
      BitVec.setWidth_eq, wen]
    by_cases reads : i.sramWen = true
    · rw [if_pos reads, if_pos reads]
      rfl
    · rw [if_neg reads, if_neg reads]
      by_cases addressed : a = i.sramAddr
      · subst addressed
        simp [Write.apply, SramWrapper.maskedWrite, bankInputs, flatten]
      · have elsewhere : offsetOf a ≠ offsetOf i.sramAddr := by
          intro same
          exact addressed ((bank_offset a i.sramAddr).mp ⟨here.symm, same⟩)
        have bank := Write.apply_of_ne (m := (s (bankOf a)).mem)
          (w := SramWrapper.maskedWrite (offsetOf i.sramAddr) i.sramWmask i.sramDin) elsewhere
        have flat := Write.apply_of_ne (m := (flatten s q).mem)
          (w := SramWrapper.maskedWrite i.sramAddr i.sramWmask i.sramDin) addressed
        exact bank.trans flat.symm
  · rw [Bool.not_eq_false] at on
    rw [SramWrapper.step_disabled _ _ on]
    by_cases off : i.sramCen = true
    · rw [SramWrapper.step_disabled _ _ off]
      rfl
    · have elsewhere : a ≠ i.sramAddr := by
        rintro rfl
        simp [bankInputs, off] at on
      rw [Bool.not_eq_true] at off
      rw [SramWrapper.step_mem _ _ off, BitVec.setWidth_eq]
      by_cases reads : i.sramWen = true
      · rw [if_pos reads]
        rfl
      · rw [if_neg reads]
        have frame := Write.apply_of_ne (m := (flatten s q).mem)
          (w := SramWrapper.maskedWrite i.sramAddr i.sramWmask i.sramDin) elsewhere
        exact frame.symm

theorem bank_step_sramDout (s : State) (i : Inputs) (b : BitVec 4) :
    (step s i b).sramDout =
      if i.sramCen || !(bankOf i.sramAddr == b) then (s b).sramDout
      else (flatten s q).mem i.sramAddr := by
  by_cases off : (i.sramCen || !(bankOf i.sramAddr == b)) = true
  · rw [if_pos off]
    show (SramWrapper.step (s b) (bankInputs i b)).sramDout = _
    rw [SramWrapper.step_disabled (s b) (bankInputs i b) off]
  · rw [if_neg off]
    rw [Bool.not_eq_true] at off
    obtain ⟨-, rfl⟩ : i.sramCen = false ∧ bankOf i.sramAddr = b := by simpa using off
    show (SramWrapper.step (s _) (bankInputs i _)).sramDout = _
    rw [SramWrapper.step_sramDout _ _ off, BitVec.setWidth_eq]
    rfl

/-! ## Runs -/

/-- **The banks hold what the flat SRAM holds.** -/
theorem mem_eq (t : ℕ) :
    (flatten (after s₀ ins t) q).mem = contents s₀ q ins t ∧
      (flatAfter s₀ q ins t).mem = contents s₀ q ins t := by
  induction t with
  | zero => exact ⟨rfl, rfl⟩
  | succ t ih =>
      obtain ⟨banks, flat⟩ := ih
      constructor
      · rw [after, Clocked.run_succ, bank_step_mem, ← after, banks, contents]
      · rw [flatAfter, Clocked.run_succ, flat_step_mem, ← flatAfter, flat, contents]

theorem flat_sramDout (t : ℕ) : (flatAfter s₀ q ins t).sramDout = lastWord s₀ q ins t := by
  induction t with
  | zero => rfl
  | succ t ih =>
      rw [flatAfter, Clocked.run_succ, flat_step_sramDout, ← flatAfter, ih, (mem_eq s₀ q ins t).2,
        lastWord]

theorem bank_sramDout (b : BitVec 4) (t : ℕ) :
    (after s₀ ins t b).sramDout = lastWordIn s₀ q ins b t := by
  induction t with
  | zero => rfl
  | succ t ih =>
      rw [after, Clocked.run_succ, bank_step_sramDout q, ← after, ih, (mem_eq s₀ q ins t).1,
        lastWordIn]

/-- The last access of the SRAM is the last one of its bank. -/
theorem lastWordIn_last {t : ℕ} {a : BitVec 12} (last : lastAccess ins t = some a) :
    lastWordIn s₀ q ins (bankOf a) t = lastWord s₀ q ins t := by
  induction t with
  | zero => cases last
  | succ t ih =>
      unfold lastAccess at last
      unfold lastWordIn lastWord
      by_cases off : (ins t).sramCen = true
      · rw [if_pos off] at last
        rw [if_pos (by simp [off]), if_pos off, ih last]
      · rw [if_neg off] at last
        obtain rfl := Option.some.inj last
        rw [if_neg (by simp [off]), if_neg off]

/-- The banked SRAM shows the flat SRAM's output in every cycle after the first access. -/
def Matches : Prop :=
  ∀ t a, lastAccess ins t = some a →
    sramDout (after s₀ ins t) (ins t) = (flatAfter s₀ q ins t).sramDout

/-- **The banked SRAM equals the flat one exactly when the address stays in the
bank of the last access**, except where the word last found in the bank it moved
to happens to be the word last found. -/
theorem banked_matches_iff :
    Matches s₀ q ins ↔
      ∀ t a, lastAccess ins t = some a →
        bankOf (ins t).sramAddr = bankOf a ∨
          lastWordIn s₀ q ins (bankOf (ins t).sramAddr) t = lastWord s₀ q ins t := by
  have shown (t : ℕ) : sramDout (after s₀ ins t) (ins t) = (flatAfter s₀ q ins t).sramDout ↔
      lastWordIn s₀ q ins (bankOf (ins t).sramAddr) t = lastWord s₀ q ins t := by
    rw [sramDout, bank_sramDout s₀ q, flat_sramDout]
  constructor
  · intro same t a last
    exact .inr ((shown t).mp (same t a last))
  · intro stays t a last
    apply (shown t).mpr
    rcases stays t a last with bank | word
    · rw [bank]
      exact lastWordIn_last s₀ q ins last
    · exact word

end Runs

/-! ## An address that moves on -/

/-- A word 7 is read from bank 0; then the address moves to bank 1 with the chip
disabled. -/
def moved (t : ℕ) : Inputs where
  sramCen := decide (t ≠ 0)
  sramWen := true
  sramAddr := if t = 0 then 0x000 else 0x100
  sramWmask := 0xF
  sramDin := 0

/-- Banks that hold the word 7 everywhere, their outputs still at zero. -/
def sevens : State := fun _ => ⟨fun _ => 7, 0⟩

theorem banked_address_moves :
    ¬ ∀ (s₀ : State) (q : BitVec 32) (ins : ℕ → Inputs), Matches s₀ q ins := by
  intro claim
  exact absurd (claim sevens 0 moved 1 0x000 rfl) (by decide)

end MiniMac.Macros.SramBanked
