/-
# Dv.Encoders -- what the encoders put into a word

A call of one of the five encoders, with the operands it is given, and the operands
that RV32I reads from the word returned.  Registers, `funct3` and opcode come back as
they are.  An immediate is cut to the width of its field, so it comes back exactly if
it fits, and nothing is raised if it does not (`encoders_cut`).  The upper
immediate is not cut at all: one that does not fit makes the result no 32-bit word.
-/
import MiniMac.Theory.Rv32iFormats
import MiniMac.Dv.BootFirmware

namespace MiniMac.Dv.BuildFirmware

open MiniMac.Theory.Rv32i

set_option autoImplicit false

/-! ## Calls -/

inductive Call where
  | u (rd : ℕ) (imm20 : ℤ)
  | i (rd rs1 : ℕ) (imm : ℤ) (funct3 opcode : ℕ)
  | s (rs2 rs1 : ℕ) (imm : ℤ) (funct3 : ℕ)
  | b (rs1 rs2 : ℕ) (offset : ℤ) (funct3 : ℕ)
  | jal (rd : ℕ) (offset : ℤ)

namespace Call

/-- What the call returns, or nothing where it raises. -/
def result : Call → Option ℤ
  | u rd imm20 => some (BuildFirmware.u rd imm20)
  | i rd rs1 imm funct3 opcode => some (BuildFirmware.i rd rs1 imm funct3 opcode)
  | s rs2 rs1 imm funct3 => some (BuildFirmware.s rs2 rs1 imm funct3)
  | b rs1 rs2 offset funct3 => (BuildFirmware.b rs1 rs2 offset funct3).map Int.ofNat
  | jal rd offset => some (BuildFirmware.jal rd offset)

/-- The operands given, as the format of the encoder names them. -/
def operands : Call → Operands
  | u rd imm20 => .u 0x37 rd (imm20 * 2 ^ 12)
  | i rd rs1 imm funct3 opcode => .i opcode rd funct3 rs1 imm
  | s rs2 rs1 imm funct3 => .s 0x23 funct3 rs1 rs2 imm
  | b rs1 rs2 offset funct3 => .b 0x63 funct3 rs1 rs2 offset
  | jal rd offset => .j 0x6F rd offset

/-- The operands that a word of the encoder's format shows. -/
def shown : Call → BitVec 32 → Operands
  | u .. => operandsU
  | i .. => operandsI
  | s .. => operandsS
  | b .. => operandsB
  | jal .. => operandsJ

/-- The numbers of registers, `funct3` and opcode are ones that the fields can hold. -/
def InRange : Call → Prop
  | u rd _ => rd < 32
  | i rd rs1 _ funct3 opcode => rd < 32 ∧ rs1 < 32 ∧ funct3 < 8 ∧ opcode < 128
  | s rs2 rs1 _ funct3 => rs2 < 32 ∧ rs1 < 32 ∧ funct3 < 8
  | b rs1 rs2 _ funct3 => rs1 < 32 ∧ rs2 < 32 ∧ funct3 < 8
  | jal rd _ => rd < 32

/-- The call raises, or it returns a word from which its operands are read back. -/
def Exact (c : Call) : Prop :=
  c.result = none ∨ ∃ w : BitVec 32, c.result = some (w.toNat : ℤ) ∧ c.shown w = c.operands

/-- A branch to an odd offset. -/
def OddBranch : Call → Prop
  | b _ _ offset _ => offset % 2 ≠ 0
  | _ => False

def JumpsEven : Call → Prop
  | jal _ offset => offset % 2 = 0
  | _ => True

/-- The immediate is one that its field can hold.  An odd branch is refused anyway. -/
def Fits : Call → Prop
  | u _ imm20 => 0 ≤ imm20 ∧ imm20 < 2 ^ 20
  | i _ _ imm _ _ | s _ _ imm _ => -2048 ≤ imm ∧ imm ≤ 2047
  | b _ _ offset _ => offset % 2 = 0 → -4096 ≤ offset ∧ offset ≤ 4094
  | jal _ offset => -1048576 ≤ offset ∧ offset ≤ 1048574

/-- The call with its immediate cut to the width of its field. -/
def cut : Call → Call
  | u rd imm20 => u rd (imm20 % 2 ^ 20)
  | i rd rs1 imm funct3 opcode => i rd rs1 (imm.bmod (2 ^ 12)) funct3 opcode
  | s rs2 rs1 imm funct3 => s rs2 rs1 (imm.bmod (2 ^ 12)) funct3
  | b rs1 rs2 offset funct3 => b rs1 rs2 (offset.bmod (2 ^ 13)) funct3
  | jal rd offset => jal rd (offset.bmod (2 ^ 21))

/-- The encoder cuts its immediate with a mask. -/
def Masks : Call → Prop
  | u .. => False
  | _ => True

/-- The word that holds the operands, laid out in the encoder's format. -/
def word : Call → BitVec 32
  | u rd imm20 => wordU (.ofNat 5 rd) 0x37 (.ofInt 20 imm20)
  | i rd rs1 imm funct3 opcode =>
      wordI (.ofNat 3 funct3) (.ofNat 5 rs1) (.ofNat 5 rd) (.ofNat 7 opcode) (.ofInt 12 imm)
  | s rs2 rs1 imm funct3 =>
      wordS (.ofNat 3 funct3) (.ofNat 5 rs2) (.ofNat 5 rs1) 0x23 (.ofInt 12 imm)
  | b rs1 rs2 offset funct3 =>
      wordB (.ofNat 3 funct3) (.ofNat 5 rs2) (.ofNat 5 rs1) 0x63 (.ofInt 13 offset)
  | jal rd offset => wordJ (.ofNat 5 rd) 0x6F (.ofInt 21 offset)

end Call

/-! ## Masks and shifts -/

theorem band_ones {n : ℕ} (width : n ≤ 32) (x : ℤ) :
    band x (2 ^ n - 1) = (BitVec.ofInt n x).toNat := by
  have dvd : ((2 ^ n : ℕ) : ℤ) ∣ 2 ^ 32 := by
    exact_mod_cast pow_dvd_pow 2 width
  have nonneg : 0 ≤ x % 2 ^ 32 := Int.emod_nonneg x (by decide)
  rw [band, Nat.and_two_pow_sub_one_eq_mod, BitVec.toNat_ofInt, ← Int.emod_emod_of_dvd x dvd,
    Int.toNat_emod nonneg (Int.natCast_nonneg _), Int.toNat_natCast]

theorem shift_ones {w : ℕ} (x : BitVec w) (start n : ℕ) :
    (x.toNat >>> start) &&& (2 ^ n - 1) = (x.extractLsb' start n).toNat := by
  rw [Nat.and_two_pow_sub_one_eq_mod, BitVec.extractLsb'_toNat]

theorem ofInt_natCast_toNat {w : ℕ} (x : BitVec w) : BitVec.ofInt w (x.toNat : ℤ) = x := by
  rw [BitVec.ofInt_natCast, BitVec.ofNat_toNat, BitVec.setWidth_eq]

/-- Taking bits away from a block of ones is a subtraction. -/
theorem ldiff_ones {k n : ℕ} (below : n < 2 ^ k) (m : ℕ) :
    Nat.ldiff (2 ^ k * m + (2 ^ k - 1)) n = 2 ^ k * m + (2 ^ k - (n + 1)) := by
  have ones : 2 ^ k - 1 < 2 ^ k := Nat.sub_lt (Nat.two_pow_pos k) Nat.one_pos
  have rest : 2 ^ k - (n + 1) < 2 ^ k := by omega
  apply Nat.eq_of_testBit_eq
  intro j
  rw [Nat.testBit_ldiff, Nat.testBit_two_pow_mul_add m ones, Nat.testBit_two_pow_mul_add m rest]
  by_cases low : j < k
  · simp [low, Nat.testBit_two_pow_sub_one, Nat.testBit_two_pow_sub_succ below]
  · have clear : n.testBit j = false :=
      Nat.testBit_lt_two_pow (below.trans_le (Nat.pow_le_pow_right Nat.two_pos (not_lt.mp low)))
    simp [low, clear]

/-- A number put under a multiple of a power of two, in two's complement. -/
theorem lor_eq_add {k n : ℕ} (below : n < 2 ^ k) (x : ℤ) :
    Int.lor (x * 2 ^ k) n = x * 2 ^ k + n := by
  cases x with
  | ofNat m =>
      have shift : Int.ofNat m * 2 ^ k = ((m <<< k : ℕ) : ℤ) := by
        rw [Nat.shiftLeft_eq]
        push_cast
        rfl
      rw [shift]
      change ((m <<< k ||| n : ℕ) : ℤ) = _
      rw [← Nat.shiftLeft_add_eq_or_of_lt below]
      push_cast
      rfl
  | negSucc m =>
      have pos : 0 < 2 ^ k := Nat.two_pow_pos k
      have ones : 2 ^ k * m + (2 ^ k - 1) + 1 = (m + 1) * 2 ^ k := by
        rw [Nat.add_one_mul, Nat.mul_comm m]
        omega
      have shift : Int.negSucc m * 2 ^ k = Int.negSucc (2 ^ k * m + (2 ^ k - 1)) := by
        rw [Int.negSucc_eq, Int.negSucc_eq, neg_mul]
        exact_mod_cast congrArg (fun a : ℕ => -(a : ℤ)) ones.symm
      rw [shift]
      change Int.negSucc (Nat.ldiff (2 ^ k * m + (2 ^ k - 1)) n) = _
      rw [ldiff_ones below, Int.negSucc_eq, Int.negSucc_eq]
      omega

/-! ## The words -/

section Words

variable {rd rs1 rs2 funct3 opcode : ℕ}

theorem toNat_field {w x : ℕ} (fits : x < 2 ^ w) : (BitVec.ofNat w x).toNat = x := by
  rw [BitVec.toNat_ofNat, Nat.mod_eq_of_lt fits]

theorem u_eq (dest : rd < 32) (imm20 : ℤ) : u rd imm20 = imm20 * 2 ^ 12 + rd * 2 ^ 7 + 0x37 := by
  have field : rd <<< 7 < 2 ^ 12 := by omega
  have lower : imm20 * (2 : ℤ) ^ 12 + ((rd <<< 7 : ℕ) : ℤ) = (imm20 * 2 ^ 5 + rd) * 2 ^ 7 := by
    rw [Nat.shiftLeft_eq]
    push_cast
    omega
  have last := lor_eq_add (k := 7) (n := 0x37) (by decide) (imm20 * 2 ^ 5 + rd)
  rw [u, lor_eq_add field, lower]
  refine last.trans ?_
  omega

theorem i_eq (dest : rd < 32) (source : rs1 < 32) (funct : funct3 < 8) (op : opcode < 128)
    (imm : ℤ) : i rd rs1 imm funct3 opcode = (Call.i rd rs1 imm funct3 opcode).word.toNat := by
  have cut : band imm 0xFFF = (BitVec.ofInt 12 imm).toNat := band_ones (n := 12) (by decide) imm
  rw [i, cut, Call.word, toNat_wordI, toNat_field (w := 5) source,
    toNat_field (w := 3) funct, toNat_field (w := 5) dest, toNat_field (w := 7) op]

theorem s_eq (value : rs2 < 32) (source : rs1 < 32) (funct : funct3 < 8) (imm : ℤ) :
    s rs2 rs1 imm funct3 = (Call.s rs2 rs1 imm funct3).word.toNat := by
  have cut : band imm 0xFFF = (BitVec.ofInt 12 imm).toNat := band_ones (n := 12) (by decide) imm
  have high :
      (BitVec.ofInt 12 imm).toNat >>> 5 = ((BitVec.ofInt 12 imm).extractLsb' 5 7).toNat := by
    rw [toNat_extract]
    omega
  have low :
      (BitVec.ofInt 12 imm).toNat &&& 0x1F = ((BitVec.ofInt 12 imm).extractLsb' 0 5).toNat :=
    shift_ones (BitVec.ofInt 12 imm) 0 5
  rw [s, cut, high, low, Call.word, toNat_wordS, toNat_field (w := 5) value,
    toNat_field (w := 5) source, toNat_field (w := 3) funct]
  rfl

theorem b_eq (left : rs1 < 32) (right : rs2 < 32) (funct : funct3 < 8) {offset : ℤ}
    (even : offset % 2 = 0) :
    b rs1 rs2 offset funct3 = some (Call.b rs1 rs2 offset funct3).word.toNat := by
  have cut : band offset 0x1FFF = (BitVec.ofInt 13 offset).toNat :=
    band_ones (n := 13) (by decide) offset
  rw [b, if_pos even, cut, Call.word, toNat_wordB, toNat_field (w := 5) right,
    toNat_field (w := 5) left, toNat_field (w := 3) funct]
  simp only [← shift_ones]
  rfl

theorem jal_eq (dest : rd < 32) (offset : ℤ) :
    jal rd offset = (Call.jal rd offset).word.toNat := by
  have cut : band offset 0x1FFFFF = (BitVec.ofInt 21 offset).toNat :=
    band_ones (n := 21) (by decide) offset
  rw [jal, cut, Call.word, toNat_wordJ, toNat_field (w := 5) dest]
  simp only [← shift_ones]
  rfl

end Words

/-! ## What is read back -/

namespace Call

variable {c : Call}

/-- The operands read from the word are those of the call, with its immediate cut. -/
theorem shown_word (range : c.InRange) (even : c.JumpsEven) (taken : ¬ c.OddBranch) :
    c.shown c.word = c.cut.operands := by
  cases c with
  | u rd imm20 =>
      have dest : rd < 32 := range
      have unsigned : ((imm20 % ((2 ^ 20 : ℕ) : ℤ)).toNat : ℤ) = imm20 % 2 ^ 20 :=
        Int.toNat_of_nonneg (Int.emod_nonneg imm20 (by decide))
      simp only [shown, word, cut, operands]
      rw [operandsU_wordU, toNat_field (w := 5) dest, BitVec.toNat_ofInt, unsigned]
      rfl
  | i rd rs1 imm funct3 opcode =>
      obtain ⟨dest, source, funct, op⟩ := range
      simp only [shown, word, cut, operands]
      rw [operandsI_wordI, toNat_field (w := 5) dest, toNat_field (w := 5) source,
        toNat_field (w := 3) funct, toNat_field (w := 7) op, BitVec.toInt_ofInt]
  | s rs2 rs1 imm funct3 =>
      obtain ⟨value, source, funct⟩ := range
      simp only [shown, word, cut, operands]
      rw [operandsS_wordS, toNat_field (w := 5) value, toNat_field (w := 5) source,
        toNat_field (w := 3) funct, BitVec.toInt_ofInt]
      rfl
  | b rs1 rs2 offset funct3 =>
      obtain ⟨left, right, funct⟩ := range
      have aligned : (BitVec.ofInt 13 offset).toNat % 2 = 0 := by
        have evenOffset : offset % 2 = 0 := not_not.mp taken
        rw [BitVec.toNat_ofInt]
        omega
      simp only [shown, word, cut, operands]
      rw [operandsB_wordB _ _ _ _ aligned, toNat_field (w := 5) left,
        toNat_field (w := 5) right, toNat_field (w := 3) funct, BitVec.toInt_ofInt]
      rfl
  | jal rd offset =>
      have dest : rd < 32 := range
      have aligned : (BitVec.ofInt 21 offset).toNat % 2 = 0 := by
        have evenOffset : offset % 2 = 0 := even
        rw [BitVec.toNat_ofInt]
        omega
      simp only [shown, word, cut, operands]
      rw [operandsJ_wordJ _ _ aligned, toNat_field (w := 5) dest, BitVec.toInt_ofInt]
      rfl

/-- The operands are not changed by the cut exactly if the immediate fits. -/
theorem cut_operands_iff (even : c.JumpsEven) (taken : ¬ c.OddBranch) :
    c.cut.operands = c.operands ↔ c.Fits := by
  cases c with
  | u rd imm20 =>
      simp only [cut, operands, Fits, Operands.u.injEq, true_and]
      omega
  | i rd rs1 imm funct3 opcode =>
      simp only [cut, operands, Fits, Operands.i.injEq, true_and,
        Int.bmod_eq_iff (Nat.two_pow_pos 12)]
      omega
  | s rs2 rs1 imm funct3 =>
      simp only [cut, operands, Fits, Operands.s.injEq, true_and,
        Int.bmod_eq_iff (Nat.two_pow_pos 12)]
      omega
  | b rs1 rs2 offset funct3 =>
      have evenOffset : offset % 2 = 0 := not_not.mp taken
      simp only [cut, operands, Fits, Operands.b.injEq, true_and,
        Int.bmod_eq_iff (Nat.two_pow_pos 13)]
      omega
  | jal rd offset =>
      have evenOffset : offset % 2 = 0 := even
      simp only [cut, operands, Fits, Operands.j.injEq, true_and,
        Int.bmod_eq_iff (Nat.two_pow_pos 21)]
      omega

theorem result_none_iff : c.result = none ↔ c.OddBranch := by
  cases c with
  | u | i | s | jal => simp [result, OddBranch]
  | b rs1 rs2 offset funct3 => simp [result, OddBranch, BuildFirmware.b]

theorem not_oddBranch {x : ℤ} (returned : c.result = some x) : ¬ c.OddBranch := by
  intro odd
  rw [result_none_iff.mpr odd] at returned
  cases returned

/-- The result of a mask is the word, whatever the immediate. -/
theorem result_of_masks (range : c.InRange) (taken : ¬ c.OddBranch) (masks : c.Masks) :
    c.result = some (c.word.toNat : ℤ) := by
  cases c with
  | u => cases masks
  | i rd rs1 imm funct3 opcode =>
      obtain ⟨dest, source, funct, op⟩ := range
      rw [result, i_eq dest source funct op]
  | s rs2 rs1 imm funct3 =>
      obtain ⟨value, source, funct⟩ := range
      rw [result, s_eq value source funct]
  | b rs1 rs2 offset funct3 =>
      obtain ⟨left, right, funct⟩ := range
      rw [result, b_eq left right funct (not_not.mp taken)]
      rfl
  | jal rd offset => rw [result, jal_eq range]

theorem eq_word_of_masks (range : c.InRange) (masks : c.Masks) {x : ℤ}
    (returned : c.result = some x) : x = c.word.toNat := by
  rw [result_of_masks range (not_oddBranch returned) masks] at returned
  exact (Option.some.inj returned).symm

theorem toNat_word_u {rd : ℕ} (dest : rd < 32) (imm20 : ℤ) :
    (u rd imm20).word.toNat = ((imm20 % 2 ^ 20).toNat * 2 ^ 5 + rd) * 2 ^ 7 + 0x37 := by
  rw [word, toNat_wordU, toNat_field (w := 5) dest, BitVec.toNat_ofInt]
  rfl

theorem result_of_fits (range : c.InRange) (taken : ¬ c.OddBranch) (fits : c.Fits) :
    c.result = some (c.word.toNat : ℤ) := by
  cases c with
  | u rd imm20 =>
      obtain ⟨nonneg, below⟩ := fits
      rw [result, u_eq range, toNat_word_u range]
      congr 1
      omega
  | i | s | b | jal => exact result_of_masks range taken trivial

/-- The low 32 bits of a result are the word. -/
theorem ofInt_result (range : c.InRange) {x : ℤ} (returned : c.result = some x) :
    BitVec.ofInt 32 x = c.word := by
  cases c with
  | u rd imm20 =>
      have dest : rd < 32 := range
      obtain rfl := Option.some.inj returned
      apply BitVec.eq_of_toNat_eq
      rw [u_eq dest, toNat_word_u dest, BitVec.toNat_ofInt]
      omega
  | i | s | b | jal =>
      rw [eq_word_of_masks range trivial returned]
      exact ofInt_natCast_toNat _

/-- What is returned is a number of 32 bits, but for an upper immediate that does not fit. -/
theorem result_bounds_iff (range : c.InRange) {x : ℤ} (returned : c.result = some x) :
    0 ≤ x ∧ x < 2 ^ 32 ↔ c.Masks ∨ c.Fits := by
  cases c with
  | u rd imm20 =>
      have dest : rd < 32 := range
      obtain rfl := Option.some.inj returned
      simp only [u_eq dest, Masks, Fits, false_or]
      omega
  | i | s | b | jal =>
      rw [eq_word_of_masks range trivial returned]
      refine iff_of_true ⟨Int.natCast_nonneg _, ?_⟩ (.inl trivial)
      exact_mod_cast (word _).isLt

theorem read_back (range : c.InRange) (even : c.JumpsEven) (taken : ¬ c.OddBranch)
    (fits : c.Fits) : c.shown c.word = c.operands := by
  rw [shown_word range even taken, (cut_operands_iff even taken).mpr fits]

theorem exact_iff (range : c.InRange) (even : c.JumpsEven) : c.Exact ↔ c.Fits := by
  by_cases odd : c.OddBranch
  · refine iff_of_true (.inl (result_none_iff.mpr odd)) ?_
    cases c with
    | b => exact fun aligned => absurd aligned odd
    | u | i | s | jal => cases odd
  · constructor
    · rintro (raised | ⟨w, returned, shown⟩)
      · exact absurd (result_none_iff.mp raised) odd
      · have same : w = c.word := by
          rw [← ofInt_result range returned, ofInt_natCast_toNat]
        rw [same, shown_word range even odd] at shown
        exact (cut_operands_iff even odd).mp shown
    · intro fits
      exact .inr ⟨c.word, result_of_fits range odd fits, read_back range even odd fits⟩

end Call

/-- **The encoders cut what does not fit**: a branch to an odd offset raises and no other
call does, and where no jump offset is odd a call is exact if and only if its immediate
fits.  The low 32 bits of any result hold the operands with the immediate cut, and they
are the whole result unless the immediate is an upper one that does not fit. -/
theorem encoders_cut {c : Call} (range : c.InRange) (even : c.JumpsEven) :
    (c.result = none ↔ c.OddBranch) ∧ (c.Exact ↔ c.Fits) ∧
      ∀ x, c.result = some x → c.shown (BitVec.ofInt 32 x) = c.cut.operands ∧
        (0 ≤ x ∧ x < 2 ^ 32 ↔ c.Masks ∨ c.Fits) := by
  refine ⟨Call.result_none_iff, Call.exact_iff range even, fun x returned => ⟨?_, ?_⟩⟩
  · rw [Call.ofInt_result range returned,
      Call.shown_word range even (Call.not_oddBranch returned)]
  · exact Call.result_bounds_iff range returned

/-- The branch back over eight instructions is read back as it was meant. -/
theorem encoders_cut_branch : (Call.b 6 12 (-32) 1).Exact := by
  have range : (Call.b 6 12 (-32) 1).InRange := ⟨by decide, by decide, by decide⟩
  exact (encoders_cut range trivial).2.1.mpr fun _ => ⟨by decide, by decide⟩

/-- `addi x3, x0, 2048` is put into the word of `addi x3, x0, -2048`. -/
theorem immediate_cut : (Call.i 3 0 2048 0 0x13).InRange ∧ ¬ (Call.i 3 0 2048 0 0x13).Exact := by
  have range : (Call.i 3 0 2048 0 0x13).InRange := ⟨by decide, by decide, by decide, by decide⟩
  refine ⟨range, fun back => ?_⟩
  obtain ⟨-, below⟩ := (Call.exact_iff range trivial).mp back
  exact absurd below (by decide)

/-! ## Labels -/

section Labels

variable {rd rs1 rs2 funct3 index label : ℕ} {imm : BitVec 32}

theorem address_add (reads : imm.toInt = ((label : ℤ) - index) * 4) :
    address index + imm = address label := by
  rw [← BitVec.ofInt_toInt (x := imm), reads, address, address, ← BitVec.ofInt_natCast,
    ← BitVec.ofInt_natCast, ← BitVec.ofInt_add]
  congr 1
  push_cast
  omega

/-- A branch that is put in for a label takes the machine to it. -/
theorem branch_reaches (left : rs1 < 32) (right : rs2 < 32) (funct : funct3 < 8)
    (near : label < index + 1024 ∧ index ≤ label + 1024) :
    ∃ w : BitVec 32, b rs1 rs2 (((label : ℤ) - index) * 4) funct3 = some w.toNat ∧
      address index + immB w = address label := by
  have even : ((label : ℤ) - index) * 4 % 2 = 0 := by omega
  have shown := Call.read_back (c := .b rs1 rs2 (((label : ℤ) - index) * 4) funct3)
    ⟨left, right, funct⟩ trivial (not_not.mpr even) fun _ => by omega
  exact ⟨_, b_eq left right funct even, address_add (Operands.b.inj shown).2.2.2.2⟩

theorem jump_reaches (dest : rd < 32) (near : label < index + 262144 ∧ index ≤ label + 262144) :
    ∃ w : BitVec 32, jal rd (((label : ℤ) - index) * 4) = w.toNat ∧
      address index + immJ w = address label := by
  have even : ((label : ℤ) - index) * 4 % 2 = 0 := by omega
  have fits : (Call.jal rd (((label : ℤ) - index) * 4)).Fits := ⟨by omega, by omega⟩
  have shown := Call.read_back (c := .jal rd (((label : ℤ) - index) * 4)) dest even id fits
  exact ⟨_, jal_eq dest _, address_add (Operands.j.inj shown).2.2⟩

end Labels

end MiniMac.Dv.BuildFirmware
