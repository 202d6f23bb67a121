/-
# Theory.Rv32iFormats -- the layouts of RV32I words

A word of each of the formats U, I, S, B and J, put together from its fields, and the
operands that the field extraction shows.  The immediate of B is scattered over four
fields and that of J over four others, without their lowest bit; what is read back is
the immediate that was put in, if that bit is clear.
-/
import MiniMac.Theory.Rv32i

namespace MiniMac.Theory.Rv32i

set_option autoImplicit false

/-! ## Operands -/

/-- What a word of each format says.  Immediates are signed, but for the upper one. -/
inductive Operands where
  | u (opcode rd : ℕ) (imm : ℤ)
  | i (opcode rd funct3 rs1 : ℕ) (imm : ℤ)
  | s (opcode funct3 rs1 rs2 : ℕ) (imm : ℤ)
  | b (opcode funct3 rs1 rs2 : ℕ) (imm : ℤ)
  | j (opcode rd : ℕ) (imm : ℤ)
  deriving DecidableEq

def operandsU (w : BitVec 32) : Operands := .u (opcode w).toNat (rd w).toNat (immU w).toNat

def operandsI (w : BitVec 32) : Operands :=
  .i (opcode w).toNat (rd w).toNat (funct3 w).toNat (rs1 w).toNat (immI w).toInt

def operandsS (w : BitVec 32) : Operands :=
  .s (opcode w).toNat (funct3 w).toNat (rs1 w).toNat (rs2 w).toNat (immS w).toInt

def operandsB (w : BitVec 32) : Operands :=
  .b (opcode w).toNat (funct3 w).toNat (rs1 w).toNat (rs2 w).toNat (immB w).toInt

def operandsJ (w : BitVec 32) : Operands := .j (opcode w).toNat (rd w).toNat (immJ w).toInt

/-! ## Words -/

section Words

variable (funct : BitVec 3) (r₂ r₁ d : BitVec 5) (op : BitVec 7)

def wordU (imm : BitVec 20) : BitVec 32 := imm ++ d ++ op

def wordI (imm : BitVec 12) : BitVec 32 := imm ++ r₁ ++ funct ++ d ++ op

def wordS (imm : BitVec 12) : BitVec 32 :=
  imm.extractLsb' 5 7 ++ r₂ ++ r₁ ++ funct ++ imm.extractLsb' 0 5 ++ op

def wordB (imm : BitVec 13) : BitVec 32 :=
  imm.extractLsb' 12 1 ++ imm.extractLsb' 5 6 ++ r₂ ++ r₁ ++ funct ++ imm.extractLsb' 1 4 ++
    imm.extractLsb' 11 1 ++ op

def wordJ (imm : BitVec 21) : BitVec 32 :=
  imm.extractLsb' 20 1 ++ imm.extractLsb' 1 10 ++ imm.extractLsb' 11 1 ++ imm.extractLsb' 12 8 ++
    d ++ op

end Words

/-! ## Fields of a concatenation -/

section Fields

variable {v w start len : ℕ} (high : BitVec v) (low : BitVec w)

-- The width of a word is a numeral and not a sum, so the concatenation is not an index term.
@[simp] theorem extract_high (above : w ≤ start) :
    BitVec.extractLsb' start len (no_index (high ++ low)) =
      BitVec.extractLsb' (start - w) len high :=
  BitVec.extractLsb'_append_eq_of_le above

@[simp] theorem extract_low (below : start + len ≤ w) :
    BitVec.extractLsb' start len (no_index (high ++ low)) = BitVec.extractLsb' start len low :=
  BitVec.extractLsb'_append_eq_of_add_le below

/-- A concatenation as a number: the high part counts in units of the low one's width. -/
theorem toNat_append_eq_add : (high ++ low).toNat = high.toNat * 2 ^ w + low.toNat := by
  rw [BitVec.toNat_append, ← Nat.shiftLeft_add_eq_or_of_lt low.isLt, Nat.shiftLeft_eq]

end Fields

theorem toNat_extract {w : ℕ} (x : BitVec w) (start len : ℕ) :
    (x.extractLsb' start len).toNat = x.toNat / 2 ^ start % 2 ^ len := by
  rw [BitVec.extractLsb'_toNat, Nat.shiftRight_eq_div_pow]

/-! ## Words by shifts -/

section Shifts

variable (funct : BitVec 3) (r₂ r₁ d : BitVec 5) (op : BitVec 7)

theorem toNat_wordU (imm : BitVec 20) :
    (wordU d op imm).toNat = (imm.toNat * 2 ^ 5 + d.toNat) * 2 ^ 7 + op.toNat := by
  simp only [wordU, toNat_append_eq_add]

theorem toNat_wordI (imm : BitVec 12) :
    (wordI funct r₁ d op imm).toNat =
      imm.toNat <<< 20 ||| r₁.toNat <<< 15 ||| funct.toNat <<< 12 ||| d.toNat <<< 7 |||
        op.toNat := by
  simp only [wordI, BitVec.toNat_append, Nat.shiftLeft_or_distrib, ← Nat.shiftLeft_add]

theorem toNat_wordS (imm : BitVec 12) :
    (wordS funct r₂ r₁ op imm).toNat =
      (imm.extractLsb' 5 7).toNat <<< 25 ||| r₂.toNat <<< 20 ||| r₁.toNat <<< 15 |||
        funct.toNat <<< 12 ||| (imm.extractLsb' 0 5).toNat <<< 7 ||| op.toNat := by
  simp only [wordS, BitVec.toNat_append, Nat.shiftLeft_or_distrib, ← Nat.shiftLeft_add]

theorem toNat_wordB (imm : BitVec 13) :
    (wordB funct r₂ r₁ op imm).toNat =
      (imm.extractLsb' 12 1).toNat <<< 31 ||| (imm.extractLsb' 5 6).toNat <<< 25 |||
        r₂.toNat <<< 20 ||| r₁.toNat <<< 15 ||| funct.toNat <<< 12 |||
          (imm.extractLsb' 1 4).toNat <<< 8 ||| (imm.extractLsb' 11 1).toNat <<< 7 |||
            op.toNat := by
  simp only [wordB, BitVec.toNat_append, Nat.shiftLeft_or_distrib, ← Nat.shiftLeft_add]

theorem toNat_wordJ (imm : BitVec 21) :
    (wordJ d op imm).toNat =
      (imm.extractLsb' 20 1).toNat <<< 31 ||| (imm.extractLsb' 1 10).toNat <<< 21 |||
        (imm.extractLsb' 11 1).toNat <<< 20 ||| (imm.extractLsb' 12 8).toNat <<< 12 |||
          d.toNat <<< 7 ||| op.toNat := by
  simp only [wordJ, BitVec.toNat_append, Nat.shiftLeft_or_distrib, ← Nat.shiftLeft_add]

end Shifts

/-! ## Scattered immediates -/

theorem gather_immS (imm : BitVec 12) : imm.extractLsb' 5 7 ++ imm.extractLsb' 0 5 = imm := by
  apply BitVec.eq_of_toNat_eq
  simp only [toNat_append_eq_add, toNat_extract, Nat.reducePow]
  omega

theorem gather_immB {imm : BitVec 13} (even : imm.toNat % 2 = 0) :
    imm.extractLsb' 12 1 ++ imm.extractLsb' 11 1 ++ imm.extractLsb' 5 6 ++ imm.extractLsb' 1 4 ++
      0#1 = imm := by
  apply BitVec.eq_of_toNat_eq
  simp only [toNat_append_eq_add, toNat_extract, BitVec.toNat_ofNat, Nat.reducePow]
  omega

theorem gather_immJ {imm : BitVec 21} (even : imm.toNat % 2 = 0) :
    imm.extractLsb' 20 1 ++ imm.extractLsb' 12 8 ++ imm.extractLsb' 11 1 ++
      imm.extractLsb' 1 10 ++ 0#1 = imm := by
  apply BitVec.eq_of_toNat_eq
  simp only [toNat_append_eq_add, toNat_extract, BitVec.toNat_ofNat, Nat.reducePow]
  omega

/-! ## Reading a word back -/

section Reading

variable (funct : BitVec 3) (r₂ r₁ d : BitVec 5) (op : BitVec 7)

/-- The upper immediate reads as an unsigned number. -/
theorem operandsU_wordU (imm : BitVec 20) :
    operandsU (wordU d op imm) = .u op.toNat d.toNat (imm.toNat * 2 ^ 12) := by
  have unsigned : (imm ++ 0#12).toNat = imm.toNat * 2 ^ 12 := by
    rw [toNat_append_eq_add, BitVec.toNat_zero, Nat.add_zero]
  simp [operandsU, opcode, rd, immU, wordU, unsigned]

theorem operandsI_wordI (imm : BitVec 12) :
    operandsI (wordI funct r₁ d op imm) =
      .i op.toNat d.toNat funct.toNat r₁.toNat imm.toInt := by
  simp [operandsI, opcode, rd, funct3, rs1, immI, wordI, BitVec.toInt_signExtend_of_le]

theorem operandsS_wordS (imm : BitVec 12) :
    operandsS (wordS funct r₂ r₁ op imm) =
      .s op.toNat funct.toNat r₁.toNat r₂.toNat imm.toInt := by
  simp [operandsS, opcode, funct3, rs1, rs2, immS, wordS, gather_immS,
    BitVec.toInt_signExtend_of_le]

theorem operandsB_wordB {imm : BitVec 13} (even : imm.toNat % 2 = 0) :
    operandsB (wordB funct r₂ r₁ op imm) =
      .b op.toNat funct.toNat r₁.toNat r₂.toNat imm.toInt := by
  simp [operandsB, opcode, funct3, rs1, rs2, immB, wordB, gather_immB even,
    BitVec.toInt_signExtend_of_le]

theorem operandsJ_wordJ {imm : BitVec 21} (even : imm.toNat % 2 = 0) :
    operandsJ (wordJ d op imm) = .j op.toNat d.toNat imm.toInt := by
  simp [operandsJ, opcode, rd, immJ, wordJ, gather_immJ even, BitVec.toInt_signExtend_of_le]

end Reading

end MiniMac.Theory.Rv32i
