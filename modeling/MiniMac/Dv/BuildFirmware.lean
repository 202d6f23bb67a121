/-
# Dv.BuildFirmware -- the boot image

The generator of the boot ROM image: five encoders of RV32I formats and the program
they are applied to.  Offsets and immediates are unbounded integers, and what an
encoder cuts off it cuts off with a mask.  The branch encoder refuses an odd offset
(`none`), so the whole program is built or not.
-/
import Mathlib.Data.Int.Bitwise

namespace MiniMac.Dv.BuildFirmware

set_option autoImplicit false

/-! ## Encoders -/

/-- The bits of `x` under a mask of at most 32 bits, negative numbers in two's complement. -/
def band (x : ℤ) (mask : ℕ) : ℕ := (x % 2 ^ 32).toNat &&& mask

def u (rd : ℕ) (imm20 : ℤ) : ℤ := Int.lor (Int.lor (imm20 * 2 ^ 12) ((rd <<< 7 : ℕ) : ℤ)) 0x37

def i (rd rs1 : ℕ) (imm : ℤ) (funct3 : ℕ := 0) (opcode : ℕ := 0x13) : ℕ :=
  (band imm 0xFFF) <<< 20 ||| rs1 <<< 15 ||| funct3 <<< 12 ||| rd <<< 7 ||| opcode

def s (rs2 rs1 : ℕ) (imm : ℤ) (funct3 : ℕ := 2) : ℕ :=
  let imm := band imm 0xFFF
  (imm >>> 5) <<< 25 ||| rs2 <<< 20 ||| rs1 <<< 15 ||| funct3 <<< 12 ||| (imm &&& 0x1F) <<< 7 |||
    0x23

def b (rs1 rs2 : ℕ) (offset : ℤ) (funct3 : ℕ := 0) : Option ℕ :=
  if offset % 2 = 0 then
    let imm := band offset 0x1FFF
    some (((imm >>> 12) &&& 1) <<< 31 ||| ((imm >>> 5) &&& 0x3F) <<< 25 ||| rs2 <<< 20 |||
      rs1 <<< 15 ||| funct3 <<< 12 ||| ((imm >>> 1) &&& 0xF) <<< 8 |||
      ((imm >>> 11) &&& 1) <<< 7 ||| 0x63)
  else none

def jal (rd : ℕ) (offset : ℤ) : ℕ :=
  let imm := band offset 0x1FFFFF
  ((imm >>> 20) &&& 1) <<< 31 ||| ((imm >>> 1) &&& 0x3FF) <<< 21 ||| ((imm >>> 11) &&& 1) <<< 20 |||
    ((imm >>> 12) &&& 0xFF) <<< 12 ||| rd <<< 7 ||| 0x6F

/-! ## The program -/

def weights : List ℤ := [1, 2, 3, 4, 2, 1, 2, 1, 1, 3, 1, 2, 2, 2, 1, 1]

def activations : List ℤ := [1, 2, 3, 4]

/-- Two instructions for each value: it is loaded into `x3` and stored at its offset. -/
def stores (base : ℤ) (values : List ℤ) : List ℤ :=
  values.zipIdx.flatMap fun (value, k) => [(i 3 0 value : ℤ), s 3 1 (base + 4 * k)]

/-- The program of the copy, up to the jump after its signature. -/
def copyProgram : Option (List ℤ) := do
  let poll ← b 6 0 (-8)
  return [
    u 1 0x10000, u 2 0x40000,
    u 3 0x11223, i 3 3 0x344, s 3 1 0,
    u 3 0x55667, i 3 3 0x788, s 3 1 4,
    i 4 1 32, s 1 2 0, s 4 2 4,
    i 5 0 8, s 5 2 8, i 5 0 1, s 5 2 12,
    i 6 2 16 2 0x03, i 6 6 2 7,
    poll,
    u 7 0x600D0, i 7 7 1, s 7 1 64,
    0x0000006F]

/-- The program of the accelerator, up to its start. -/
def macProgram : List ℤ :=
  [u 8 0x40011, (i 9 1 0x080 : ℤ), i 10 1 0x0C0, i 11 1 0x100] ++
  stores 0x080 weights ++ stores 0x0C0 activations ++
  [(s 9 8 0x20 : ℤ), s 10 8 0x24, s 11 8 0x28,
    i 12 0 0x404, s 12 8 0x08, i 12 0 0x040, s 12 8 0x2C,
    i 12 0 0x010, s 12 8 0x30, i 12 0 0x00F, s 12 8 0x10,
    i 12 0 1, s 12 8 0x00]

/-- The offsets of the result words, and the words expected there. -/
def results : List (ℤ × ℤ) := [(0, 5), (4, 13), (8, 14), (12, 12)]

/-- The program with the places of its labels, as indices of instructions. -/
structure Firmware where
  program : List ℤ
  failLabel : ℕ
  failLoop : ℕ
  passLabel : ℕ
  passLoop : ℕ

/-- The branches and jumps to labels are put in when the labels are known. -/
def firmware : Option Firmware := do
  let program := (← copyProgram) ++ macProgram
  let poll := program.length
  let program := program ++ [(i 6 8 0x04 2 0x03 : ℤ), i 6 6 2 7, 0]
  let pollBranch := program.length - 1
  let (program, branchPatches) := results.foldl (fun (program, patches) (offset, expected) =>
    let program := program ++ [(i 6 11 offset 2 0x03 : ℤ), i 12 0 expected, 0]
    (program, patches ++ [program.length - 1])) (program, [])
  let program := program ++ [0]
  let passJump := program.length - 1
  let failLabel := program.length
  let program := program ++ [u 7 0xBAD00, (i 7 7 1 : ℤ), s 7 1 0x144, 0]
  let failLoop := program.length - 1
  let passLabel := program.length
  let program := program ++ [u 7 0x600D0, (i 7 7 2 : ℤ), s 7 1 0x140, 0]
  let passLoop := program.length - 1
  let program := program.set pollBranch (← b 6 0 ((poll - pollBranch) * 4))
  let program ← branchPatches.foldlM (fun (program : List ℤ) (index : ℕ) => do
    return program.set index ((← b 6 12 ((failLabel - index) * 4) 1 : ℕ) : ℤ)) program
  let program := program.set passJump (jal 0 ((passLabel - passJump) * 4))
  let program := program.set failLoop (jal 0 ((failLabel - failLoop) * 4))
  let program := program.set passLoop (jal 0 ((passLabel - passLoop) * 4))
  return { program, failLabel, failLoop, passLabel, passLoop }

/-- The words of the ROM: the program starts at the reset address 0x80. -/
def Firmware.words (f : Firmware) : List (BitVec 32) :=
  List.replicate (0x80 / 4) 0 ++ f.program.map (BitVec.ofInt 32)

end MiniMac.Dv.BuildFirmware
