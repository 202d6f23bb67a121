/-
# Dv.FirmwareImage -- from the generator's file to the processor's fetch

The generator writes the boot image as text, one word a line, and the boot ROM loads
that text.  A program whose words are not negative comes through: a fetch on the chip
is answered with the word of the program at its address (`image_fetched`).
-/
import MiniMac.Core.InstrPort
import MiniMac.Dv.BuildFirmware
import MiniMac.Soc.StreamPort
import MiniMac.Theory.ReadMemH

namespace MiniMac.Dv.BuildFirmware

open MiniMac.Theory MiniMac.Core MiniMac.Soc

set_option autoImplicit false

/-- The list `words` of the generator: the program starts at the reset address. -/
def imageWords (program : List ℤ) : List ℤ := List.replicate (0x80 / 4) 0 ++ program

/-- The text of `firmware.hex`. -/
def imageText (program : List ℤ) : List Char := ReadMemH.lines 8 (imageWords program)

/-- The contents of the boot ROM, if the image can be loaded; words the image does not
reach are unknown. -/
def bootRom (unknown : BitVec 10 → BitVec 32) (text : List Char) : Option (BitVec 10 → BitVec 32) :=
  (ReadMemH.readmemh 32 1024 text).map fun mem addr => (mem addr.toNat).getD (unknown addr)

theorem bootRom_imageText (unknown : BitVec 10 → BitVec 32) (program : List ℤ) :
    bootRom unknown (imageText program) =
      if ∀ value ∈ program, 0 ≤ value then
        some fun addr => if addr.toNat < (imageWords program).length then
          BitVec.ofInt 32 ((imageWords program).getD addr.toNat 0) else unknown addr
      else none := by
  have signs : (∀ value ∈ imageWords program, 0 ≤ value) ↔ ∀ value ∈ program, 0 ≤ value := by
    simp [imageWords]
  rw [bootRom, imageText, ReadMemH.readmemh_lines]
  simp only [signs]
  by_cases signs : ∀ value ∈ program, 0 ≤ value
  · rw [if_pos signs, if_pos signs, Option.map_some]
    congr 1
    funext addr
    have small : addr.toNat < 1024 := addr.isLt
    by_cases within : addr.toNat < (imageWords program).length <;> simp [small, within]
  · rw [if_neg signs, if_neg signs]
    rfl

/-- The ROM index of an instruction's address. -/
theorem romIndex_ofNat {k : ℕ} (small : k < 992) :
    (MemSubsystem.romIndex (BitVec.ofNat 32 (0x80 + 4 * k))).toNat = 32 + k := by
  rw [MemSubsystem.romIndex, BitVec.extractLsb'_toNat, BitVec.toNat_ofNat,
    Nat.shiftRight_eq_div_pow]
  omega

/-- **The image comes through to the processor.**  The boot ROM loads the image of a program
exactly if none of its words is negative, and then a fetch at the `k`-th instruction's address
is answered two cycles after its grant with that word. -/
theorem image_fetched (unknown : BitVec 10 → BitVec 32) (program : List ℤ) :
    ((bootRom unknown (imageText program)).isSome = true ↔ ∀ value ∈ program, 0 ≤ value) ∧
    ∀ rom, bootRom unknown (imageText program) = some rom →
      ∀ (s₀ : SocTop.State) (ins : ℕ → SocTop.Inputs) (g k : ℕ) (within : k < program.length),
        k < 992 → (ins g).instrAddr = BitVec.ofNat 32 (0x80 + 4 * k) →
        MemSubsystem.instrGnt (SocTop.after rom s₀ ins g).mem (SocTop.memAt rom s₀ ins g) = true →
          (SocTop.after rom s₀ ins (g + 2)).mem.instrRvalid = true ∧
            MemSubsystem.instrRdata (SocTop.after rom s₀ ins (g + 2)).mem =
              BitVec.ofInt 32 program[k] := by
  rw [bootRom_imageText]
  by_cases signs : ∀ value ∈ program, 0 ≤ value
  · rw [if_pos signs]
    refine ⟨iff_of_true rfl signs, ?_⟩
    intro rom same s₀ ins g k within small addr granted
    have rom_eq := Option.some.inj same
    rw [SocTop.after_mem] at granted
    have delayed := MemSubsystem.instr_delayed rom s₀.mem (SocTop.memAt rom s₀ ins)
    have word := MemSubsystem.instrRdata_of_granted rom s₀.mem (SocTop.memAt rom s₀ ins) granted
    have place : (SocTop.memAt rom s₀ ins g).instrAddr = BitVec.ofNat 32 (0x80 + 4 * k) := addr
    have length : (imageWords program).length = 32 + program.length := by
      rw [imageWords, List.length_append, List.length_replicate]
    have index : (imageWords program).getD (32 + k) 0 = program[k] := by
      rw [imageWords, List.getD_append_right _ _ _ _ (by simp), List.length_replicate,
        Nat.add_sub_cancel_left]
      simp [within]
    rw [SocTop.after_mem]
    refine ⟨(delayed.delayed g).trans granted, ?_⟩
    rw [word, place, ← rom_eq]
    simp only [romIndex_ofNat small, length, index, Nat.add_lt_add_iff_left, within, if_true]
  · rw [if_neg signs]
    exact ⟨iff_of_false Bool.false_ne_true signs, nofun⟩

/-- The generator's own program is loaded. -/
theorem firmware_loaded : (bootRom (fun _ => 0)
    (imageText ((firmware.map Firmware.program).getD []))).isSome = true :=
  (image_fetched (fun _ => 0) _).1.mpr (by decide +kernel)

end MiniMac.Dv.BuildFirmware
