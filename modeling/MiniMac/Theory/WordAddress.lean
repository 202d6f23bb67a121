/-
# Theory.WordAddress -- words under 32-bit byte addresses

`wordAddr base k` is the byte address `4 * k` past a base, modulo the address
space, and `wordIndex` the word a byte address falls in.  Neither needs the base
to be aligned: the low bits stay out of the sum.
-/
import Mathlib.Data.BitVec

namespace MiniMac.Theory

set_option autoImplicit false

/-- The byte address of the `k`-th word from a base. -/
def wordAddr (base : BitVec 32) (k : ℕ) : BitVec 32 := base + BitVec.ofNat 32 (4 * k)

theorem wordAddr_zero (base : BitVec 32) : wordAddr base 0 = base := BitVec.add_zero base

theorem wordAddr_succ (base : BitVec 32) (k : ℕ) : wordAddr base (k + 1) = wordAddr base k + 4 := by
  rw [wordAddr, wordAddr, Nat.mul_succ, BitVec.ofNat_add, ← BitVec.add_assoc]
  rfl

/-- The word a byte address falls in. -/
def wordIndex (addr : BitVec 32) : BitVec 30 := addr.extractLsb' 2 30

/-- Word indices count up with the words. -/
theorem wordIndex_wordAddr (base : BitVec 32) (k : ℕ) :
    wordIndex (wordAddr base k) = wordIndex base + BitVec.ofNat 30 k := by
  apply BitVec.eq_of_toNat_eq
  simp only [wordIndex, wordAddr, BitVec.extractLsb'_toNat, BitVec.toNat_add,
    BitVec.toNat_ofNat, Nat.shiftRight_eq_div_pow]
  omega

theorem wordIndex_inj {base : BitVec 32} {j k : ℕ} (hj : j < 2 ^ 30) (hk : k < 2 ^ 30)
    (same : wordIndex (wordAddr base j) = wordIndex (wordAddr base k)) : j = k := by
  rw [wordIndex_wordAddr, wordIndex_wordAddr, BitVec.add_right_inj] at same
  have values := congrArg BitVec.toNat same
  simp only [BitVec.toNat_ofNat] at values
  omega

/-! ## Bytes of words -/

theorem wordIndex_toNat (addr : BitVec 32) : (wordIndex addr).toNat = addr.toNat / 4 := by
  have fits := addr.isLt
  simp only [wordIndex, BitVec.extractLsb'_toNat, Nat.shiftRight_eq_div_pow]
  omega

/-- A byte of the `k`-th word from an aligned base. -/
theorem wordIndex_byte {base : BitVec 32} (aligned : base.toNat % 4 = 0) (k : ℕ) {lane : ℕ}
    (within : lane < 4) :
    wordIndex (base + BitVec.ofNat 32 (4 * k + lane)) = wordIndex (wordAddr base k) := by
  apply BitVec.eq_of_toNat_eq
  rw [wordIndex_toNat, wordIndex_toNat, wordAddr]
  simp only [BitVec.toNat_add, BitVec.toNat_ofNat]
  omega

/-- The `k`-th word from an aligned base has no other bytes. -/
theorem byte_of_wordIndex {base addr : BitVec 32} (aligned : base.toNat % 4 = 0) {k : ℕ}
    (same : wordIndex addr = wordIndex (wordAddr base k)) :
    ∃ lane < 4, addr = base + BitVec.ofNat 32 (4 * k + lane) := by
  have words := congrArg BitVec.toNat same
  rw [wordIndex_toNat, wordIndex_toNat, wordAddr] at words
  simp only [BitVec.toNat_add, BitVec.toNat_ofNat] at words
  refine ⟨addr.toNat % 4, Nat.mod_lt _ (by decide), BitVec.eq_of_toNat_eq ?_⟩
  have fits := addr.isLt
  simp only [BitVec.toNat_add, BitVec.toNat_ofNat]
  omega

/-- Aligned bases whose `k`-th words are one are one. -/
theorem base_inj {base base' : BitVec 32} (aligned : base.toNat % 4 = 0)
    (aligned' : base'.toNat % 4 = 0) {k : ℕ}
    (same : wordIndex (wordAddr base k) = wordIndex (wordAddr base' k)) : base = base' := by
  rw [wordIndex_wordAddr, wordIndex_wordAddr, BitVec.add_left_inj] at same
  have words := congrArg BitVec.toNat same
  rw [wordIndex_toNat, wordIndex_toNat] at words
  apply BitVec.eq_of_toNat_eq
  omega

/-- Two ranges of fewer than `2 ^ 29` words shifted against each other: where word `i` of one
is word `k` of the other, no word between them is word `i` of the other. -/
theorem no_crossing {base base' : BitVec 32} {i j k : ℕ} (first : i < j) (upto : j ≤ k)
    (small : k < 2 ^ 29) (meet : wordIndex (wordAddr base i) = wordIndex (wordAddr base' k)) :
    wordIndex (wordAddr base j) ≠ wordIndex (wordAddr base' i) := by
  intro cross
  have words := congrArg BitVec.toNat meet
  have crossed := congrArg BitVec.toNat cross
  simp only [wordIndex_wordAddr, BitVec.toNat_add, BitVec.toNat_ofNat] at words crossed
  rw [Nat.mod_eq_of_lt (show i < 2 ^ 30 by omega), Nat.mod_eq_of_lt (show k < 2 ^ 30 by omega)]
    at words
  rw [Nat.mod_eq_of_lt (show j < 2 ^ 30 by omega), Nat.mod_eq_of_lt (show i < 2 ^ 30 by omega)]
    at crossed
  omega

end MiniMac.Theory
