/-
# Theory.ByteLanes -- the bytes of a memory of words

Four lanes of eight bits, the lowest first.  `bytes` is a memory of words seen byte by byte,
and `halfAt` and `wordAt` are the little-endian values at any address of it.
-/
import MiniMac.Theory.WordAddress

namespace MiniMac.Theory

set_option autoImplicit false

/-- The byte in a lane of a word. -/
def byte (word : BitVec 32) (lane : BitVec 2) : BitVec 8 := word.extractLsb' (8 * lane.toNat) 8

/-- The lane of a byte address. -/
def lane (addr : BitVec 32) : BitVec 2 := addr.extractLsb' 0 2

/-- A memory of words as one of bytes. -/
def bytes (mem : BitVec 30 → BitVec 32) (addr : BitVec 32) : BitVec 8 :=
  byte (mem (wordIndex addr)) (lane addr)

def halfAt (mem : BitVec 32 → BitVec 8) (addr : BitVec 32) : BitVec 16 :=
  mem (addr + 1) ++ mem addr

def wordAt (mem : BitVec 32 → BitVec 8) (addr : BitVec 32) : BitVec 32 :=
  mem (addr + 3) ++ mem (addr + 2) ++ mem (addr + 1) ++ mem addr

theorem two_bits (l : BitVec 2) : l = 0 ∨ l = 1 ∨ l = 2 ∨ l = 3 := by
  revert l
  decide

section Addresses

variable (addr : BitVec 32)

theorem toNat_wordIndex : (wordIndex addr).toNat = addr.toNat / 4 := by
  have small := addr.isLt
  rw [wordIndex, BitVec.extractLsb'_toNat, Nat.shiftRight_eq_div_pow]
  omega

theorem toNat_lane : (lane addr).toNat = addr.toNat % 4 := by
  rw [lane, BitVec.extractLsb'_toNat, Nat.shiftRight_zero]

theorem toNat_wordIndex_succ : (wordIndex addr + 1).toNat = (addr.toNat / 4 + 1) % 2 ^ 30 := by
  rw [BitVec.toNat_add, toNat_wordIndex]
  rfl

/-- The lane some bytes further. -/
theorem lane_add (k : ℕ) : lane (addr + BitVec.ofNat 32 k) = lane addr + BitVec.ofNat 2 k := by
  apply BitVec.eq_of_toNat_eq
  rw [toNat_lane, BitVec.toNat_add, BitVec.toNat_add, toNat_lane, BitVec.toNat_ofNat,
    BitVec.toNat_ofNat]
  omega

/-- Some bytes further in the same word. -/
theorem wordIndex_near {k : ℕ} (within : (lane addr).toNat + k < 4) :
    wordIndex (addr + BitVec.ofNat 32 k) = wordIndex addr := by
  have small := addr.isLt
  rw [toNat_lane] at within
  apply BitVec.eq_of_toNat_eq
  rw [toNat_wordIndex, toNat_wordIndex, BitVec.toNat_add, BitVec.toNat_ofNat]
  omega

/-- Some bytes further in the next word. -/
theorem wordIndex_next {k : ℕ} (few : k ≤ 4) (beyond : 4 ≤ (lane addr).toNat + k) :
    wordIndex (addr + BitVec.ofNat 32 k) = wordIndex addr + 1 := by
  have small := addr.isLt
  rw [toNat_lane] at beyond
  apply BitVec.eq_of_toNat_eq
  rw [toNat_wordIndex, toNat_wordIndex_succ, BitVec.toNat_add, BitVec.toNat_ofNat]
  omega

/-- The bytes behind an address are in its word, then in the next. -/
theorem bytes_add (mem : BitVec 30 → BitVec 32) {k : ℕ} (few : k ≤ 4) :
    bytes mem (addr + BitVec.ofNat 32 k) =
      byte (mem (if (lane addr).toNat + k < 4 then wordIndex addr else wordIndex addr + 1))
        (lane addr + BitVec.ofNat 2 k) := by
  rw [bytes, lane_add]
  split
  · next within => rw [wordIndex_near addr within]
  · next beyond => rw [wordIndex_next addr few (by omega)]

/-- An address that lies less than a few bytes past another is in its word or in the next. -/
theorem toNat_sub_lt_iff (a : BitVec 32) {n : ℕ} (few : n ≤ 4) : (a - addr).toNat < n ↔
    wordIndex a = wordIndex addr ∧ (lane addr).toNat ≤ (lane a).toNat ∧
        (lane a).toNat < (lane addr).toNat + n ∨
      wordIndex a = wordIndex addr + 1 ∧ (lane a).toNat + 4 < (lane addr).toNat + n := by
  have small := addr.isLt
  have small' := a.isLt
  rw [← BitVec.toNat_inj, ← BitVec.toNat_inj, toNat_wordIndex_succ, toNat_wordIndex,
    toNat_wordIndex, toNat_lane, toNat_lane, BitVec.toNat_sub]
  omega

theorem lane_sub (a : BitVec 32) : lane (a - addr) = lane a - lane addr := by
  apply BitVec.eq_of_toNat_eq
  rw [toNat_lane, BitVec.toNat_sub, BitVec.toNat_sub, toNat_lane, toNat_lane]
  omega

end Addresses

end MiniMac.Theory
