/-
# Macros.SramWrapper -- the behavioural SRAM

Chip enable and write enable are active low, the byte mask is active high, and
the output register takes the word as it was before the edge, on reads and on
writes.  Every instance has a power-of-two depth, so the memory is indexed by
the low `memAddrWidth` address bits; its contents and its output are unknown
until they are first written.
-/
import MiniMac.Theory.WriteLog

namespace MiniMac.Macros.SramWrapper

open MiniMac.Theory

set_option autoImplicit false

structure Inputs (addrWidth : ℕ) where
  sramCen : Bool
  sramWen : Bool
  sramAddr : BitVec addrWidth
  sramWmask : BitVec 4
  sramDin : BitVec 32

structure State (memAddrWidth : ℕ) where
  mem : BitVec memAddrWidth → BitVec 32
  sramDout : BitVec 32

/-- The word after a write of `din` under a byte mask. -/
def writeLanes (wmask : BitVec 4) (din old : BitVec 32) : BitVec 32 :=
  (if wmask[3] then din else old).extractLsb' 24 8 ++
    (if wmask[2] then din else old).extractLsb' 16 8 ++
    (if wmask[1] then din else old).extractLsb' 8 8 ++
    (if wmask[0] then din else old).extractLsb' 0 8

variable {addrWidth memAddrWidth : ℕ}

def step (s : State memAddrWidth) (i : Inputs addrWidth) : State memAddrWidth :=
  let addr := i.sramAddr.setWidth memAddrWidth
  if i.sramCen then s
  else
    { mem := if i.sramWen then s.mem
        else Function.update s.mem addr (writeLanes i.sramWmask i.sramDin (s.mem addr))
      sramDout := s.mem addr }

/-- The write an enabled write access performs. -/
def maskedWrite (addr : BitVec memAddrWidth) (wmask : BitVec 4) (din : BitVec 32) :
    Write (BitVec memAddrWidth) (BitVec 32) :=
  ⟨addr, writeLanes wmask din⟩

/-- A full mask replaces the word. -/
theorem writeLanes_full (din old : BitVec 32) : writeLanes 0xF#4 din old = din := by
  have lanes : writeLanes 0xF#4 din old =
      din.extractLsb' 24 8 ++ din.extractLsb' 16 8 ++ din.extractLsb' 8 8 ++
        din.extractLsb' 0 8 := rfl
  rw [lanes]
  ext k bound
  simp only [BitVec.getElem_append, BitVec.getElem_extractLsb']
  split
  · rw [Nat.zero_add]
    exact BitVec.getLsbD_eq_getElem bound
  · split
    · rw [show 8 + (k - 8) = k by omega]
      exact BitVec.getLsbD_eq_getElem bound
    · split
      · rw [show 16 + (k - 8 - 8) = k by omega]
        exact BitVec.getLsbD_eq_getElem bound
      · rw [show 24 + (k - 8 - 8 - 8) = k by omega]
        exact BitVec.getLsbD_eq_getElem bound

theorem step_disabled (s : State memAddrWidth) (i : Inputs addrWidth) (off : i.sramCen = true) :
    step s i = s := by
  simp [step, off]

theorem step_mem (s : State memAddrWidth) (i : Inputs addrWidth) (on : i.sramCen = false) :
    (step s i).mem = if i.sramWen then s.mem
      else (maskedWrite (i.sramAddr.setWidth memAddrWidth) i.sramWmask i.sramDin).apply s.mem := by
  simp only [step, on]
  rfl

theorem step_sramDout (s : State memAddrWidth) (i : Inputs addrWidth) (on : i.sramCen = false) :
    (step s i).sramDout = s.mem (i.sramAddr.setWidth memAddrWidth) := by
  simp [step, on]

end MiniMac.Macros.SramWrapper
