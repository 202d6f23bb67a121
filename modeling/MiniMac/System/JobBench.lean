/-
# System.JobBench -- the accelerator on a prompt memory

A memory of words that grants each request in its own cycle, answers a read in the
next one and performs a write at the edge of its cycle.  The accelerator with it is a
closed machine under register writes.
-/
import MiniMac.System.JobFill

namespace MiniMac.System

open MiniMac.Theory MiniMac.Accel

set_option autoImplicit false

variable {rows cols : ℕ}

/-- One cycle of the configuration port. -/
structure PortInputs where
  paddr : BitVec 32
  psel : Bool
  penable : Bool
  pwrite : Bool
  pwdata : BitVec 32

structure JobBench (rows cols : ℕ) where
  mac : MacSubsystem.State rows cols 8
  mem : BitVec 30 → BitVec 32
  pending : Bool
  data : BitVec 32

namespace JobBench

def macInputs (s : JobBench rows cols) (i : PortInputs) : MacSubsystem.Inputs where
  paddr := i.paddr
  psel := i.psel
  penable := i.penable
  pwrite := i.pwrite
  pwdata := i.pwdata
  mGntI := s.mac.dma.mReqO
  mRvalidI := s.pending
  mRdataI := s.data
  unknown := 0

def step (s : JobBench rows cols) (i : PortInputs) : JobBench rows cols where
  mac := MacSubsystem.step s.mac (s.macInputs i)
  mem :=
    if s.mac.dma.mReqO && s.mac.dma.mWeO then
      Function.update s.mem (wordIndex s.mac.dma.mAddrO) s.mac.dma.mWdataO
    else s.mem
  pending := s.mac.dma.mReqO && !s.mac.dma.mWeO
  data := s.mem (wordIndex s.mac.dma.mAddrO)

variable (s₀ : MacSubsystem.State rows cols 8) (mem : BitVec 30 → BitVec 32)
variable (ins : ℕ → PortInputs)

/-- The bench `t` cycles after the accelerator's reset. -/
def after (t : ℕ) : JobBench rows cols :=
  Clocked.run step ⟨MacSubsystem.reset s₀, mem, false, 0⟩ ins t

/-- What the accelerator sees. -/
def macIns (t : ℕ) : MacSubsystem.Inputs := (after s₀ mem ins t).macInputs (ins t)

def memAt (t : ℕ) : BitVec 30 → BitVec 32 := (after s₀ mem ins t).mem

theorem after_mac (t : ℕ) :
    (after s₀ mem ins t).mac = MacSubsystem.after s₀ (macIns s₀ mem ins) t :=
  Clocked.eq_run (x := fun u => (after s₀ mem ins u).mac) rfl (fun _ => rfl) t

theorem after_dma (t : ℕ) : (after s₀ mem ins t).mac.dma = dmaAt s₀ (macIns s₀ mem ins) t :=
  congrArg MacSubsystem.State.dma (after_mac s₀ mem ins t)

theorem grant_eq (t : ℕ) :
    (macIns s₀ mem ins t).mGntI = (dmaAt s₀ (macIns s₀ mem ins) t).mReqO := by
  rw [← after_dma]
  rfl

theorem answer_eq (t : ℕ) : (macIns s₀ mem ins (t + 1)).mRvalidI =
    AxiStreamDma.readTaken (dmaAt s₀ (macIns s₀ mem ins) t)
      (dmaInputsAt s₀ (macIns s₀ mem ins) t) := by
  rw [AxiStreamDma.readTaken, ← after_dma]
  rfl

/-- **The accelerator of the bench runs on a memory** of latency one. -/
theorem onMemory : OnMemory s₀ (macIns s₀ mem ins) 1 (fun _ => True) wordIndex
    (memAt s₀ mem ins) where
  served := {
    positive := Nat.one_pos
    next := fun _ => rfl
    noAbort := fun _ => rfl
    grants := fun t grant => (grant_eq s₀ mem ins t).symm.trans grant
    answers := {
      early := fun t soon => by
        obtain rfl : t = 0 := by omega
        rfl
      delayed := answer_eq s₀ mem ins }
    start := rfl
    noRead := nofun }
  granted t asks := ⟨t, le_refl t, (grant_eq s₀ mem ins t).trans (asks t (le_refl t)).1⟩
  contents g _ _ := by
    rw [← after_dma]
    rfl
  prompt t _ asks _ _ := (grant_eq s₀ mem ins t).trans asks
  stores t _ _ := by
    have next : memAt s₀ mem ins (t + 1) =
        if (dmaAt s₀ (macIns s₀ mem ins) t).mReqO && (dmaAt s₀ (macIns s₀ mem ins) t).mWeO then
          Function.update (memAt s₀ mem ins t)
            (wordIndex (dmaAt s₀ (macIns s₀ mem ins) t).mAddrO)
            (dmaAt s₀ (macIns s₀ mem ins) t).mWdataO
        else memAt s₀ mem ins t := by
      rw [← after_dma]
      rfl
    rw [next, memWriteAt, grant_eq, Bool.and_self]
    split
    · rfl
    · rfl

end JobBench

end MiniMac.System
