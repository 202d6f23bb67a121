/-
# Soc.StreamPort -- the stream engine's memory path

Behind the arbiter and the memory's DMA port the accelerator's stream engine is
on a path of latency two: every granted read is answered two cycles after its
grant (`stream_served`).  What the answer carries is the word of the read exactly
when the RAM port is not used for another word in the cycle between
(`streamRdata_eq_iff`).
-/
import MiniMac.Soc.SocTop
import MiniMac.Accel.FillBeats
import MiniMac.Core.ReadOwners
import MiniMac.Core.ReadResponses

namespace MiniMac.Soc.SocTop

open MiniMac.Theory MiniMac.Core MiniMac.Accel MiniMac.Bus

set_option autoImplicit false

variable (rom : BitVec 10 → BitVec 32) (s₀ : State) (ins : ℕ → Inputs)

/-! ## The parts of the system -/

/-- What the arbiter sees. -/
def arbiterAt (t : ℕ) : DmaArbiter.Inputs := arbiterInputs (after rom s₀ ins t) (ins t)

/-- What memory sees. -/
def memAt (t : ℕ) : MemSubsystem.Inputs := memInputs (after rom s₀ ins t) (ins t)

/-- The arbiter in the system runs as an arbiter on its own. -/
theorem after_arbiter (t : ℕ) :
    (after rom s₀ ins t).arbiter = DmaArbiter.after (arbiterAt rom s₀ ins) t :=
  Clocked.eq_run (x := fun u => (after rom s₀ ins u).arbiter) rfl (fun _ => rfl) t

/-- So does memory. -/
theorem after_mem (t : ℕ) :
    (after rom s₀ ins t).mem = MemSubsystem.after rom s₀.mem (memAt rom s₀ ins) t :=
  Clocked.eq_run (x := fun u => (after rom s₀ ins u).mem) rfl (fun _ => rfl) t

/-- The stream engine over a run. -/
def macDma (t : ℕ) : AxiStreamDma.State := (after rom s₀ ins t).mac.dma

def macDmaAt (t : ℕ) : AxiStreamDma.Inputs :=
  MacSubsystem.dmaInputs (after rom s₀ ins t).mac (macInputs (after rom s₀ ins t) (ins t))

/-! ## The DMA port -/

/-- Memory grants what the arbiter asks for. -/
theorem dmaMReq_of_gnt {s : State} {i : Inputs} (grant : (arbiterInputs s i).memGntI = true) :
    DmaArbiter.memReqO s.arbiter (arbiterInputs s i) = true := by
  have granted : dmaMGnt s i = true := grant
  rw [dmaMGnt_eq, Bool.and_eq_true, Bool.and_eq_true] at granted
  exact granted.1.1

/-- A read the arbiter passes on is one memory grants. -/
theorem readGrant_isSome (s : State) (i : Inputs) :
    (DmaArbiter.readGrant s.arbiter (arbiterInputs s i)).isSome =
      MemSubsystem.dmaReadGrant (memInputs s i) :=
  DmaArbiter.readGrant_isSome dmaMReq_of_gnt

/-- To the arbiter the DMA port is a memory of latency two. -/
theorem fixedLatency : DmaArbiter.FixedLatency 2 (arbiterAt rom s₀ ins) where
  positive := Nat.two_pos
  grants := by
    intro t grant
    rw [← after_arbiter]
    exact dmaMReq_of_gnt grant
  path := by
    have valid (t : ℕ) : (arbiterAt rom s₀ ins t).memRvalidI =
        (MemSubsystem.after rom s₀.mem (memAt rom s₀ ins) t).dmaRvalid := by
      rw [← after_mem]
      rfl
    constructor
    · intro t soon
      rw [valid]
      obtain rfl | rfl : t = 0 ∨ t = 1 := by omega
      · rfl
      · rfl
    · intro t
      rw [valid, MemSubsystem.dmaRvalid_eq, ← after_arbiter]
      exact (readGrant_isSome _ _).symm

/-- **The stream engine is on a path of latency two.** -/
theorem stream_served : AxiStreamDma.Served 2 (macDma rom s₀ ins) (macDmaAt rom s₀ ins) where
  positive := Nat.two_pos
  next _ := rfl
  noAbort _ := rfl
  grants _ grant := DmaArbiter.req_of_gnt (c := .stream) grant
  answers := by
    have path := (fixedLatency rom s₀ ins).client_path .stream
    simp only [← after_arbiter] at path
    exact path
  start := rfl
  noRead := nofun

/-! ## What the answers carry -/

/-- The RAM word at an address. -/
def ramWord (t : ℕ) (addr : BitVec 32) : BitVec 32 :=
  (after rom s₀ ins t).mem.ram.mem (MemSubsystem.ramIndex addr)

/-- Memory sees the engine's read. -/
theorem stream_read {t : ℕ}
    (taken : AxiStreamDma.readTaken (macDma rom s₀ ins t) (macDmaAt rom s₀ ins t) = true) :
    MemSubsystem.dmaReadGrant (memAt rom s₀ ins t) = true ∧
      (memAt rom s₀ ins t).dmaAddr = (macDma rom s₀ ins t).mAddrO := by
  obtain ⟨grant, reads⟩ := Bool.and_eq_true_iff.mp taken
  have we : (macDma rom s₀ ins t).mWeO = false := (Bool.not_eq_true' _).mp reads
  have took : (arbiterAt rom s₀ ins t).memGntI = true := (Bool.and_eq_true_iff.mp grant).1
  have asks := dmaMReq_of_gnt took
  have select : DmaArbiter.Client.stream =
      DmaArbiter.selected (after rom s₀ ins t).arbiter (arbiterAt rom s₀ ins t) :=
    ((DmaArbiter.gnt_iff asks .stream).mp grant).2
  obtain ⟨addr, write, -⟩ :=
    DmaArbiter.port_eq (after rom s₀ ins t).arbiter (arbiterAt rom s₀ ins t)
  rw [← select] at addr write
  refine ⟨?_, addr⟩
  have dmaWe : (memAt rom s₀ ins t).dmaWe = false := write.trans we
  have dmaGnt : MemSubsystem.dmaGnt (memAt rom s₀ ins t) = true := took
  rw [MemSubsystem.dmaReadGrant, dmaGnt, dmaWe]
  rfl

/-- In the cycle after a DMA read no other RAM word is accessed, or one that has the same
value. -/
def Undisturbed (t : ℕ) : Prop :=
  MemSubsystem.Undisturbed rom s₀.mem (memAt rom s₀ ins) t

/-- The answer to a read of the RAM carries its word exactly when it is undisturbed. -/
theorem streamRdata_eq_iff {t : ℕ}
    (taken : AxiStreamDma.readTaken (macDma rom s₀ ins t) (macDmaAt rom s₀ ins t) = true)
    (inside : MemSubsystem.inRam (macDma rom s₀ ins t).mAddrO = true) :
    (macDmaAt rom s₀ ins (t + 2)).mRdataI =
        ramWord rom s₀ ins t (macDma rom s₀ ins t).mAddrO ↔ Undisturbed rom s₀ ins t := by
  obtain ⟨read, addr⟩ := stream_read rom s₀ ins taken
  have answer : (macDmaAt rom s₀ ins (t + 2)).mRdataI =
      MemSubsystem.dmaRdata (MemSubsystem.after rom s₀.mem (memAt rom s₀ ins) (t + 2)) := by
    rw [← after_mem]
    rfl
  have word : ramWord rom s₀ ins t (macDma rom s₀ ins t).mAddrO =
      MemSubsystem.ramAt rom s₀.mem (memAt rom s₀ ins) t
        (MemSubsystem.ramIndex (memAt rom s₀ ins t).dmaAddr) := by
    rw [ramWord, addr, after_mem, MemSubsystem.ram_mem_eq]
  have ramRead : MemSubsystem.DmaRamRead (memAt rom s₀ ins t) := ⟨read, by rw [addr]; exact inside⟩
  rw [answer, word, Undisturbed]
  exact MemSubsystem.dmaRdata_eq_iff rom s₀.mem (memAt rom s₀ ins) t ramRead

end MiniMac.Soc.SocTop
