/-
# System.ChipCopy -- copies on the chip

Software writes addresses and length to the copy engine's registers, then a start, and
polls STATUS.  While the processor and the stream engine leave the RAM to the copy
engine, the start is carried out over the RAM (`copyOnRam`), and STATUS shows its end
when the last word is written, not before (`copy_carried_out`).
-/
import MiniMac.Core.CopyTransfer
import MiniMac.Core.DmaRegs
import MiniMac.Soc.CpuAccess
import MiniMac.Theory.StickyBit

namespace MiniMac.System

open MiniMac.Theory MiniMac.Bus MiniMac.Core MiniMac.Accel MiniMac.Soc
open MiniMac.Soc.SocTop (ram)

set_option autoImplicit false

variable (rom : BitVec 10 → BitVec 32) (s₀ : SocTop.State) (ins : ℕ → SocTop.Inputs)

/-- The copy engine over a run. -/
def copyDma (t : ℕ) : DmaMaster.State := (SocTop.after rom s₀ ins t).dmaCore

def copyDmaAt (t : ℕ) : DmaMaster.Inputs :=
  SocTop.dmaCoreInputs (SocTop.after rom s₀ ins t) (ins t)

/-- Its registers. -/
def copyRegs (t : ℕ) : DmaRegs.State := (SocTop.after rom s₀ ins t).dmaRegs

def copyRegsAt (t : ℕ) : DmaRegs.Inputs := SocTop.dmaRegsInputs (SocTop.after rom s₀ ins t)

theorem copyRegs_succ (t : ℕ) : copyRegs rom s₀ ins (t + 1) =
    DmaRegs.step (copyRegs rom s₀ ins t) (copyRegsAt rom s₀ ins t) := rfl

/-- **The copy engine is on a path of latency two.** -/
theorem copy_served : DmaMaster.Served 2 (copyDma rom s₀ ins) (copyDmaAt rom s₀ ins) where
  positive := Nat.two_pos
  next _ := rfl
  grants _ grant := DmaArbiter.req_of_gnt (c := .copy) grant
  answers := by
    have path := (SocTop.fixedLatency rom s₀ ins).client_path .copy
    simp only [← SocTop.after_arbiter] at path
    exact path
  idle := rfl
  down := rfl

/-- While the copy engine works on the start of cycle `s`, the processor makes no memory access
at its data port and the stream engine asks for nothing. -/
def CopyExclusive (s : ℕ) : Prop :=
  ∀ t, s < t → DmaMaster.Working (copyDma rom s₀ ins) s t →
    SocTop.Sole .copy (SocTop.after rom s₀ ins t) (ins t)

variable {rom s₀ ins}

/-- **The copy engine on the chip runs on the RAM**, a memory of latency two. -/
theorem copyOnRam {s : ℕ} (exclusive : CopyExclusive rom s₀ ins s) :
    DmaMaster.OnMemory 2 (fun addr => MemSubsystem.inRam addr = true) MemSubsystem.ramIndex
      (ram rom s₀ ins) (copyDma rom s₀ ins) (copyDmaAt rom s₀ ins) s where
  served := copy_served rom s₀ ins
  granted := by
    intro t later asks
    exact SocTop.sole_granted (c := .copy)
      (fun u low => exclusive u (by omega) (asks u low).1) fun u low => (asks u low).2
  contents := by
    intro g later working taken inside
    have served := copy_served rom s₀ ins
    obtain ⟨granted, reads⟩ := Bool.and_eq_true_iff.mp taken
    have waits := served.waits taken (Nat.lt_succ_self g) (by omega)
    refine SocTop.sole_rdata (c := .copy) granted ((Bool.not_eq_true' _).mp reads) inside
      (exclusive (g + 1) (by omega) working) fun up => ?_
    -- an engine that waits asks for nothing
    have low := (served.line (g + 1)).low (by simp [waits]) (by simp [waits])
    exact absurd (low.symm.trans up) Bool.false_ne_true
  stores := by
    intro t later working within
    have same : DmaMaster.writeTaken (copyDma rom s₀ ins t) (copyDmaAt rom s₀ ins t) =
        SocTop.writeAt rom s₀ ins .copy t := rfl
    rw [same] at within ⊢
    exact SocTop.sole_stores (exclusive t later working) within

/-! ## A copy, from the start write to STATUS -/

variable (rom s₀ ins) in
/-- In cycle `w` CTRL is written with the start bit, the registers ask for `x`, the places of
which are in the RAM, and the start meets an engine at rest. -/
structure CopyStart (x : DmaMaster.Transfer) (w : ℕ) : Prop where
  write : DmaRegs.startWrite (copyRegsAt rom s₀ ins w) = true
  src : (copyRegs rom s₀ ins w).srcAddrO = x.src
  dst : (copyRegs rom s₀ ins w).dstAddrO = x.dst
  length : (copyRegs rom s₀ ins w).lengthO = x.length
  aligned : DmaMaster.aligned x.src x.dst = true
  idle : (copyDma rom s₀ ins (w + 1)).state = .idle
  quiet : (copyDma rom s₀ ins (w + 1)).doneO = false
  inside : ∀ k < x.words, MemSubsystem.inRam (wordAddr x.src k) = true ∧
    MemSubsystem.inRam (wordAddr x.dst k) = true

/-- The engine accepts the start. -/
theorem CopyStart.accepted {x : DmaMaster.Transfer} {w : ℕ} (start : CopyStart rom s₀ ins x w) :
    DmaMaster.Accepted (fun addr => MemSubsystem.inRam addr = true) (copyDma rom s₀ ins)
      (copyDmaAt rom s₀ ins) x (w + 1) := by
  obtain ⟨src, dst, length⟩ := DmaRegs.step_of_startWrite (s := copyRegs rom s₀ ins w) start.write
  have src : (copyDmaAt rom s₀ ins (w + 1)).srcAddrI = x.src := src.trans start.src
  have dst : (copyDmaAt rom s₀ ins (w + 1)).dstAddrI = x.dst := dst.trans start.dst
  have started : (copyDmaAt rom s₀ ins (w + 1)).startI = true :=
    (DmaRegs.step_startO _ _).trans start.write
  exact {
    accepts := by simp [DmaMaster.accepts, start.idle, started, src, dst, start.aligned]
    src := src
    dst := dst
    length := length.trans start.length
    inside := start.inside }

variable (rom s₀ ins) in
/-- The done flag of STATUS remembers the engine's pulses. -/
theorem copy_sticky : StickyBit (fun t => (copyDma rom s₀ ins t).doneO)
    (fun t => DmaRegs.clearsDone (copyRegsAt rom s₀ ins t))
    fun t => (copyRegs rom s₀ ins t).doneSticky := by
  constructor
  intro t
  exact DmaRegs.step_doneSticky _ _

variable (rom s₀ ins) in
/-- The copy of the start write of cycle `w` is complete in cycle `d`: the engine has worked
since, the RAM is what the forward copy makes of it, and after the write the done flag, where
it is not cleared, is up from then on and was not before. -/
structure CopyComplete (x : DmaMaster.Transfer) (w d : ℕ) : Prop where
  later : w + 2 < d
  working : ∀ u, w + 2 ≤ u → u < d → (copyDma rom s₀ ins u).state ≠ .idle
  atRest : (copyDma rom s₀ ins d).state = .idle
  signalled : (copyDma rom s₀ ins d).doneO = true
  contents : ram rom s₀ ins d =
    x.copied MemSubsystem.ramIndex (ram rom s₀ ins (w + 2)) x.words
  flag : ∀ u, w < u →
    (∀ v, w < v → v < u → DmaRegs.clearsDone (copyRegsAt rom s₀ ins v) = false) →
    ((copyRegs rom s₀ ins u).doneSticky = true ↔ d < u)

/-- **A copy on the chip is carried out** over the RAM, and the done flag tells its end. -/
theorem copy_carried_out (rom : BitVec 10 → BitVec 32) (s₀ : SocTop.State)
    (ins : ℕ → SocTop.Inputs) {x : DmaMaster.Transfer} {w : ℕ}
    (start : CopyStart rom s₀ ins x w) (exclusive : CopyExclusive rom s₀ ins (w + 1)) :
    ∃ d, CopyComplete rom s₀ ins x w d := by
  obtain ⟨d, later, working, atRest, done, contents⟩ :=
    (copyOnRam exclusive).transfer start.accepted
  refine ⟨d + 1, by omega, ?_, atRest, done, contents, ?_⟩
  · intro u low high
    exact (working u (by omega) (by omega)).1
  · intro u after quiet
    obtain ⟨n, rfl⟩ : ∃ n, u = w + 1 + n := ⟨u - (w + 1), by omega⟩
    have sticky := copy_sticky rom s₀ ins
    have cleared : (copyRegs rom s₀ ins (w + 1)).doneSticky = false := by
      have next := sticky.next w
      rw [DmaRegs.clearsDone_of_startWrite start.write] at next
      exact next
    rw [sticky.up_iff fun v low high => quiet v (by omega) high, cleared]
    constructor
    · rintro (up | ⟨v, low, high, pulse⟩)
      · cases up
      · by_contra early
        rcases Nat.lt_or_ge (w + 1) v with during | first
        · rw [(working v (by omega) (by omega)).2] at pulse
          cases pulse
        · obtain rfl : v = w + 1 := by omega
          rw [start.quiet] at pulse
          cases pulse
    · intro ended
      exact .inr ⟨d + 1, by omega, ended, done⟩

/-! ## The stream engine at rest -/

/-- The stream engine is idle, and no start is on its way to it. -/
structure StreamRests (s : SocTop.State) : Prop where
  start : s.mac.multicore.regs.startO = false
  stream : s.mac.dma.state = .idle
  down : s.mac.dma.mReqO = false

theorem StreamRests.step {s : SocTop.State} {i : SocTop.Inputs} (rests : StreamRests s)
    (unwritten : MacCfgRegs.startsJob (MacMulticore.regsInputs s.mac.multicore
      (MacSubsystem.multicoreInputs s.mac (SocTop.macInputs s i))) = false) :
    StreamRests (SocTop.step rom s i) := by
  have engine : (SocTop.step rom s i).mac.dma = AxiStreamDma.defaults s.mac.dma :=
    AxiStreamDma.step_idle (i := MacSubsystem.dmaInputs s.mac (SocTop.macInputs s i)) rfl
      rests.stream rests.start
  refine ⟨?_, ?_, ?_⟩
  · exact (MacCfgRegs.step_startO _ _).trans unwritten
  · rw [engine]
    exact rests.stream
  · rw [engine]
    rfl

/-! ## Two words -/

/-- The addresses, the length and a start are written. -/
def copyWrites (t : ℕ) : SocTop.Inputs :=
  if t = 0 then SocTop.cpuAccess true 0x40000000 0x10000000
  else if t = 3 then SocTop.cpuAccess true 0x40000004 0x10000100
  else if t = 6 then SocTop.cpuAccess true 0x40000008 8
  else if t = 9 then SocTop.cpuAccess true 0x4000000C 1
  else SocTop.cpuIdle

/-- The bridge is idle as well. -/
structure PortsIdle (s : SocTop.State) : Prop extends SocTop.BridgeIdle s, StreamRests s

theorem PortsIdle.step {s : SocTop.State} {i : SocTop.Inputs} (idle : PortsIdle s)
    (rests : i.cpuReq = false) : PortsIdle (SocTop.step rom s i) where
  toBridgeIdle := idle.toBridgeIdle.step (by simp [SocTop.cpuIsPeriph, rests])
  toStreamRests := idle.toStreamRests.step (SocTop.mac_quiet (.inl idle.disabled))

theorem copyWrites_portsIdle (t : ℕ) :
    PortsIdle (SocTop.after (fun _ => 0) SocTop.powerUp copyWrites (t + 12)) := by
  induction t with
  | zero => exact ⟨⟨rfl, rfl, rfl⟩, ⟨rfl, rfl, rfl⟩⟩
  | succ t ih =>
      have rests : copyWrites (t + 12) = SocTop.cpuIdle := by
        rw [copyWrites, if_neg (by omega), if_neg (by omega), if_neg (by omega), if_neg (by omega)]
      exact ih.step (congrArg SocTop.Inputs.cpuReq rests)

theorem copyWrites_exclusive (s : ℕ) :
    CopyExclusive (fun _ => 0) SocTop.powerUp copyWrites s := by
  intro t _ _
  constructor
  · unfold copyWrites
    repeat' split
    all_goals rfl
  · match t with
    | 0 | 1 | 2 | 3 | 4 | 5 | 6 | 7 | 8 | 9 | 10 | 11 => rfl
    | t + 12 => exact (copyWrites_portsIdle t).down

/-- The words 0 and 1 to the words 64 and 65. -/
def twoWords : DmaMaster.Transfer := ⟨0x10000000, 0x10000100, 8⟩

theorem copyWrites_start :
    CopyStart (fun _ => 0) SocTop.powerUp copyWrites twoWords 11 where
  write := by decide
  src := rfl
  dst := rfl
  length := rfl
  aligned := by decide
  idle := rfl
  quiet := rfl
  inside := by decide

theorem copy_carried_out_two :
    ∃ d, CopyComplete (fun _ => 0) SocTop.powerUp copyWrites twoWords 11 d :=
  copy_carried_out _ _ _ copyWrites_start (copyWrites_exclusive 12)

end MiniMac.System
