/-
# System.ChipJobs -- jobs on the chip

On the chip the accelerator shares the RAM with the processor and the copy engine.
While these two leave the RAM to the stream engine, the path over the arbiter and the
memory's DMA port is a memory of latency two (`onRam`), and the jobs of a queue are
carried out over the RAM.  The processor may go on fetching and polling registers.
-/
import MiniMac.Soc.SoleClient
import MiniMac.System.JobQueue

namespace MiniMac.System

open MiniMac.Theory MiniMac.Bus MiniMac.Core MiniMac.Accel MiniMac.Soc
open MiniMac.Soc.SocTop (macDma macDmaAt ram)

set_option autoImplicit false

variable (rom : BitVec 10 → BitVec 32) (s₀ : SocTop.State) (ins : ℕ → SocTop.Inputs)

/-- What the accelerator sees. -/
def macAt (t : ℕ) : MacSubsystem.Inputs := SocTop.macInputs (SocTop.after rom s₀ ins t) (ins t)

/-- The accelerator on the chip runs as one on its own. -/
theorem after_mac (t : ℕ) :
    (SocTop.after rom s₀ ins t).mac = MacSubsystem.after s₀.mac (macAt rom s₀ ins) t :=
  Clocked.eq_run (x := fun u => (SocTop.after rom s₀ ins u).mac) rfl (fun _ => rfl) t

theorem dmaAt_eq : dmaAt s₀.mac (macAt rom s₀ ins) = macDma rom s₀ ins := by
  funext t
  rw [dmaAt, ← after_mac]
  rfl

theorem dmaInputsAt_eq : dmaInputsAt s₀.mac (macAt rom s₀ ins) = macDmaAt rom s₀ ins := by
  funext t
  rw [dmaInputsAt, ← after_mac]
  rfl

/-- While the stream engine is at work, the processor makes no memory access at its data
port and the copy engine asks for nothing. -/
def Exclusive : Prop :=
  ∀ t, (macDma rom s₀ ins t).state ≠ .idle →
    SocTop.Sole .stream (SocTop.after rom s₀ ins t) (ins t)

variable {rom s₀ ins} (exclusive : Exclusive rom s₀ ins)

include exclusive

/-- **The accelerator on the chip runs on the RAM**, a memory of latency two. -/
theorem onRam : OnMemory s₀.mac (macAt rom s₀ ins) 2
    (fun addr => MemSubsystem.inRam addr = true) MemSubsystem.ramIndex (ram rom s₀ ins) where
  served := by
    rw [dmaAt_eq, dmaInputsAt_eq]
    exact SocTop.stream_served rom s₀ ins
  granted := by
    intro t asks
    rw [dmaAt_eq] at asks
    have steady := (SocTop.stream_served rom s₀ ins).steady
    refine SocTop.sole_granted (c := .stream) (fun u low => exclusive u fun idle => ?_) asks
    -- an idle engine asks for nothing in the next cycle
    have up := (asks (u + 1) (by omega)).1
    rw [steady.next] at up
    cases start : (macDmaAt rom s₀ ins u).startI with
    | true => rw [AxiStreamDma.step_start (steady.noAbort u) idle start] at up; cases up
    | false => rw [AxiStreamDma.step_idle (steady.noAbort u) idle start] at up; cases up
  contents := by
    intro g taken inside
    rw [dmaAt_eq] at taken inside ⊢
    rw [dmaInputsAt_eq] at taken
    obtain ⟨working, again⟩ := (SocTop.stream_served rom s₀ ins).behind taken
    obtain ⟨granted, reads⟩ := Bool.and_eq_true_iff.mp taken
    exact SocTop.sole_rdata (c := .stream) granted ((Bool.not_eq_true' _).mp reads) inside
      (exclusive _ working) again
  prompt := by
    intro t working asks write inside
    rw [dmaAt_eq] at working asks write inside
    exact (exclusive t working).granted asks (fun _ => write) inside
  stores := by
    intro t working within
    have same : memWriteAt s₀.mac (macAt rom s₀ ins) t = SocTop.writeAt rom s₀ ins .stream t := by
      have asks : (macAt rom s₀ ins t).mGntI = true → (macDma rom s₀ ins t).mReqO = true :=
        (SocTop.stream_served rom s₀ ins).grants t
      have granted : (macAt rom s₀ ins t).mGntI = SocTop.gntAt rom s₀ ins .stream t := rfl
      rw [memWriteAt, dmaAt_eq, SocTop.writeAt, ← granted]
      cases grant : (macAt rom s₀ ins t).mGntI with
      | false => simp
      | true =>
          rw [asks grant]
          rfl
    rw [dmaAt_eq] at working
    rw [same] at within ⊢
    exact SocTop.sole_stores (exclusive t working) within

omit exclusive

/-! ## A processor that rests -/

/-- The bridge and the copy engine are idle, and no start is on its way to the latter. -/
structure PortIdle (s : SocTop.State) : Prop extends SocTop.BridgeIdle s where
  copyStart : s.dmaRegs.startO = false
  copy : s.dmaCore.state = .idle
  copyDown : s.dmaCore.reqO = false

theorem PortIdle.step {s : SocTop.State} {i : SocTop.Inputs} (idle : PortIdle s)
    (rests : i.cpuReq = false) : PortIdle (SocTop.step rom s i) := by
  have unwritten : DmaRegs.startWrite (SocTop.dmaRegsInputs s) = false := by
    simp [DmaRegs.startWrite, DmaRegs.writes, SocTop.dmaRegsInputs, idle.sPsel]
  have refused : DmaMaster.accepts s.dmaCore (SocTop.dmaCoreInputs s i) = false := by
    simp [DmaMaster.accepts, SocTop.dmaCoreInputs, idle.copyStart]
  obtain ⟨copy, down, -⟩ := DmaMaster.step_idle idle.copy refused
  refine ⟨idle.toBridgeIdle.step (by simp [SocTop.cpuIsPeriph, rests]), ?_, copy,
    down.trans idle.copyDown⟩
  exact (DmaRegs.step_startO _ _).trans unwritten

/-- Nothing is written to the accelerator then. -/
theorem PortIdle.unwritten {t : ℕ} (idle : PortIdle (SocTop.after rom s₀ ins t)) :
    MacCfgRegs.writes (regsInputsAt s₀.mac (macAt rom s₀ ins) t) = false := by
  have psel : (regsInputsAt s₀.mac (macAt rom s₀ ins) t).psel =
      (SocTop.sPsel (SocTop.after rom s₀ ins t)).getLsbD 1 := rfl
  rw [MacCfgRegs.writes, psel, idle.sPsel]
  rfl

theorem PortIdle.until {a t : ℕ} (idle : PortIdle (SocTop.after rom s₀ ins a)) (later : a ≤ t) :
    (∀ u, a ≤ u → u < t → (ins u).cpuReq = false) → PortIdle (SocTop.after rom s₀ ins t) := by
  induction t, later using Nat.le_induction with
  | base =>
      intro _
      exact idle
  | succ t later ih =>
      intro rests
      exact (ih fun u low high => rests u low (Nat.lt_succ_of_lt high)).step
        (rests t later (Nat.lt_succ_self t))

/-! ## Two jobs on the chip -/

/-- A start, and much later another one.  All other registers are as reset. -/
def chipWrites (t : ℕ) : SocTop.Inputs :=
  if t = 0 ∨ t = 100 then SocTop.cpuAccess true 0x40001000 1 else SocTop.cpuIdle

/-- The job that the registers ask for at reset. -/
def chipJob : JobConfig where
  wgtBase := 0x10000000
  actBase := 0x10001000
  resBase := 0x10002000
  wgtWords := 4
  actWords := 4
  m := 4
  n := 4

def chipStarts (k : ℕ) : ℕ := if k = 0 then 3 else 103

def chipMac : ℕ → MacSubsystem.Inputs := macAt (fun _ => 0) SocTop.powerUp chipWrites

theorem chip_rests (t : ℕ) (apart : ¬ (t = 0 ∨ t = 100)) : (chipWrites t).cpuReq = false := by
  rw [chipWrites, if_neg apart]
  rfl

/-- When the second start takes effect, the port has come to rest and the registers are those
of the first one. -/
theorem chip_second :
    let c := SocTop.after (fun _ => 0) SocTop.powerUp chipWrites 103
    (c.bridge.state = .idle ∧ c.bridge.psel = false ∧ c.bridge.penable = false ∧
      c.dmaRegs.startO = false ∧ c.dmaCore.state = .idle ∧ c.dmaCore.reqO = false) ∧
    c.mac.multicore.regs.wgtBaseO = 0x10000000 ∧ c.mac.multicore.regs.actBaseO = 0x10001000 ∧
      c.mac.multicore.regs.resBaseO = 0x10002000 ∧ c.mac.multicore.regs.dmaLenWgtO = 16 ∧
      c.mac.multicore.regs.dmaLenActO = 16 ∧ c.mac.multicore.regs.dimMO = 4 ∧
      c.mac.multicore.regs.dimNO = 4 ∧ c.mac.multicore.regs.coreEnO = 0b1111 := by
  decide +kernel

theorem chip_portIdle (t : ℕ) (quiet : 3 ≤ t ∧ t ≤ 100 ∨ 103 ≤ t) :
    PortIdle (SocTop.after (fun _ => 0) SocTop.powerUp chipWrites t) := by
  rcases quiet with ⟨later, upto⟩ | later
  · have first : PortIdle (SocTop.after (fun _ => 0) SocTop.powerUp chipWrites 3) :=
      ⟨⟨rfl, rfl, rfl⟩, rfl, rfl, rfl⟩
    exact first.until later fun u low high => chip_rests u (by omega)
  · obtain ⟨⟨bridge, unselected, disabled, copyStart, copy, copyDown⟩, -⟩ := chip_second
    have second : PortIdle (SocTop.after (fun _ => 0) SocTop.powerUp chipWrites 103) :=
      ⟨⟨bridge, unselected, disabled⟩, copyStart, copy, copyDown⟩
    exact second.until later fun u low high => chip_rests u (by omega)

/-- The first job has ended when the second start is written. -/
theorem chip_idle : ∀ t < 4,
    (dmaAt SocTop.powerUp.mac chipMac (100 + t)).state = .idle := by
  decide +kernel

theorem chip_exclusive : Exclusive (fun _ => 0) SocTop.powerUp chipWrites := by
  intro t working
  have same : dmaAt SocTop.powerUp.mac chipMac = macDma (fun _ => 0) SocTop.powerUp chipWrites :=
    dmaAt_eq _ _ _
  rw [← same] at working
  constructor
  · unfold chipWrites
    split
    · rfl
    · rfl
  · by_cases quiet : 3 ≤ t ∧ t ≤ 100 ∨ 103 ≤ t
    · exact (chip_portIdle t quiet).copyDown
    · obtain rfl | rfl | rfl | rfl | rfl : t = 0 ∨ t = 1 ∨ t = 2 ∨ t = 101 ∨ t = 102 := by omega
      · rfl
      · rfl
      · rfl
      · exact absurd (chip_idle 1 (by decide)) working
      · exact absurd (chip_idle 2 (by decide)) working

theorem chip_configured (t : ℕ) (quiet : 3 ≤ t ∧ t ≤ 100 ∨ 103 ≤ t) :
    Configured chipJob (regsAt SocTop.powerUp.mac chipMac t) := by
  rcases quiet with ⟨later, upto⟩ | later
  · have first : Configured chipJob (regsAt SocTop.powerUp.mac chipMac 3) :=
      ⟨rfl, rfl, rfl, rfl, rfl, rfl, rfl, rfl⟩
    exact first.until later fun u low high => (chip_portIdle u (by omega)).unwritten
  · obtain ⟨-, wgtBase, actBase, resBase, lenWgt, lenAct, dimM, dimN, mask⟩ := chip_second
    have regs : regsAt SocTop.powerUp.mac chipMac 103 =
        (SocTop.after (fun _ => 0) SocTop.powerUp chipWrites 103).mac.multicore.regs := by
      rw [after_mac]
      rfl
    have second : Configured chipJob (regsAt SocTop.powerUp.mac chipMac 103) := by
      rw [regs]
      exact ⟨wgtBase, actBase, resBase, lenWgt, lenAct, dimM, dimN, by rw [mask]; rfl⟩
    exact second.until later fun u low high => (chip_portIdle u (by omega)).unwritten

theorem chip_pulse : (regsAt SocTop.powerUp.mac chipMac 102).startO = false ∧
    (regsAt SocTop.powerUp.mac chipMac 103).startO = true := by
  decide +kernel

/-- The start pulse is up twice. -/
theorem chip_startO (t : ℕ) :
    (regsAt SocTop.powerUp.mac chipMac t).startO = decide (t = 3 ∨ t = 103) := by
  by_cases quiet : 3 < t ∧ t ≤ 101 ∨ 103 < t
  · obtain ⟨u, rfl⟩ : ∃ u, t = u + 1 := ⟨t - 1, by omega⟩
    have pulse : (regsAt SocTop.powerUp.mac chipMac (u + 1)).startO =
        MacCfgRegs.startsJob (regsInputsAt SocTop.powerUp.mac chipMac u) :=
      MacCfgRegs.step_startO _ _
    have unwritten : MacCfgRegs.writes (regsInputsAt SocTop.powerUp.mac chipMac u) = false :=
      (chip_portIdle u (by omega)).unwritten
    rw [pulse, MacCfgRegs.startsJob, unwritten, decide_eq_false (by omega)]
    rfl
  · obtain rfl | rfl | rfl | rfl | rfl | rfl :
      t = 0 ∨ t = 1 ∨ t = 2 ∨ t = 3 ∨ t = 102 ∨ t = 103 := by omega
    · rfl
    · rfl
    · rfl
    · rfl
    · exact chip_pulse.1
    · exact chip_pulse.2

theorem chip_schedule : Schedule (fun addr => MemSubsystem.inRam addr = true) SocTop.powerUp.mac
    chipMac 2 (fun _ => chipJob) chipStarts := by
  refine Schedule.pair (e := 100) (fun _ _ => ?_) chip_startO (show 3 < 100 by decide)
    (show 100 ≤ 103 by decide) (chip_idle 0 (by decide)) (fun k within => ?_)
    (fun t later upto => chip_configured t (.inl ⟨later, upto⟩))
    (fun t later => chip_configured t (.inr later))
  · exact ⟨by decide, by decide, by decide, by decide, by decide, by decide, by decide,
      by decide, by decide, by decide⟩
  · obtain rfl | rfl : k = 0 ∨ k = 1 := by omega
    · rfl
    · exact chip_idle 3 (by decide)

/-- **Every job of a queue on the chip comes to its end** over the RAM, while the processor
and the copy engine leave it to the stream engine; where there is room, with the sums of what
the buffers hold. -/
theorem chip_carried_out (rom : BitVec 10 → BitVec 32) (s₀ : SocTop.State)
    (ins : ℕ → SocTop.Inputs) (exclusive : Exclusive rom s₀ ins) {n : ℕ} {jobs : ℕ → JobConfig}
    {b : ℕ → ℕ} (schedule : Schedule (fun addr => MemSubsystem.inRam addr = true) s₀.mac
      (macAt rom s₀ ins) n jobs b) (k : ℕ) (within : k < n) :
    (Room s₀.mac (macAt rom s₀ ins) jobs b k → Settled s₀.mac (macAt rom s₀ ins) (b k)) ∧
      ∃ e, Completed MemSubsystem.ramIndex (ram rom s₀ ins) s₀.mac (macAt rom s₀ ins)
        (ledgerAt MemSubsystem.ramIndex (ram rom s₀ ins) jobs b k) (jobs k) (b k) e := by
  have queue : JobQueue 2 (fun addr => MemSubsystem.inRam addr = true) MemSubsystem.ramIndex
      (ram rom s₀ ins) s₀.mac (macAt rom s₀ ins) n jobs b := ⟨schedule, onRam exclusive⟩
  exact ⟨queue.settled within, (queue.run_of_rest within (queue.rest_at k within)).carried_out⟩

/-- The job of the registers as reset, for the second time on the 32 by 32 array of the chip. -/
theorem chip_carried_out_reset :
    ∃ e, 103 < e ∧ ram (fun _ => 0) SocTop.powerUp chipWrites e =
      ((ledgerAt MemSubsystem.ramIndex (ram (fun _ => 0) SocTop.powerUp chipWrites)
        (fun _ => chipJob) chipStarts 1).run MemSubsystem.ramIndex 32 32 chipJob).mem := by
  obtain ⟨settled, e, ended⟩ := chip_carried_out _ _ _ chip_exclusive chip_schedule 1 (by decide)
  refine ⟨e, ended.later, ended.mem (settled ?_)⟩
  exact ⟨103, show 3 < 103 by decide, chip_idle 3 (by decide), by decide⟩

end MiniMac.System
