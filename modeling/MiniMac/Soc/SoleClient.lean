/-
# Soc.SoleClient -- one engine alone at the RAM

With the processor off its data port and the other engine silent, an engine has the RAM
for itself: what it keeps asking for is granted, a write is granted at once, its reads are
undisturbed and the RAM takes its writes and no others.
-/
import MiniMac.Soc.StreamPort

namespace MiniMac.Soc.SocTop

open MiniMac.Theory MiniMac.Core MiniMac.Bus
open MiniMac.Core.DmaArbiter (Client)

set_option autoImplicit false

/-- The engine that `c` is not. -/
def rival : Client → Client
  | .stream => .copy
  | .copy => .stream

/-! ## One cycle -/

section Cycle

variable {s : State} {i : Inputs} {c : Client}

/-- The RAM lies in the range the decode passes on. -/
theorem dmaInMemory_of_inRam {addr : BitVec 32} (inside : MemSubsystem.inRam addr = true) :
    dmaInMemory addr = true := by
  have page : addr.extractLsb' 20 12 = 0x100#12 := eq_of_beq inside
  have top : addr.extractLsb' 28 4 = (addr.extractLsb' 20 12).extractLsb' 8 4 := by
    ext k bound
    simp [show 8 + k < 12 by omega]
    congr 1
    omega
  rw [dmaInMemory, top, page]
  decide

/-- In a cycle the engine has the RAM for itself. -/
structure Sole (c : Client) (s : State) (i : Inputs) : Prop where
  cpu : cpuIsMem i = false
  rival : (arbiterRequests s).req (rival c) = false

namespace Sole

variable (sole : Sole c s i)

include sole

theorem selected (asks : (arbiterRequests s).req c = true) :
    DmaArbiter.selected s.arbiter (arbiterRequests s) = c := by
  have silent := sole.rival
  cases c <;> simp only [SocTop.rival, DmaArbiter.Inputs.req] at asks silent <;>
    simp [DmaArbiter.selected, DmaArbiter.selectStream, DmaArbiter.client, asks, silent]

/-- What the port carries is the engine's. -/
theorem port (asks : (arbiterRequests s).req c = true) :
    (memInputs s i).dmaAddr = (arbiterRequests s).addr c ∧
      (memInputs s i).dmaWe = (arbiterRequests s).we c ∧
      (memInputs s i).dmaWdata = (arbiterRequests s).wdata c := by
  have carried := DmaArbiter.port_eq s.arbiter (arbiterRequests s)
  rw [sole.selected asks] at carried
  exact carried

/-- Memory is asked if the engine asks. -/
theorem asked (request : (memInputs s i).dmaReq = true) : (arbiterRequests s).req c = true := by
  have passed := DmaArbiter.selected_asks (Bool.and_eq_true_iff.mp request).1
  have silent := sole.rival
  cases who : DmaArbiter.selected s.arbiter (arbiterRequests s) <;> cases c <;>
    rw [who] at passed <;> first
      | exact passed
      | exact absurd (silent.symm.trans passed) Bool.false_ne_true

/-- What the arbiter passes on is granted. -/
theorem gnt_eq (asks : (arbiterRequests s).req c = true) :
    DmaArbiter.gnt s.arbiter (arbiterInputs s i) c = (memInputs s i).dmaReq := by
  have granted : (arbiterInputs s i).memGntI = (memInputs s i).dmaReq := by
    show dmaMGnt s i = _
    rw [dmaMGnt_eq, sole.cpu, Bool.not_false, Bool.and_true]
    rfl
  cases request : (memInputs s i).dmaReq with
  | false => exact DmaArbiter.gnt_of_refused (granted.trans request) c
  | true =>
      have passed : DmaArbiter.memReqO s.arbiter (arbiterInputs s i) = true :=
        (Bool.and_eq_true_iff.mp request).1
      exact (DmaArbiter.gnt_iff passed c).mpr ⟨granted.trans request, (sole.selected asks).symm⟩

/-- A request for the RAM is granted, a read if the arbiter has room for another. -/
theorem granted (asks : (arbiterRequests s).req c = true)
    (room : s.arbiter.readOwnerCountQ = 2 → (arbiterRequests s).we c = true)
    (inside : MemSubsystem.inRam ((arbiterRequests s).addr c) = true) :
    DmaArbiter.gnt s.arbiter (arbiterInputs s i) c = true := by
  obtain ⟨addr, write, -⟩ := sole.port asks
  have request : dmaMReq s = true := by
    have we : DmaArbiter.selectedWe s.arbiter (arbiterRequests s) = (arbiterRequests s).we c :=
      write
    have some : ((arbiterRequests s).streamReqI || (arbiterRequests s).copyReqI) = true := by
      cases c <;> simp only [DmaArbiter.Inputs.req] at asks <;> simp [asks]
    rw [dmaMReq, DmaArbiter.memReqO, we, some]
    by_cases full : s.arbiter.readOwnerCountQ = 2
    · simp [full, room full]
    · simpa using Or.inl full
  rw [sole.gnt_eq asks]
  have place : dmaMAddr s = (arbiterRequests s).addr c := addr
  show (dmaMReq s && dmaInMemory (dmaMAddr s)) = true
  rw [request, place, dmaInMemory_of_inRam inside]
  rfl

/-- No read is granted but the engine's. -/
theorem readGrant_none (refused : DmaArbiter.gnt s.arbiter (arbiterInputs s i) c = false) :
    DmaArbiter.readGrant s.arbiter (arbiterInputs s i) = none := by
  have silent : DmaArbiter.gnt s.arbiter (arbiterInputs s i) (SocTop.rival c) = false := by
    by_contra granted
    have asks := DmaArbiter.req_of_gnt (Bool.eq_true_of_not_eq_false granted)
    exact absurd (sole.rival.symm.trans asks) Bool.false_ne_true
  cases c <;> simp only [SocTop.rival] at silent <;> simp [DmaArbiter.readGrant, refused, silent]

end Sole

end Cycle

/-! ## A processor that rests -/

/-- The bridge has no access to make. -/
structure BridgeIdle (s : State) : Prop where
  bridge : s.bridge.state = .idle
  unselected : s.bridge.psel = false
  disabled : s.bridge.penable = false

namespace BridgeIdle

variable {s : State} (idle : BridgeIdle s)

include idle

theorem sPsel : SocTop.sPsel s = 0 := by
  simp [SocTop.sPsel, ApbBus.sPsel, idle.unselected]

theorem step {rom : BitVec 10 → BitVec 32} {i : Inputs} (quiet : cpuIsPeriph i = false) :
    BridgeIdle (SocTop.step rom s i) := by
  have bridge : (SocTop.step rom s i).bridge = { s.bridge with obiRvalid := false } :=
    ObiToApb.step_idle idle.bridge quiet
  refine ⟨?_, ?_, ?_⟩
  · rw [bridge]
    exact idle.bridge
  · rw [bridge]
    exact idle.unselected
  · rw [bridge]
    exact idle.disabled

end BridgeIdle

/-! ## The RAM over a run -/

section Runs

variable {rom : BitVec 10 → BitVec 32} {s₀ : State} {ins : ℕ → Inputs} {c : Client} {t : ℕ}

variable (rom s₀ ins) in
/-- The RAM of the chip. -/
def ram (t : ℕ) : BitVec 11 → BitVec 32 := (after rom s₀ ins t).mem.ram.mem

variable (rom s₀ ins) in
/-- What the engines ask for. -/
def requestsAt (t : ℕ) : DmaArbiter.Inputs := arbiterRequests (after rom s₀ ins t)

variable (rom s₀ ins) in
def gntAt (c : Client) (t : ℕ) : Bool :=
  DmaArbiter.gnt (after rom s₀ ins t).arbiter (arbiterAt rom s₀ ins t) c

variable (rom s₀ ins) in
/-- A write of the engine that is granted in the cycle. -/
def writeAt (c : Client) (t : ℕ) : Option (BitVec 32 × BitVec 32) :=
  if gntAt rom s₀ ins c t && (requestsAt rom s₀ ins t).we c then
    some ((requestsAt rom s₀ ins t).addr c, (requestsAt rom s₀ ins t).wdata c)
  else none

/-- **What an engine on its own keeps asking for is granted.** -/
theorem sole_granted (sole : ∀ u, t ≤ u → Sole c (after rom s₀ ins u) (ins u))
    (asks : ∀ u, t ≤ u → (requestsAt rom s₀ ins u).req c = true ∧
      MemSubsystem.inRam ((requestsAt rom s₀ ins u).addr c) = true) :
    ∃ u, t ≤ u ∧ gntAt rom s₀ ins c u = true := by
  by_contra none
  push Not at none
  -- with no read granted for the time of an answer the arbiter has room
  have empty := (fixedLatency rom s₀ ins).owners_nil (t := t) fun u low _ => by
    rw [← after_arbiter]
    exact (sole u low).readGrant_none (Bool.eq_false_of_not_eq_true (none u low))
  rw [← after_arbiter] at empty
  obtain ⟨up, inside⟩ := asks (t + 2) (by omega)
  refine none (t + 2) (by omega) ((sole (t + 2) (by omega)).granted up (fun full => ?_) inside)
  rw [DmaArbiter.owners_two full] at empty
  cases empty

/-- Memory sees the read of an engine. -/
theorem client_read (granted : gntAt rom s₀ ins c t = true)
    (reads : (requestsAt rom s₀ ins t).we c = false) :
    MemSubsystem.dmaReadGrant (memAt rom s₀ ins t) = true ∧
      (memAt rom s₀ ins t).dmaAddr = (requestsAt rom s₀ ins t).addr c := by
  have took : (arbiterAt rom s₀ ins t).memGntI = true := by
    by_contra refused
    have none := DmaArbiter.gnt_of_refused (s := (after rom s₀ ins t).arbiter)
      (Bool.eq_false_of_not_eq_true refused) c
    exact absurd (none.symm.trans granted) Bool.false_ne_true
  have select : c = DmaArbiter.selected (after rom s₀ ins t).arbiter (arbiterAt rom s₀ ins t) :=
    ((DmaArbiter.gnt_iff (dmaMReq_of_gnt took) c).mp granted).2
  obtain ⟨addr, write, -⟩ :=
    DmaArbiter.port_eq (after rom s₀ ins t).arbiter (arbiterAt rom s₀ ins t)
  rw [← select] at addr write
  refine ⟨?_, addr⟩
  have dmaWe : (memAt rom s₀ ins t).dmaWe = false := write.trans reads
  have dmaGnt : MemSubsystem.dmaGnt (memAt rom s₀ ins t) = true := took
  rw [MemSubsystem.dmaReadGrant, dmaGnt, dmaWe]
  rfl

/-- **A read of the RAM is answered with its word** if the engine has the RAM for itself in
the next cycle and asks for nothing but the same word. -/
theorem sole_rdata (granted : gntAt rom s₀ ins c t = true)
    (reads : (requestsAt rom s₀ ins t).we c = false)
    (inside : MemSubsystem.inRam ((requestsAt rom s₀ ins t).addr c) = true)
    (sole : Sole c (after rom s₀ ins (t + 1)) (ins (t + 1)))
    (again : (requestsAt rom s₀ ins (t + 1)).req c = true →
      (requestsAt rom s₀ ins (t + 1)).addr c = (requestsAt rom s₀ ins t).addr c) :
    dmaMRdata (after rom s₀ ins (t + 2)) =
      ram rom s₀ ins t (MemSubsystem.ramIndex ((requestsAt rom s₀ ins t).addr c)) := by
  obtain ⟨read, place⟩ := client_read granted reads
  have word := (MemSubsystem.dmaRdata_eq_iff rom s₀.mem (memAt rom s₀ ins) t
    ⟨read, by rw [place]; exact inside⟩).mpr ?_
  · rw [← after_mem, ← MemSubsystem.ram_mem_eq, ← after_mem, place] at word
    exact word
  · have cpu : (memAt rom s₀ ins (t + 1)).cpuReq = false := sole.cpu
    rcases MemSubsystem.access_cases (MemSubsystem.after rom s₀.mem (memAt rom s₀ ins) (t + 1))
        (memAt rom s₀ ins (t + 1)) with
      ⟨busy, -⟩ | ⟨k, -, asks, -⟩ | ⟨-, -, dma, -, access⟩ | ⟨-, -, -, idle, -⟩
    · rw [cpu] at busy
      cases busy
    · simp [memAt, memInputs] at asks
    · right
      have request : (memAt rom s₀ ins (t + 1)).dmaReq = true := by
        simp only [MemSubsystem.dmaGnt, Bool.and_eq_true] at dma
        exact dma.1.1
      have up := sole.asked request
      have addr : (memAt rom s₀ ins (t + 1)).dmaAddr = (requestsAt rom s₀ ins (t + 1)).addr c :=
        (sole.port up).1
      rw [access, place, addr, again up]
    · left
      rw [MemSubsystem.ramAccess, idle, Bool.and_false]

/-- With the DMA port alone at the memory the RAM takes its write and no other. -/
theorem grantedWrites_dma {s : MemSubsystem.State} {i : MemSubsystem.Inputs}
    (cpu : i.cpuReq = false) (mac : i.macReq = 0) :
    MemSubsystem.grantedWrites s i =
      if i.dmaReq && i.dmaWe && MemSubsystem.inRam i.dmaAddr then
        [Write.store (MemSubsystem.ramIndex i.dmaAddr) i.dmaWdata]
      else [] := by
  have none : MemSubsystem.macGntInt s i = 0 := by
    rcases MemSubsystem.macGntInt_cases s i cpu with ⟨k, asks, -⟩ | ⟨none, -⟩
    · simp [mac] at asks
    · exact none
  have word : MemSubsystem.ramWrite i.dmaAddr 0xF#4 i.dmaWdata =
      Write.store (MemSubsystem.ramIndex i.dmaAddr) i.dmaWdata :=
    congrArg (Write.mk _) (funext fun old => Macros.SramWrapper.writeLanes_full _ old)
  simp [MemSubsystem.grantedWrites, cpu, none, MemSubsystem.dmaGnt, mac, word, List.finRange_succ]

/-- **The RAM takes the writes of an engine on its own**, and no others. -/
theorem sole_stores (sole : Sole c (after rom s₀ ins t) (ins t))
    (within : ∀ w, writeAt rom s₀ ins c t = some w → MemSubsystem.inRam w.1 = true) :
    ram rom s₀ ins (t + 1) = replay (ram rom s₀ ins t)
      ((writeAt rom s₀ ins c t).map fun w =>
        Write.store (MemSubsystem.ramIndex w.1) w.2).toList := by
  have next : ram rom s₀ ins (t + 1) = replay (ram rom s₀ ins t)
      (MemSubsystem.grantedWrites (after rom s₀ ins t).mem (memAt rom s₀ ins t)) :=
    MemSubsystem.ram_step rom _ _
  have cpu : (memAt rom s₀ ins t).cpuReq = false := sole.cpu
  rw [next, grantedWrites_dma cpu rfl]
  congr 1
  cases request : (memAt rom s₀ ins t).dmaReq with
  | false =>
      have none : writeAt rom s₀ ins c t = none := by
        rw [writeAt, if_neg]
        intro written
        have granted := (Bool.and_eq_true_iff.mp written).1
        have asks : (arbiterAt rom s₀ ins t).req c = true := DmaArbiter.req_of_gnt granted
        have same : gntAt rom s₀ ins c t = (memAt rom s₀ ins t).dmaReq := sole.gnt_eq asks
        rw [same, request] at granted
        cases granted
      rw [none]
      rfl
  | true =>
      have asks := sole.asked request
      have granted : gntAt rom s₀ ins c t = true := (sole.gnt_eq asks).trans request
      obtain ⟨addr, write, data⟩ := sole.port asks
      have addr' : (memAt rom s₀ ins t).dmaAddr = (requestsAt rom s₀ ins t).addr c := addr
      have write' : (memAt rom s₀ ins t).dmaWe = (requestsAt rom s₀ ins t).we c := write
      have data' : (memAt rom s₀ ins t).dmaWdata = (requestsAt rom s₀ ins t).wdata c := data
      rw [addr', write', data']
      cases we : (requestsAt rom s₀ ins t).we c with
      | false => simp [writeAt, we]
      | true =>
          have written : writeAt rom s₀ ins c t = some ((requestsAt rom s₀ ins t).addr c,
              (requestsAt rom s₀ ins t).wdata c) := by
            simp [writeAt, granted, we]
          rw [written, within _ written]
          rfl

end Runs

end MiniMac.Soc.SocTop
