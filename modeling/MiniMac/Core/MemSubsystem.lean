/-
# Core.MemSubsystem -- boot ROM, data RAM and their arbiter

Four requesters share one RAM port: the CPU has priority, the four MAC masters
rotate behind it, and the DMA port is served when neither asks.  Instruction
fetches have a response slot of their own.  The grant logic and the one-hot
access mux are separate encodings of one priority; `access_cases` says once what
they agree on, and everything else is derived from it.

`rom` is the firmware image the boot ROM holds.
-/
import MiniMac.Macros.SramWrapper
import Mathlib.Tactic.FinCases
import Mathlib.Data.Fintype.Basic

namespace MiniMac.Core.MemSubsystem

open MiniMac.Theory MiniMac.Macros

set_option autoImplicit false

structure Inputs where
  instrReq : Bool
  instrAddr : BitVec 32
  cpuReq : Bool
  cpuAddr : BitVec 32
  cpuWe : Bool
  cpuBe : BitVec 4
  cpuWdata : BitVec 32
  dmaReq : Bool
  dmaAddr : BitVec 32
  dmaWe : Bool
  dmaWdata : BitVec 32
  macReq : BitVec 4
  macAddr : Fin 4 → BitVec 32
  macWe : BitVec 4
  macWdata : Fin 4 → BitVec 32

structure State where
  instrRvalid : Bool
  instrPending : Bool
  instrAddrQ : BitVec 32
  instrDataQ : BitVec 32
  macRr : BitVec 2
  ram : SramWrapper.State 11
  cpuRvalid : Bool
  dmaRvalid : Bool
  dmaReadPending : Bool
  macRvalid : BitVec 4

/-! ## Grants -/

def instrGnt (s : State) (i : Inputs) : Bool := i.instrReq && !s.instrPending

/-- One arm of the round-robin: the first requesting master of the list. -/
def firstRequest (macReq : BitVec 4) : List (Fin 4) → BitVec 4
  | [] => 0
  | k :: rest => if macReq.getLsbD k then BitVec.twoPow 4 k else firstRequest macReq rest

def macGntInt (s : State) (i : Inputs) : BitVec 4 :=
  if i.cpuReq then 0
  else
    match s.macRr with
    | 0 => firstRequest i.macReq [0, 1, 2, 3]
    | 1 => firstRequest i.macReq [1, 2, 3, 0]
    | 2 => firstRequest i.macReq [2, 3, 0, 1]
    | _ => firstRequest i.macReq [3, 0, 1, 2]

def dmaGnt (i : Inputs) : Bool := i.dmaReq && !i.cpuReq && !(i.macReq != 0)

/-! ## The access mux -/

/-- Bit 0 is the CPU, bits 1 to 4 the MAC masters, bit 5 the DMA port. -/
def arbOnehot (s : State) (i : Inputs) : BitVec 6 :=
  if i.cpuReq then BitVec.twoPow 6 0
  else if (macGntInt s i).getLsbD 0 then BitVec.twoPow 6 1
  else if (macGntInt s i).getLsbD 1 then BitVec.twoPow 6 2
  else if (macGntInt s i).getLsbD 2 then BitVec.twoPow 6 3
  else if (macGntInt s i).getLsbD 3 then BitVec.twoPow 6 4
  else if i.dmaReq then BitVec.twoPow 6 5
  else 0

def arbReq (s : State) (i : Inputs) : Bool := arbOnehot s i != 0

structure Access where
  addr : BitVec 32
  we : Bool
  be : BitVec 4
  wdata : BitVec 32

def macAccess (i : Inputs) (k : Fin 4) : Access :=
  ⟨i.macAddr k, i.macWe.getLsbD k, 0xF, i.macWdata k⟩

def arb (s : State) (i : Inputs) : Access :=
  if (arbOnehot s i).getLsbD 0 then ⟨i.cpuAddr, i.cpuWe, i.cpuBe, i.cpuWdata⟩
  else if (arbOnehot s i).getLsbD 1 then macAccess i 0
  else if (arbOnehot s i).getLsbD 2 then macAccess i 1
  else if (arbOnehot s i).getLsbD 3 then macAccess i 2
  else if (arbOnehot s i).getLsbD 4 then macAccess i 3
  else if (arbOnehot s i).getLsbD 5 then ⟨i.dmaAddr, i.dmaWe, 0xF, i.dmaWdata⟩
  else ⟨0, false, 0, 0⟩

/-- The decode `address[31:20] == 12'h100`. -/
def inRam (addr : BitVec 32) : Bool := addr.extractLsb' 20 12 == 0x100#12

/-- The word index `address[12:2]`. -/
def ramIndex (addr : BitVec 32) : BitVec 11 := addr.extractLsb' 2 11

/-- The word index `address[11:2]`. -/
def romIndex (addr : BitVec 32) : BitVec 10 := addr.extractLsb' 2 10

def selRom (s : State) (i : Inputs) : Bool :=
  i.instrReq || (arb s i).addr.extractLsb' 12 20 == 0#20

def selRam (s : State) (i : Inputs) : Bool := inRam (arb s i).addr

def romRdata (rom : BitVec 10 → BitVec 32) (s : State) (i : Inputs) : BitVec 32 :=
  rom (if s.instrPending then romIndex s.instrAddrQ
    else if i.instrReq then romIndex i.instrAddr
    else romIndex (arb s i).addr)

def ramInputs (s : State) (i : Inputs) : SramWrapper.Inputs 11 where
  sramCen := !(selRam s i && arbReq s i)
  sramWen := !(arb s i).we
  sramAddr := ramIndex (arb s i).addr
  sramWmask := (arb s i).be
  sramDin := (arb s i).wdata

/-! ## Responses and registers -/

def instrRdata (s : State) : BitVec 32 := s.instrDataQ

/-- The shared response mux, selected by the request of the response cycle. -/
def arbRdata (s : State) (i : Inputs) : BitVec 32 :=
  if selRom s i then instrRdata s else s.ram.sramDout

def cpuRdata (s : State) (i : Inputs) : BitVec 32 := arbRdata s i

def dmaRdata (s : State) : BitVec 32 := s.ram.sramDout

def macRdata (s : State) (_ : Fin 4) : BitVec 32 := s.ram.sramDout

/-- Reset leaves the RAM and its output register as they are. -/
def reset (s : State) : State where
  instrRvalid := false
  instrPending := false
  instrAddrQ := 0
  instrDataQ := 0
  macRr := 0
  ram := s.ram
  cpuRvalid := false
  dmaRvalid := false
  dmaReadPending := false
  macRvalid := 0

def step (rom : BitVec 10 → BitVec 32) (s : State) (i : Inputs) : State where
  instrRvalid := s.instrPending
  instrPending := if instrGnt s i then true else if s.instrPending then false else s.instrPending
  instrAddrQ := if instrGnt s i then i.instrAddr else s.instrAddrQ
  instrDataQ := if instrGnt s i then romRdata rom s i else s.instrDataQ
  macRr := if macGntInt s i != 0 then s.macRr + 1 else s.macRr
  ram := SramWrapper.step s.ram (ramInputs s i)
  cpuRvalid := i.cpuReq
  dmaRvalid := s.dmaReadPending
  dmaReadPending :=
    if dmaGnt i && !i.dmaWe then true
    else if s.dmaReadPending then false else s.dmaReadPending
  macRvalid := macGntInt s i

/-! ## What the arbiter does in a cycle -/

theorem macGntInt_of_cpuReq (s : State) (i : Inputs) (busy : i.cpuReq = true) :
    macGntInt s i = 0 := by
  simp [macGntInt, busy]

theorem firstRequest_cases (macReq : BitVec 4) (order : List (Fin 4)) :
    (∃ k : Fin 4, macReq.getLsbD k = true ∧ firstRequest macReq order = BitVec.twoPow 4 k) ∨
      (firstRequest macReq order = 0 ∧ ∀ k ∈ order, macReq.getLsbD k = false) := by
  induction order with
  | nil => exact .inr ⟨rfl, by simp⟩
  | cons k rest ih =>
      by_cases asks : macReq.getLsbD k = true
      · exact .inl ⟨k, asks, by rw [firstRequest, if_pos asks]⟩
      · rw [firstRequest, if_neg asks]
        rcases ih with granted | ⟨none, idle⟩
        · exact .inl granted
        · refine .inr ⟨none, ?_⟩
          intro k' member
          rcases List.mem_cons.mp member with rfl | later
          · simpa using asks
          · exact idle k' later

/-- The MAC grant is one requesting master, or none because no master asks. -/
theorem macGntInt_cases (s : State) (i : Inputs) (idle : i.cpuReq = false) :
    (∃ k : Fin 4, i.macReq.getLsbD k = true ∧ macGntInt s i = BitVec.twoPow 4 k) ∨
      (macGntInt s i = 0 ∧ i.macReq = 0) := by
  have zero (order : List (Fin 4)) (all : ∀ k, k ∈ order)
      (none : ∀ k ∈ order, i.macReq.getLsbD k = false) : i.macReq = 0 := by
    apply BitVec.eq_of_getLsbD_eq
    intro k bound
    simpa using none ⟨k, bound⟩ (all _)
  have arm (order : List (Fin 4)) (all : ∀ k, k ∈ order) :=
    (firstRequest_cases i.macReq order).imp id (And.imp id (zero order all))
  simp only [macGntInt, idle, Bool.false_eq_true, if_false]
  split <;> exact arm _ (by decide)

/-- A one-hot selection requests the RAM port. -/
theorem arbReq_of_onehot {s : State} {i : Inputs} (m : Fin 6)
    (onehot : arbOnehot s i = BitVec.twoPow 6 m) : arbReq s i = true := by
  have set : ∀ m : Fin 6, (BitVec.twoPow 6 m != 0) = true := by decide
  rw [arbReq, onehot, set m]

section Access

variable {s : State} {i : Inputs}

theorem arb_of_cpu (cpu : i.cpuReq = true) :
    arbReq s i = true ∧ arb s i = ⟨i.cpuAddr, i.cpuWe, i.cpuBe, i.cpuWdata⟩ := by
  have onehot : arbOnehot s i = BitVec.twoPow 6 0 := by simp [arbOnehot, cpu]
  exact ⟨arbReq_of_onehot 0 onehot, by simp [arb, onehot]⟩

theorem arb_of_mac (cpu : i.cpuReq = false) (k : Fin 4)
    (granted : macGntInt s i = BitVec.twoPow 4 k) :
    arbReq s i = true ∧ arb s i = macAccess i k := by
  have onehot : arbOnehot s i = BitVec.twoPow 6 k.succ := by
    fin_cases k <;> simp [arbOnehot, cpu, granted]
  refine ⟨arbReq_of_onehot k.succ.castSucc onehot, ?_⟩
  fin_cases k <;> simp [arb, onehot]

theorem arb_of_dma (cpu : i.cpuReq = false) (none : macGntInt s i = 0) (dma : i.dmaReq = true) :
    arbReq s i = true ∧ arb s i = ⟨i.dmaAddr, i.dmaWe, 0xF, i.dmaWdata⟩ := by
  have onehot : arbOnehot s i = BitVec.twoPow 6 5 := by simp [arbOnehot, cpu, none, dma]
  exact ⟨arbReq_of_onehot 5 onehot, by simp [arb, onehot]⟩

theorem arb_of_none (cpu : i.cpuReq = false) (none : macGntInt s i = 0) (dma : i.dmaReq = false) :
    arbReq s i = false ∧ arb s i = ⟨0, false, 0, 0⟩ := by
  have onehot : arbOnehot s i = 0 := by simp [arbOnehot, cpu, none, dma]
  exact ⟨by simp [arbReq, onehot], by simp [arb, onehot]⟩

end Access

/-- **What the arbiter does in a cycle.**  One master has the RAM port and the mux
carries its access, or nobody asks. -/
theorem access_cases (s : State) (i : Inputs) :
    (i.cpuReq = true ∧ macGntInt s i = 0 ∧ dmaGnt i = false ∧ arbReq s i = true ∧
      arb s i = ⟨i.cpuAddr, i.cpuWe, i.cpuBe, i.cpuWdata⟩) ∨
    (∃ k : Fin 4, i.cpuReq = false ∧ i.macReq.getLsbD k = true ∧
      macGntInt s i = BitVec.twoPow 4 k ∧ dmaGnt i = false ∧ arbReq s i = true ∧
      arb s i = macAccess i k) ∨
    (i.cpuReq = false ∧ macGntInt s i = 0 ∧ dmaGnt i = true ∧ arbReq s i = true ∧
      arb s i = ⟨i.dmaAddr, i.dmaWe, 0xF, i.dmaWdata⟩) ∨
    (i.cpuReq = false ∧ macGntInt s i = 0 ∧ dmaGnt i = false ∧ arbReq s i = false ∧
      arb s i = ⟨0, false, 0, 0⟩) := by
  cases cpu : i.cpuReq with
  | true =>
      exact .inl ⟨rfl, macGntInt_of_cpuReq s i cpu, by simp [dmaGnt, cpu], arb_of_cpu cpu⟩
  | false =>
      rcases macGntInt_cases s i cpu with ⟨k, asks, granted⟩ | ⟨none, idle⟩
      · have busy : i.macReq ≠ 0 := by
          rintro zero
          rw [zero] at asks
          simp at asks
        refine .inr (.inl ⟨k, rfl, asks, granted, ?_, arb_of_mac cpu k granted⟩)
        simpa [dmaGnt] using fun _ _ => busy
      · cases dma : i.dmaReq with
        | true =>
            exact .inr (.inr (.inl ⟨rfl, none, by simp [dmaGnt, cpu, idle, dma],
              arb_of_dma cpu none dma⟩))
        | false =>
            exact .inr (.inr (.inr ⟨rfl, none, by simp [dmaGnt, dma], arb_of_none cpu none dma⟩))

end MiniMac.Core.MemSubsystem
