/-
# Core.ReadResponses -- when a read is answered with the word it asked for

The RAM presents a word in the cycle after its access.  The CPU's `rvalid`
comes in that cycle, but its data passes a mux that looks at the request of the
response cycle; the DMA's `rvalid` comes a cycle later, when the RAM output may
already hold the next access.  Both theorems here are exact: they say for which
response cycles the data is the word of the request.
-/
import MiniMac.Core.RamPort

namespace MiniMac.Core.MemSubsystem

open MiniMac.Theory MiniMac.Macros

set_option autoImplicit false

/-! ## The instruction slot

The response slot is busy for the one cycle after a grant, so the grants and
the captured word are functions of the fetch requests alone. -/

/-- Fetch grants, from the requests alone. -/
def fetchGranted (ins : ℕ → Inputs) : ℕ → Bool
  | 0 => (ins 0).instrReq
  | t + 1 => (ins (t + 1)).instrReq && !fetchGranted ins t

/-- The ROM word of the last fetch granted before cycle `t`, zero before the first. -/
def lastFetched (rom : BitVec 10 → BitVec 32) (ins : ℕ → Inputs) : ℕ → BitVec 32
  | 0 => 0
  | t + 1 => if fetchGranted ins t then rom (romIndex (ins t).instrAddr) else lastFetched rom ins t

variable (rom : BitVec 10 → BitVec 32) (s₀ : State) (ins : ℕ → Inputs)

theorem instrPending_step (s : State) (i : Inputs) :
    (step rom s i).instrPending = instrGnt s i := by
  cases gnt : instrGnt s i <;> cases pending : s.instrPending <;> simp [step, gnt, pending]

theorem instrGnt_eq (t : ℕ) : instrGnt (after rom s₀ ins t) (ins t) = fetchGranted ins t := by
  induction t with
  | zero => simp [instrGnt, after, reset, fetchGranted]
  | succ t ih => rw [instrGnt, after_succ, instrPending_step, ih, fetchGranted]

theorem instrDataQ_eq (t : ℕ) : (after rom s₀ ins t).instrDataQ = lastFetched rom ins t := by
  induction t with
  | zero => rfl
  | succ t ih =>
      have granted := instrGnt_eq rom s₀ ins t
      rw [after_succ, lastFetched]
      simp only [step, granted, ih]
      cases fetch : fetchGranted ins t with
      | false => simp
      | true =>
          rw [fetch] at granted
          have free : (ins t).instrReq = true ∧ (after rom s₀ ins t).instrPending = false := by
            simpa [instrGnt] using granted
          simp [romRdata, free]

/-! ## CPU loads -/

/-- A CPU read of the RAM window. -/
def CpuRamLoad (i : Inputs) : Prop :=
  i.cpuReq = true ∧ i.cpuWe = false ∧ inRam i.cpuAddr = true

theorem sramDout_of_cpuRamLoad (t : ℕ) (load : CpuRamLoad (ins t)) :
    (after rom s₀ ins (t + 1)).ram.sramDout =
      ramAt rom s₀ ins t (ramIndex (ins t).cpuAddr) := by
  have access := (arb_of_cpu (s := after rom s₀ ins t) load.1).2
  have inside : ramAccess (after rom s₀ ins t) (ins t) = true := by
    rw [ramAccess_eq_selRam, selRam, access]
    exact load.2.2
  rw [after_succ, sramDout_of_access rom _ _ inside, ram_mem_eq, access]

/-- The load of cycle `t` is answered in the next cycle with the word it addressed. -/
def CpuLoadAnswered (t : ℕ) : Prop :=
  (after rom s₀ ins (t + 1)).cpuRvalid = true ∧
    cpuRdata (after rom s₀ ins (t + 1)) (ins (t + 1)) =
      ramAt rom s₀ ins t (ramIndex (ins t).cpuAddr)

/-- **A CPU load is answered correctly exactly when the response cycle does not
select the ROM**: no fetch request then, and a request on the RAM port whose
address is outside the ROM page -- or the last fetched instruction happens to be
the word the load asked for. -/
theorem cpu_load_correct_iff (t : ℕ) (load : CpuRamLoad (ins t)) :
    CpuLoadAnswered rom s₀ ins t ↔
      selRom (after rom s₀ ins (t + 1)) (ins (t + 1)) = false ∨
        lastFetched rom ins (t + 1) = ramAt rom s₀ ins t (ramIndex (ins t).cpuAddr) := by
  have valid : (after rom s₀ ins (t + 1)).cpuRvalid = true := load.1
  have word := sramDout_of_cpuRamLoad rom s₀ ins t load
  simp only [CpuLoadAnswered, valid, true_and, cpuRdata, arbRdata, instrRdata, instrDataQ_eq, word]
  cases selRom (after rom s₀ ins (t + 1)) (ins (t + 1)) <;> simp

/-- A cycle in which nobody asks. -/
def quiet : Inputs where
  instrReq := false
  instrAddr := 0
  cpuReq := false
  cpuAddr := 0
  cpuWe := false
  cpuBe := 0
  cpuWdata := 0
  dmaReq := false
  dmaAddr := 0
  dmaWe := false
  dmaWdata := 0
  macReq := 0
  macAddr := fun _ => 0
  macWe := 0
  macWdata := fun _ => 0

def cpuLoad (addr : BitVec 32) : Inputs := { quiet with cpuReq := true, cpuAddr := addr }

def dmaRead (addr : BitVec 32) : Inputs := { quiet with dmaReq := true, dmaAddr := addr }

/-- A state whose RAM words are one more than their index. -/
def numbered : State where
  instrRvalid := false
  instrPending := false
  instrAddrQ := 0
  instrDataQ := 0
  macRr := 0
  ram := ⟨fun a => a.setWidth 32 + 1, 0⟩
  cpuRvalid := false
  dmaRvalid := false
  dmaReadPending := false
  macRvalid := 0

/-- Two loads in consecutive cycles: the first is answered with its word. -/
theorem cpu_load_correct_back_to_back :
    CpuLoadAnswered (fun _ => 0) numbered (fun _ => cpuLoad 0x10000004) 0 :=
  (cpu_load_correct_iff (fun _ => 0) numbered (fun _ => cpuLoad 0x10000004) 0
    ⟨rfl, rfl, rfl⟩).mpr (.inl (by decide))

/-- A load followed by an idle cycle is answered with the instruction register:
an idle port drives address zero, which decodes as ROM. -/
theorem cpu_load_then_idle :
    ¬ ∀ (rom : BitVec 10 → BitVec 32) (s₀ : State) (ins : ℕ → Inputs) (t : ℕ),
      CpuRamLoad (ins t) → CpuLoadAnswered rom s₀ ins t := by
  intro claim
  have answered := claim (fun _ => 0) numbered
    (fun t => if t = 0 then cpuLoad 0x10000000 else quiet) 0 ⟨rfl, rfl, rfl⟩
  exact absurd answered.2 (by decide)

/-! ## DMA reads -/

/-- A DMA read with its grant. -/
def dmaReadGrant (i : Inputs) : Bool := dmaGnt i && !i.dmaWe

/-- A granted DMA read of the RAM window. -/
def DmaRamRead (i : Inputs) : Prop := dmaReadGrant i = true ∧ inRam i.dmaAddr = true

theorem dmaReadPending_step (s : State) (i : Inputs) :
    (step rom s i).dmaReadPending = dmaReadGrant i := by
  have : (dmaGnt i && !i.dmaWe) = dmaReadGrant i := rfl
  cases read : dmaReadGrant i <;> cases pending : s.dmaReadPending <;>
    simp [step, this, read, pending]

theorem dmaRvalid_eq (t : ℕ) : (after rom s₀ ins (t + 2)).dmaRvalid = dmaReadGrant (ins t) := by
  rw [after_succ]
  exact dmaReadPending_step rom _ _

theorem arb_of_dmaGnt (s : State) (i : Inputs) (granted : dmaGnt i = true) :
    arb s i = ⟨i.dmaAddr, i.dmaWe, 0xF, i.dmaWdata⟩ := by
  rcases access_cases s i with ⟨-, -, refused, -⟩ | ⟨k, -, -, -, refused, -⟩ |
    ⟨-, -, -, -, access⟩ | ⟨-, -, refused, -⟩
  · simp [granted] at refused
  · simp [granted] at refused
  · exact access
  · simp [granted] at refused

/-- In the cycle after a granted read the RAM still holds what it held, and its
output is the word read. -/
theorem ram_of_dmaRamRead (t : ℕ) (read : DmaRamRead (ins t)) :
    ramAt rom s₀ ins (t + 1) = ramAt rom s₀ ins t ∧
      (after rom s₀ ins (t + 1)).ram.sramDout =
        ramAt rom s₀ ins t (ramIndex (ins t).dmaAddr) := by
  obtain ⟨granted, isRead⟩ : dmaGnt (ins t) = true ∧ (ins t).dmaWe = false := by
    simpa [dmaReadGrant] using read.1
  have access := arb_of_dmaGnt (after rom s₀ ins t) (ins t) granted
  have inside : ramAccess (after rom s₀ ins t) (ins t) = true := by
    rw [ramAccess_eq_selRam, selRam, access]
    exact read.2
  have silent : grantedWrites (after rom s₀ ins t) (ins t) = [] := by
    rw [grantedWrites_eq, access]
    simp [Access.writes, isRead]
  refine ⟨?_, ?_⟩
  · rw [ramAt, writesBefore, silent, List.append_nil, ramAt]
  · rw [after_succ, sramDout_of_access rom _ _ inside, ram_mem_eq, access]

/-- The cycles before `T` in which a DMA read is granted. -/
def readGrantCycles (T : ℕ) : List ℕ :=
  Clocked.window (fun t => if dmaReadGrant (ins t) then some t else none) 0 T

/-- The cycles before `T` in which the DMA port presents a response. -/
def responseCycles (T : ℕ) : List ℕ :=
  Clocked.window (fun t => if (after rom s₀ ins t).dmaRvalid then some t else none) 0 T

/-- Every granted read has one response, two cycles after its grant, and there
are no others; so responses come in grant order. -/
theorem responseCycles_eq (T : ℕ) :
    responseCycles rom s₀ ins (T + 2) = (readGrantCycles ins T).map (· + 2) := by
  induction T with
  | zero =>
      have first : (after rom s₀ ins 0).dmaRvalid = false := rfl
      have second : (after rom s₀ ins 1).dmaRvalid = false := rfl
      simp [responseCycles, readGrantCycles, Clocked.window_succ, first, second]
  | succ T ih =>
      have next := dmaRvalid_eq rom s₀ ins T
      rw [responseCycles] at ih ⊢
      rw [show T + 1 + 2 = (T + 2) + 1 by omega, Clocked.window_succ, ih, readGrantCycles,
        readGrantCycles, Clocked.window_succ, List.map_append]
      simp only [Nat.zero_add, next]
      cases dmaReadGrant (ins T) <;> rfl

/-- In the cycle after a read the RAM port is idle or elsewhere, or the word it accesses
then has the value of the word read. -/
def Undisturbed (t : ℕ) : Prop :=
  ramAccess (after rom s₀ ins (t + 1)) (ins (t + 1)) = false ∨
    ramAt rom s₀ ins t (ramIndex (arb (after rom s₀ ins (t + 1)) (ins (t + 1))).addr) =
      ramAt rom s₀ ins t (ramIndex (ins t).dmaAddr)

/-- The response to a read carries the word read exactly when it is undisturbed. -/
theorem dmaRdata_eq_iff (t : ℕ) (read : DmaRamRead (ins t)) :
    dmaRdata (after rom s₀ ins (t + 2)) = ramAt rom s₀ ins t (ramIndex (ins t).dmaAddr) ↔
      Undisturbed rom s₀ ins t := by
  obtain ⟨held, word⟩ := ram_of_dmaRamRead rom s₀ ins t read
  rw [Undisturbed, dmaRdata, show t + 2 = (t + 1) + 1 from rfl, after_succ]
  cases access : ramAccess (after rom s₀ ins (t + 1)) (ins (t + 1)) with
  | false => simp [sramDout_of_no_access rom _ _ access, word]
  | true => simp [sramDout_of_access rom _ _ access, ram_mem_eq, held]

/-- Every granted read of the RAM is answered, once and in grant order, with the
word it addressed. -/
def DmaReadsAnswered : Prop :=
  (∀ T, responseCycles rom s₀ ins (T + 2) = (readGrantCycles ins T).map (· + 2)) ∧
    ∀ t, DmaRamRead (ins t) →
      (after rom s₀ ins (t + 2)).dmaRvalid = true ∧
        dmaRdata (after rom s₀ ins (t + 2)) = ramAt rom s₀ ins t (ramIndex (ins t).dmaAddr)

/-- **The DMA read path is correct exactly when no read is followed at once by an
access of another RAM word**: in the cycle after each granted read the RAM port is
idle or elsewhere, or the word it accesses then has the value of the word read. -/
theorem dma_reads_correct_iff :
    DmaReadsAnswered rom s₀ ins ↔
      ∀ t, DmaRamRead (ins t) →
        ramAccess (after rom s₀ ins (t + 1)) (ins (t + 1)) = false ∨
          ramAt rom s₀ ins t (ramIndex (arb (after rom s₀ ins (t + 1)) (ins (t + 1))).addr) =
            ramAt rom s₀ ins t (ramIndex (ins t).dmaAddr) := by
  constructor
  · intro answered t read
    exact (dmaRdata_eq_iff rom s₀ ins t read).mp (answered.2 t read).2
  · intro quiet
    refine ⟨responseCycles_eq rom s₀ ins, ?_⟩
    intro t read
    refine ⟨?_, (dmaRdata_eq_iff rom s₀ ins t read).mpr (quiet t read)⟩
    rw [dmaRvalid_eq]
    exact read.1

/-- Two DMA reads in consecutive cycles: the first response carries the second word. -/
theorem dma_read_back_to_back :
    ¬ ∀ (rom : BitVec 10 → BitVec 32) (s₀ : State) (ins : ℕ → Inputs),
      DmaReadsAnswered rom s₀ ins := by
  intro claim
  have answered := (claim (fun _ => 0) numbered
    (fun t => if t = 0 then dmaRead 0x10000000 else dmaRead 0x10000004)).2 0
    ⟨by decide, by decide⟩
  exact absurd answered.2 (by decide)

end MiniMac.Core.MemSubsystem
