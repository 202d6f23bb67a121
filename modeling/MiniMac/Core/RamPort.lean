/-
# Core.RamPort -- the RAM is the replay of the writes the masters were granted

`grantedWrites` reads the grants master by master, without the access mux.  The
RAM after any run is its initial contents after those writes in cycle order
(`ram_mem_eq`), and an access of the RAM window leaves the addressed word, as it
was before the edge, in the output register (`sramDout_of_access`).
-/
import MiniMac.Core.MemSubsystem
import MiniMac.Theory.Clocked

namespace MiniMac.Core.MemSubsystem

open MiniMac.Theory MiniMac.Macros

set_option autoImplicit false

/-- The RAM-window write of one access. -/
def ramWrite (addr : BitVec 32) (be : BitVec 4) (wdata : BitVec 32) :
    Write (BitVec 11) (BitVec 32) :=
  SramWrapper.maskedWrite (ramIndex addr) be wdata

/-- The RAM-window writes accepted in a cycle: a CPU write request, a MAC write
with its grant, a DMA write with its grant. -/
def grantedWrites (s : State) (i : Inputs) : List (Write (BitVec 11) (BitVec 32)) :=
  (if i.cpuReq && i.cpuWe && inRam i.cpuAddr then [ramWrite i.cpuAddr i.cpuBe i.cpuWdata]
    else []) ++
  ((List.finRange 4).flatMap fun k : Fin 4 =>
    if (macGntInt s i).getLsbD k && i.macWe.getLsbD k && inRam (i.macAddr k) then
      [ramWrite (i.macAddr k) 0xF (i.macWdata k)] else []) ++
  (if dmaGnt i && i.dmaWe && inRam i.dmaAddr then [ramWrite i.dmaAddr 0xF i.dmaWdata] else [])

/-- The write the access mux carries. -/
def Access.writes (a : Access) : List (Write (BitVec 11) (BitVec 32)) :=
  if a.we && inRam a.addr then [ramWrite a.addr a.be a.wdata] else []

theorem Access.writes_length_le (a : Access) : a.writes.length ≤ 1 := by
  unfold Access.writes; split <;> simp

/-- The grants and the mux name the same write. -/
theorem grantedWrites_eq (s : State) (i : Inputs) : grantedWrites s i = (arb s i).writes := by
  rcases access_cases s i with ⟨cpu, none, dma, -, access⟩ | ⟨k, cpu, -, granted, dma, -, access⟩ |
    ⟨cpu, none, dma, -, access⟩ | ⟨cpu, none, dma, -, access⟩
  · simp [grantedWrites, Access.writes, cpu, none, dma, access]
  · fin_cases k <;>
      simp [grantedWrites, Access.writes, cpu, granted, dma, access, macAccess, List.finRange_succ]
  · simp [grantedWrites, Access.writes, cpu, none, dma, access]
  · simp [grantedWrites, Access.writes, cpu, none, dma, access]

theorem grantedWrites_length_le (s : State) (i : Inputs) : (grantedWrites s i).length ≤ 1 := by
  rw [grantedWrites_eq]
  exact (arb s i).writes_length_le

/-- An access of the RAM window. -/
def ramAccess (s : State) (i : Inputs) : Bool := selRam s i && arbReq s i

/-- The mux only carries a RAM address when somebody asks. -/
theorem ramAccess_eq_selRam (s : State) (i : Inputs) : ramAccess s i = selRam s i := by
  rcases access_cases s i with ⟨-, -, -, req, -⟩ | ⟨k, -, -, -, -, req, -⟩ | ⟨-, -, -, req, -⟩ |
    ⟨-, -, -, -, access⟩
  · simp [ramAccess, req]
  · simp [ramAccess, req]
  · simp [ramAccess, req]
  · simp [ramAccess, selRam, access, inRam]

variable (rom : BitVec 10 → BitVec 32)

theorem ram_step (s : State) (i : Inputs) :
    (step rom s i).ram.mem = replay s.ram.mem (grantedWrites s i) := by
  have port := ramAccess_eq_selRam s i
  rw [grantedWrites_eq]
  cases sel : selRam s i with
  | false =>
      have off : (ramInputs s i).sramCen = true := by simp [ramInputs, sel]
      have outside : (arb s i).writes = [] := by
        have : inRam (arb s i).addr = false := sel
        simp [Access.writes, this]
      simp only [step, SramWrapper.step_disabled _ _ off, outside, replay_nil]
  | true =>
      have on : (ramInputs s i).sramCen = false := by
        simpa [ramInputs, ramAccess, sel] using port
      have inside : inRam (arb s i).addr = true := sel
      simp only [step, SramWrapper.step_mem _ _ on, Access.writes, inside, Bool.and_true]
      cases we : (arb s i).we with
      | false => simp [ramInputs, we]
      | true => simp [ramInputs, we, ramWrite]

theorem sramDout_of_access (s : State) (i : Inputs) (access : ramAccess s i = true) :
    (step rom s i).ram.sramDout = s.ram.mem (ramIndex (arb s i).addr) := by
  have on : (ramInputs s i).sramCen = false := by
    simpa [ramInputs, ramAccess] using access
  simp only [step, SramWrapper.step_sramDout _ _ on]
  simp [ramInputs]

theorem sramDout_of_no_access (s : State) (i : Inputs) (quiet : ramAccess s i = false) :
    (step rom s i).ram.sramDout = s.ram.sramDout := by
  have off : (ramInputs s i).sramCen = true := by
    show (!ramAccess s i) = true
    rw [quiet]; rfl
  simp only [step, SramWrapper.step_disabled _ _ off]

/-! ## Runs -/

/-- The state after `t` cycles from reset. -/
def after (s₀ : State) (ins : ℕ → Inputs) (t : ℕ) : State :=
  Clocked.run (step rom) (reset s₀) ins t

/-- The RAM-window writes granted before cycle `t`, in cycle order. -/
def writesBefore (s₀ : State) (ins : ℕ → Inputs) : ℕ → List (Write (BitVec 11) (BitVec 32))
  | 0 => []
  | t + 1 => writesBefore s₀ ins t ++ grantedWrites (after rom s₀ ins t) (ins t)

/-- The RAM as left by all writes granted before cycle `t`. -/
def ramAt (s₀ : State) (ins : ℕ → Inputs) (t : ℕ) : BitVec 11 → BitVec 32 :=
  replay s₀.ram.mem (writesBefore rom s₀ ins t)

variable (s₀ : State) (ins : ℕ → Inputs)

theorem after_succ (t : ℕ) :
    after rom s₀ ins (t + 1) = step rom (after rom s₀ ins t) (ins t) := rfl

/-- **The RAM is the replay of the granted writes.** -/
theorem ram_mem_eq (t : ℕ) : (after rom s₀ ins t).ram.mem = ramAt rom s₀ ins t := by
  induction t with
  | zero => rfl
  | succ t ih => rw [after_succ, ram_step, ih, ramAt, ramAt, writesBefore, replay_append]

end MiniMac.Core.MemSubsystem
