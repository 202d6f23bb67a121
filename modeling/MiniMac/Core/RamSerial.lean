/-
# Core.RamSerial -- the RAM port serves one master at a time

A cycle gives the RAM port to one master; whatever the others put on their pins
leaves no trace (`step_served`).  With the replay of the granted writes this
makes the RAM a serial store, and a MAC read is answered in the next cycle, to
the master that was granted, with the word as of its grant.
-/
import MiniMac.Core.ReadResponses

namespace MiniMac.Core.MemSubsystem

open MiniMac.Theory MiniMac.Macros

set_option autoImplicit false

/-! ## Refused requests -/

/-- The cycle's inputs without the requests that are not granted. -/
def served (s : State) (i : Inputs) : Inputs :=
  { i with
    dmaReq := dmaGnt i
    dmaAddr := if dmaGnt i then i.dmaAddr else 0
    dmaWe := dmaGnt i && i.dmaWe
    dmaWdata := if dmaGnt i then i.dmaWdata else 0
    macReq := macGntInt s i
    macAddr := fun k => if (macGntInt s i).getLsbD k then i.macAddr k else 0
    macWe := i.macWe &&& macGntInt s i
    macWdata := fun k => if (macGntInt s i).getLsbD k then i.macWdata k else 0 }

/-! One-hot grants over the four masters. -/

theorem twoPow_self : ∀ k : Fin 4, (BitVec.twoPow 4 k).getLsbD k = true := by decide

theorem twoPow_only : ∀ k k' : Fin 4, (BitVec.twoPow 4 k).getLsbD k' = true → k' = k := by decide

theorem firstRequest_zero (order : List (Fin 4)) : firstRequest 0 order = 0 := by
  induction order with
  | nil => rfl
  | cons k rest ih => simpa [firstRequest] using ih

theorem firstRequest_twoPow (k : Fin 4) (order : List (Fin 4)) (member : k ∈ order) :
    firstRequest (BitVec.twoPow 4 k) order = BitVec.twoPow 4 k := by
  induction order with
  | nil => cases member
  | cons k' rest ih =>
      by_cases here : (BitVec.twoPow 4 k).getLsbD k' = true
      · rw [firstRequest, if_pos here, twoPow_only k k' here]
      · rw [firstRequest, if_neg here]
        apply ih
        rcases List.mem_cons.mp member with rfl | later
        · exact absurd (twoPow_self _) here
        · exact later

/-- A master that asks alone gets the grant, whatever the turn. -/
theorem macGntInt_alone {s : State} {i : Inputs} (idle : i.cpuReq = false) (k : Fin 4)
    (alone : i.macReq = BitVec.twoPow 4 k) : macGntInt s i = BitVec.twoPow 4 k := by
  simp only [macGntInt, idle, Bool.false_eq_true, if_false, alone]
  split <;> exact firstRequest_twoPow k _ (by fin_cases k <;> decide)

theorem macGntInt_none {s : State} {i : Inputs} (idle : i.macReq = 0) : macGntInt s i = 0 := by
  unfold macGntInt
  rw [idle]
  split
  · rfl
  · split <;> exact firstRequest_zero _

theorem macGntInt_served (s : State) (i : Inputs) :
    macGntInt s (served s i) = macGntInt s i := by
  cases cpu : i.cpuReq with
  | true => rw [macGntInt_of_cpuReq s i cpu, macGntInt_of_cpuReq s (served s i) cpu]
  | false =>
      have alone : (served s i).macReq = macGntInt s i := rfl
      rcases macGntInt_cases s i cpu with ⟨k, -, granted⟩ | ⟨none, -⟩
      · rw [granted] at alone ⊢
        exact macGntInt_alone (show (served s i).cpuReq = false from cpu) k alone
      · rw [none] at alone ⊢
        exact macGntInt_none alone

theorem dmaGnt_served (s : State) (i : Inputs) : dmaGnt (served s i) = dmaGnt i := by
  have served_eq : dmaGnt (served s i) =
      (dmaGnt i && !i.cpuReq && !(macGntInt s i != 0)) := rfl
  rcases access_cases s i with ⟨-, -, dma, -⟩ | ⟨k, -, -, -, dma, -⟩ | ⟨cpu, none, dma, -⟩ |
    ⟨-, -, dma, -⟩
  · rw [served_eq, dma]; rfl
  · rw [served_eq, dma]; rfl
  · rw [served_eq, dma, cpu, none]; rfl
  · rw [served_eq, dma]; rfl

/-- The mux carries the same access without the refused requests. -/
theorem arb_served (s : State) (i : Inputs) :
    arb s (served s i) = arb s i ∧ arbReq s (served s i) = arbReq s i := by
  have mac := macGntInt_served s i
  rcases access_cases s i with ⟨cpu, -, -, req, access⟩ | ⟨k, cpu, -, granted, -, req, access⟩ |
    ⟨cpu, none, gnt, req, access⟩ | ⟨cpu, none, gnt, req, access⟩
  · obtain ⟨req', access'⟩ := arb_of_cpu (s := s) (i := served s i) cpu
    exact ⟨access'.trans access.symm, req'.trans req.symm⟩
  · obtain ⟨req', access'⟩ := arb_of_mac (i := served s i) cpu k (mac.trans granted)
    refine ⟨?_, req'.trans req.symm⟩
    have set : (macGntInt s i).getLsbD k = true := by
      rw [granted]
      exact twoPow_self k
    rw [access', access]
    simp [macAccess, served, set]
  · obtain ⟨req', access'⟩ := arb_of_dma (i := served s i) cpu (mac.trans none) gnt
    refine ⟨?_, req'.trans req.symm⟩
    rw [access', access]
    simp [served, gnt]
  · obtain ⟨req', access'⟩ := arb_of_none (i := served s i) cpu (mac.trans none) gnt
    exact ⟨access'.trans access.symm, req'.trans req.symm⟩

/-- **A request that is not granted leaves no trace**, in the RAM or elsewhere. -/
theorem step_served (rom : BitVec 10 → BitVec 32) (s : State) (i : Inputs) :
    step rom s (served s i) = step rom s i := by
  have mac := macGntInt_served s i
  have dma := dmaGnt_served s i
  obtain ⟨access, req⟩ := arb_served s i
  have ram : ramInputs s (served s i) = ramInputs s i := by
    simp only [ramInputs, selRam, access, req]
  have instr : instrGnt s (served s i) = instrGnt s i := rfl
  have word : romRdata rom s (served s i) = romRdata rom s i := by
    simp only [romRdata, access]
    rfl
  have read : (dmaGnt i && !(served s i).dmaWe) = (dmaGnt i && !i.dmaWe) := by
    cases gnt : dmaGnt i <;> simp [served, gnt]
  simp only [step, mac, dma, ram, instr, word, read]
  rfl

/-! ## MAC reads -/

/-- A grant is one-hot, and its master is the one the mux carries. -/
theorem arb_of_macGnt {s : State} {i : Inputs} {k : Fin 4}
    (gnt : (macGntInt s i).getLsbD k = true) :
    macGntInt s i = BitVec.twoPow 4 k ∧ arb s i = macAccess i k := by
  rcases access_cases s i with ⟨-, none, -⟩ | ⟨k', -, -, granted, -, -, access⟩ | ⟨-, none, -⟩ |
    ⟨-, none, -⟩
  · simp [none] at gnt
  · rw [granted] at gnt
    obtain rfl := twoPow_only k' k gnt
    exact ⟨granted, access⟩
  · simp [none] at gnt
  · simp [none] at gnt

variable (rom : BitVec 10 → BitVec 32) (s₀ : State) (ins : ℕ → Inputs)

/-- Master `k` is granted the port in the cycle. -/
def MacGranted (t : ℕ) (k : Fin 4) : Prop :=
  (macGntInt (after rom s₀ ins t) (ins t)).getLsbD k = true

/-- The next cycle answers the granted master and no other. -/
theorem macRvalid_of_granted {t : ℕ} {k : Fin 4} (granted : MacGranted rom s₀ ins t k) :
    (after rom s₀ ins (t + 1)).macRvalid = BitVec.twoPow 4 k := by
  rw [after_succ]
  exact (arb_of_macGnt granted).1

theorem macRdata_of_read {t : ℕ} {k : Fin 4} (granted : MacGranted rom s₀ ins t k)
    (inside : inRam ((ins t).macAddr k) = true) :
    macRdata (after rom s₀ ins (t + 1)) k =
      ramAt rom s₀ ins t (ramIndex ((ins t).macAddr k)) := by
  obtain ⟨-, access⟩ := arb_of_macGnt granted
  have port : ramAccess (after rom s₀ ins t) (ins t) = true := by
    rw [ramAccess_eq_selRam, selRam, access]
    exact inside
  rw [macRdata, after_succ, sramDout_of_access rom _ _ port, ram_mem_eq, access]
  rfl

/-- **The RAM port is serial**: the RAM is its initial contents after the granted
writes in cycle order, at most one a cycle; what is not granted changes nothing;
and a granted MAC access, read or write, is answered in the next cycle, to its master
alone, with the word as of its grant. -/
theorem ram_port_serial :
    (∀ t, (after rom s₀ ins t).ram.mem = replay s₀.ram.mem (writesBefore rom s₀ ins t)) ∧
    (∀ t, (grantedWrites (after rom s₀ ins t) (ins t)).length ≤ 1) ∧
    (∀ t, after rom s₀ ins (t + 1) =
      step rom (after rom s₀ ins t) (served (after rom s₀ ins t) (ins t))) ∧
    ∀ t k, MacGranted rom s₀ ins t k →
      (after rom s₀ ins (t + 1)).macRvalid = BitVec.twoPow 4 k ∧
        (inRam ((ins t).macAddr k) = true →
          macRdata (after rom s₀ ins (t + 1)) k =
            ramAt rom s₀ ins t (ramIndex ((ins t).macAddr k))) := by
  refine ⟨?_, ?_, ?_, ?_⟩
  · intro t
    exact ram_mem_eq rom s₀ ins t
  · intro t
    exact grantedWrites_length_le _ _
  · intro t
    rw [step_served, after_succ]
  · intro t k granted
    refine ⟨macRvalid_of_granted rom s₀ ins granted, ?_⟩
    intro inside
    exact macRdata_of_read rom s₀ ins granted inside

/-- Masters 1 and 3 read in the same cycle; master 1 is answered first. -/
def twoReaders : Inputs :=
  { quiet with
    macReq := 0xA
    macAddr := fun k => 0x10000000 + BitVec.ofNat 32 (4 * k) }

theorem ram_port_serial_two_readers :
    (after (fun _ => 0) numbered (fun _ => twoReaders) 1).macRvalid = 2 ∧
      macRdata (after (fun _ => 0) numbered (fun _ => twoReaders) 1) 1 = 2 := by
  obtain ⟨-, -, -, reads⟩ := ram_port_serial (fun _ => 0) numbered fun _ => twoReaders
  obtain ⟨valid, data⟩ := reads 0 1 (by unfold MacGranted; decide)
  refine ⟨valid, ?_⟩
  rw [data (by decide)]
  decide

end MiniMac.Core.MemSubsystem
