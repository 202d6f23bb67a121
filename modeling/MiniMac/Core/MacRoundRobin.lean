/-
# Core.MacRoundRobin -- the MAC masters rotate

The pointer moves on by one with every MAC grant, to whomever it went.  The distance
from the pointer to a master that asks is what bounds its wait: a grant to another
master goes to one on the way, so it is not at the pointer and the pointer comes
closer.
-/
import MiniMac.Core.RamPort
import MiniMac.Theory.EventCount

namespace MiniMac.Core.MemSubsystem

open MiniMac.Theory

set_option autoImplicit false

/-- How far the pointer is from a master. -/
def distance (macRr : BitVec 2) (k : Fin 4) : ℕ := (BitVec.ofNat 2 k - macRr).toNat

/-- The masters in the order in which the pointer prefers them. -/
def rotation (macRr : BitVec 2) : List (Fin 4) :=
  (List.finRange 4).drop macRr.toNat ++ (List.finRange 4).take macRr.toNat

variable {s : State} {i : Inputs} {k : Fin 4}

/-! ## One cycle -/

theorem macGntInt_eq (cpu : i.cpuReq = false) :
    macGntInt s i = firstRequest i.macReq (rotation s.macRr) := by
  have values : ∀ macRr : BitVec 2, macRr = 0 ∨ macRr = 1 ∨ macRr = 2 ∨ macRr = 3 := by decide
  rw [macGntInt, cpu, if_neg Bool.false_ne_true]
  rcases values s.macRr with pointer | pointer | pointer | pointer <;> rw [pointer] <;> rfl

/-- A master that asks is granted, or the grant goes to one on the way to it. -/
theorem distance_of_bypass (cpu : i.cpuReq = false) (asks : i.macReq.getLsbD k = true)
    (bypassed : (macGntInt s i).getLsbD k = false) :
    distance (s.macRr + 1) k < distance s.macRr k := by
  have arms : ∀ (macRr : BitVec 2) (macReq : BitVec 4) (k : Fin 4), macReq.getLsbD k = true →
      (firstRequest macReq (rotation macRr)).getLsbD k = false →
        distance (macRr + 1) k < distance macRr k := by
    decide
  rw [macGntInt_eq cpu] at bypassed
  exact arms s.macRr i.macReq k asks bypassed

theorem cpu_of_macGnt (granted : (macGntInt s i).getLsbD k = true) : i.cpuReq = false := by
  by_contra busy
  rw [macGntInt_of_cpuReq s i (by simpa using busy)] at granted
  simp at granted

theorem twoPow_getLsbD (j k : Fin 4) : (BitVec.twoPow 4 j).getLsbD k = true ↔ j = k := by
  revert j k
  decide

/-- The grant is one master's, and that master asks. -/
theorem macGnt_iff (granted : (macGntInt s i).getLsbD k = true) :
    i.macReq.getLsbD k = true ∧ macGntInt s i = BitVec.twoPow 4 k := by
  rcases macGntInt_cases s i (cpu_of_macGnt granted) with ⟨j, asks, grant⟩ | ⟨none, -⟩
  · rw [grant, twoPow_getLsbD] at granted
    exact granted ▸ ⟨asks, grant⟩
  · rw [none] at granted
    simp at granted

theorem macGnt_unique {j : Fin 4} (here : (macGntInt s i).getLsbD j = true)
    (there : (macGntInt s i).getLsbD k = true) : j = k := by
  rw [(macGnt_iff here).2] at there
  exact (twoPow_getLsbD j k).mp there

/-- While the CPU is quiet a request of a master is followed by some grant. -/
theorem macGnt_of_request (cpu : i.cpuReq = false) (asks : i.macReq.getLsbD k = true) :
    macGntInt s i ≠ 0 := by
  intro none
  rcases macGntInt_cases s i cpu with ⟨j, -, grant⟩ | ⟨-, idle⟩
  · have bit := (twoPow_getLsbD j j).mpr rfl
    rw [← grant, none] at bit
    simp at bit
  · rw [idle] at asks
    simp at asks

/-! ## Runs -/

def macGntAt (rom : BitVec 10 → BitVec 32) (s₀ : State) (ins : ℕ → Inputs) (t : ℕ) : BitVec 4 :=
  macGntInt (after rom s₀ ins t) (ins t)

/-- What the rotation promises to the masters. -/
structure Rotates (rom : BitVec 10 → BitVec 32) (s₀ : State) (ins : ℕ → Inputs) : Prop where
  /-- While a master keeps asking in vain, three grants at most go to others. -/
  bypass : ∀ (k : Fin 4) (a b : ℕ), (∀ t, a ≤ t → t < b → (ins t).macReq.getLsbD k = true ∧
    (macGntAt rom s₀ ins t).getLsbD k = false) →
      occurrences (fun t => macGntAt rom s₀ ins t ≠ 0) a b ≤ 3
  /-- A request is followed by some grant in every cycle that the CPU leaves free. -/
  serves : ∀ t (k : Fin 4), (ins t).macReq.getLsbD k = true → (ins t).cpuReq = false →
    macGntAt rom s₀ ins t ≠ 0
  single : ∀ t (j k : Fin 4), (macGntAt rom s₀ ins t).getLsbD j = true →
    (macGntAt rom s₀ ins t).getLsbD k = true → j = k
  asked : ∀ t (k : Fin 4), (macGntAt rom s₀ ins t).getLsbD k = true →
    (ins t).macReq.getLsbD k = true
  behindCpu : ∀ t, (ins t).cpuReq = true → macGntAt rom s₀ ins t = 0

section Runs

variable (rom : BitVec 10 → BitVec 32) (s₀ : State) (ins : ℕ → Inputs)

theorem macRr_succ (t : ℕ) :
    (after rom s₀ ins (t + 1)).macRr =
      if macGntAt rom s₀ ins t ≠ 0 then (after rom s₀ ins t).macRr + 1
      else (after rom s₀ ins t).macRr := by
  rw [after_succ]
  by_cases none : macGntAt rom s₀ ins t = 0
  · rw [if_neg (not_not.mpr none)]
    exact if_neg fun some => bne_iff_ne.mp some none
  · rw [if_pos none]
    exact if_pos (bne_iff_ne.mpr none)

/-- **The masters rotate**: three bypasses at most, one grant at a time, only for a request
and only behind the CPU. -/
theorem masters_rotate : Rotates rom s₀ ins where
  bypass k a b waits := by
    have bound : occurrences (fun t => macGntAt rom s₀ ins t ≠ 0) a b ≤
        distance (after rom s₀ ins a).macRr k := by
      refine occurrences_le_potential (fun t => distance (after rom s₀ ins t).macRr k) ?_ ?_
      · intro t low high granted
        obtain ⟨asks, bypassed⟩ := waits t low high
        have cpu : (ins t).cpuReq = false := by
          by_contra busy
          exact granted (macGntInt_of_cpuReq _ _ (by simpa using busy))
        rw [macRr_succ, if_pos granted]
        exact distance_of_bypass cpu asks bypassed
      · intro t _ _ none
        rw [macRr_succ, if_neg none]
    have last := (BitVec.ofNat 2 k - (after rom s₀ ins a).macRr).isLt
    rw [distance] at bound
    omega
  serves t k asks cpu := macGnt_of_request cpu asks
  single t j k here there := macGnt_unique here there
  asked t k granted := (macGnt_iff granted).1
  behindCpu t busy := macGntInt_of_cpuReq _ _ busy

end Runs

end MiniMac.Core.MemSubsystem
