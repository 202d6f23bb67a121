/-
# Dv.MacDmaTb -- a core, its engine and a memory that never stalls

The bench of the result path: memory grants a request in its own cycle, answers a
read in the cycle after it, and performs a write at the edge of its cycle.  It
does so for every cycle a request is up, so an access whose request lingers is
done twice.
-/
import MiniMac.Accel.ResultDrain
import MiniMac.Theory.WriteLog

namespace MiniMac.Dv.MacDmaTb

open MiniMac.Theory MiniMac.Accel

set_option autoImplicit false

structure State (rows cols dataW : ℕ) where
  mac : MacDma.State rows cols dataW
  mem : BitVec 30 → BitVec 32
  pending : Bool
  pendingData : BitVec 32

variable {rows cols dataW : ℕ}

/-- The stimulus with the memory's side filled in. -/
def macInputs (s : State rows cols dataW) (i : MacDma.Inputs) : MacDma.Inputs :=
  { i with
    memGnt := true
    memRvalid := s.pending
    memRdata := s.pendingData }

def step (s : State rows cols dataW) (i : MacDma.Inputs) : State rows cols dataW where
  mac := MacDma.step s.mac (macInputs s i)
  pending := s.mac.dma.mReqO && !s.mac.dma.mWeO
  mem :=
    if s.mac.dma.mReqO && s.mac.dma.mWeO then
      Function.update s.mem (wordIndex s.mac.dma.mAddrO) s.mac.dma.mWdataO
    else s.mem
  pendingData :=
    if s.mac.dma.mReqO && !s.mac.dma.mWeO then s.mem (wordIndex s.mac.dma.mAddrO)
    else s.pendingData

def reset (s : State rows cols dataW) : State rows cols dataW where
  mac := MacDma.reset s.mac
  mem := s.mem
  pending := false
  pendingData := 0

variable (s₀ : State rows cols dataW) (ins : ℕ → MacDma.Inputs)

/-- The bench `t` cycles after reset. -/
def after (t : ℕ) : State rows cols dataW := Clocked.run step (reset s₀) ins t

theorem after_succ (t : ℕ) : after s₀ ins (t + 1) = step (after s₀ ins t) (ins t) := rfl

/-! ## The parts of the bench -/

/-- What the core sees. -/
def coreInputs (t : ℕ) : MacCoreAxi.Inputs :=
  MacDma.coreInputs (after s₀ ins t).mac (macInputs (after s₀ ins t) (ins t))

/-- The core in the bench runs as a core on its own. -/
theorem after_core (t : ℕ) :
    (after s₀ ins t).mac.core = MacCoreAxi.after s₀.mac.core (coreInputs s₀ ins) t :=
  Clocked.eq_run (x := fun u => (after s₀ ins u).mac.core) rfl (fun _ => rfl) t

/-- What the core and its engine see from cycle `d` on. -/
def pairInputs (d t : ℕ) : MacDma.Inputs := macInputs (after s₀ ins (d + t)) (ins (d + t))

/-- From any cycle on, the core and its engine run as a pair on their own. -/
theorem after_mac (d t : ℕ) :
    (after s₀ ins (d + t)).mac =
      MacDma.after (after s₀ ins d).mac (pairInputs s₀ ins d) t :=
  Clocked.eq_run (x := fun u => (after s₀ ins (d + u)).mac) rfl (fun _ => rfl) t

/-! ## Memory -/

/-- A write as the memory performs it. -/
def store (w : BitVec 32 × BitVec 32) : Write (BitVec 30) (BitVec 32) :=
  Write.store (wordIndex w.1) w.2

theorem step_mem (s : State rows cols dataW) (i : MacDma.Inputs) :
    (step s i).mem =
      replay s.mem ((MacDma.memWrite s.mac (macInputs s i)).map store).toList := by
  cases request : s.mac.dma.mReqO <;> cases write : s.mac.dma.mWeO <;>
    simp [step, MacDma.memWrite, MacDma.granted, macInputs, request, write, store]

/-- Reading leaves memory alone. -/
theorem step_mem_read (s : State rows cols dataW) (i : MacDma.Inputs)
    (reading : s.mac.dma.mReqO = true → s.mac.dma.mWeO = false) : (step s i).mem = s.mem := by
  cases request : s.mac.dma.mReqO with
  | false => simp [step, request]
  | true => simp [step, reading request]

/-- The memory after a span of cycles is the replay of the pair's writes in it. -/
theorem mem_eq (d t : ℕ) :
    (after s₀ ins (d + t)).mem = replay (after s₀ ins d).mem
      (Clocked.window (fun u => (MacDma.memWrite
        (MacDma.after (after s₀ ins d).mac (pairInputs s₀ ins d) u)
        (pairInputs s₀ ins d u)).map store) 0 t) := by
  induction t with
  | zero => rfl
  | succ t ih =>
      rw [← Nat.add_assoc, after_succ, step_mem, Clocked.window_succ, replay_append, ← ih,
        Nat.zero_add, ← after_mac]
      rfl

/-- `n` consecutive words of a memory. -/
def wordsAt (mem : BitVec 30 → BitVec 32) (base : BitVec 32) (n : ℕ) : List (BitVec 32) :=
  (List.range n).map fun k => mem (wordIndex (wordAddr base k))

end MiniMac.Dv.MacDmaTb
