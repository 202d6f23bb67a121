/-
# Core.TelemetryCounts -- what the snapshot holds

Five counters of one kind: each counts an event in the enabled cycles since the
latest reset, and its snapshot is what it held at the latest snapshot write.  A cycle
is enabled by the latest CTRL write before it, and a reset is such a write, so what
software reads is said by the writes on the bus alone.
-/
import MiniMac.Core.Telemetry
import MiniMac.Theory.Clocked
import MiniMac.Theory.EventCount

namespace MiniMac.Core.Telemetry

open MiniMac.Theory

set_option autoImplicit false

/-! ## Counters -/

/-- A counter beside its snapshot register, with what each assignment of an edge does to
the two. -/
structure Counter (w : ℕ) where
  live : State → BitVec w
  snap : State → BitVec w
  event : Inputs → Bool
  weight : ℕ
  live_reset : ∀ s, live (reset s) = 0 := by intros; rfl
  live_en : ∀ s e, live { s with en := e } = live s := by intros; rfl
  live_count : ∀ s i d, live (count s i d) =
    if event i then live s + BitVec.ofNat w weight else live s := by intros; rfl
  live_snapshot : ∀ s d, live (snapshot s d) = live d := by intros; rfl
  snap_reset : ∀ s, snap (reset s) = snap s := by intros; rfl
  snap_en : ∀ s e, snap { s with en := e } = snap s := by intros; rfl
  snap_count : ∀ s i d, snap (count s i d) = snap d := by intros; rfl
  snap_snapshot : ∀ s d, snap (snapshot s d) = live s := by intros; rfl

def cycles : Counter 64 where
  live := State.cycleCount
  snap := State.cycleSnap
  event _ := true
  weight := 1

def macs : Counter 32 where
  live := State.macCount
  snap := State.macSnap
  event := Inputs.peValidI
  weight := 16

def stalls : Counter 32 where
  live := State.stallCount
  snap := State.stallSnap
  event := Inputs.dmaStallI
  weight := 1

def overflows : Counter 32 where
  live := State.ovflCount
  snap := State.ovflSnap
  event := Inputs.accOvflI
  weight := 1

def utilization : Counter 32 where
  live := State.utilCount
  snap := State.utilSnap
  event := Inputs.peActiveI
  weight := 1

/-! ## One edge -/

/-- A write of CTRL. -/
def ctrlWrite (i : Inputs) : Bool := writes i && offset i == 0x00

/-- A snapshot write is no reset. -/
theorem resetTrigger_of_snapshot {i : Inputs} (snapshots : snapshotTrigger i = true) :
    resetTrigger i = false := by
  rw [snapshotTrigger, Bool.and_eq_true, beq_iff_eq] at snapshots
  rw [resetTrigger, snapshots.2]
  simp

theorem step_en (s : State) (i : Inputs) :
    (step s i).en =
      if ctrlWrite i then i.pwdata.getLsbD 0 && !i.pwdata.getLsbD 1 else s.en := by
  have trigger : resetTrigger i = (ctrlWrite i && i.pwdata.getLsbD 1) := rfl
  cases resets : resetTrigger i with
  | true =>
      rw [step, if_pos resets]
      rw [trigger, Bool.and_eq_true] at resets
      rw [if_pos resets.1, resets.2, Bool.not_true, Bool.and_false]
      rfl
  | false =>
      have edge : (step s i).en = if ctrlWrite i then i.pwdata.getLsbD 0 else s.en := by
        rw [step, if_neg (ne_true_of_eq_false resets)]
        cases s.en <;> cases snapshotTrigger i <;> rfl
      rw [edge]
      cases ctrl : ctrlWrite i with
      | false => rfl
      | true =>
          rw [trigger, ctrl, Bool.true_and] at resets
          rw [resets, Bool.not_false, Bool.and_true]

namespace Counter

variable {w : ℕ} (c : Counter w) {s : State} {i : Inputs}

theorem live_step_reset (resets : resetTrigger i = true) : c.live (step s i) = 0 := by
  rw [step, if_pos resets]
  exact c.live_reset s

theorem live_step (quiet : resetTrigger i = false) :
    c.live (step s i) =
      if s.en && c.event i then c.live s + BitVec.ofNat w c.weight else c.live s := by
  rw [step, if_neg (ne_true_of_eq_false quiet)]
  cases enabled : s.en <;> cases snapshots : snapshotTrigger i <;>
    simp [c.live_en, c.live_count, c.live_snapshot]

theorem snap_step (s : State) (i : Inputs) :
    c.snap (step s i) = if snapshotTrigger i then c.live s else c.snap s := by
  cases snapshots : snapshotTrigger i with
  | true =>
      rw [step, if_neg (ne_true_of_eq_false (resetTrigger_of_snapshot snapshots))]
      cases enabled : s.en <;> simp [snapshots, c.snap_snapshot]
  | false =>
      cases resets : resetTrigger i <;> cases enabled : s.en <;>
        simp [step, resets, enabled, snapshots, c.snap_reset, c.snap_en, c.snap_count]

end Counter

/-! ## Runs -/

section Runs

variable (s₀ : State) (ins : ℕ → Inputs)

/-- The counters after `t` cycles from a hardware reset. -/
def after (t : ℕ) : State := Clocked.run step (reset s₀) ins t

/-- The latest CTRL write before the cycle sets bit 0 and not bit 1. -/
def Enabled (t : ℕ) : Prop :=
  ∃ w, Latest (fun u => ctrlWrite (ins u)) t w ∧ (ins w).pwdata.getLsbD 0 = true ∧
    (ins w).pwdata.getLsbD 1 = false

/-- The enabled cycles from `r` up to `t` with the event. -/
noncomputable def enabledCycles (event : Inputs → Bool) (r t : ℕ) : ℕ :=
  occurrences (fun u => Enabled ins u ∧ event (ins u) = true) r t

def enAt (t : ℕ) : Bool := (after s₀ ins t).en

theorem enAt_succ (t : ℕ) : enAt s₀ ins (t + 1) = if ctrlWrite (ins t) then
    (ins t).pwdata.getLsbD 0 && !(ins t).pwdata.getLsbD 1 else enAt s₀ ins t := step_en _ _

theorem enAt_iff (t : ℕ) : enAt s₀ ins t = true ↔ Enabled ins t := by
  constructor
  · intro up
    rcases Latest.exists_or_quiet (fun u => ctrlWrite (ins u)) t with ⟨w, latest⟩ | quiet
    · have loaded := (register_latest (enAt_succ s₀ ins) latest).symm.trans up
      rw [Bool.and_eq_true, Bool.not_eq_true'] at loaded
      exact ⟨w, latest, loaded⟩
    · exact absurd ((register_start (enAt_succ s₀ ins) quiet).symm.trans up) Bool.false_ne_true
  · rintro ⟨w, latest, set, clear⟩
    rw [register_latest (enAt_succ s₀ ins) latest, set, clear]
    rfl

namespace Counter

variable {w : ℕ} (c : Counter w)

def liveAt (t : ℕ) : BitVec w := c.live (after s₀ ins t)

def snapAt (t : ℕ) : BitVec w := c.snap (after s₀ ins t)

/-- A counter has counted its event in the enabled cycles since the latest reset. -/
theorem liveAt_eq {r t : ℕ} (since : Since (fun u => resetTrigger (ins u)) t r) :
    c.liveAt s₀ ins t = BitVec.ofNat w (c.weight * enabledCycles ins c.event r t) := by
  have start : c.liveAt s₀ ins r = 0 := by
    cases since with
    | start quiet => exact c.live_reset s₀
    | after latest => exact c.live_step_reset latest.happens
  have next (u : ℕ) (low : r ≤ u) (high : u < t) : c.liveAt s₀ ins (u + 1) =
      if enAt s₀ ins u && c.event (ins u) then c.liveAt s₀ ins u + BitVec.ofNat w c.weight
      else c.liveAt s₀ ins u := c.live_step (since.quiet low high)
  refine counter_eq since.le start (fun u low high happens => ?_) (fun u low high none => ?_)
  · rw [← enAt_iff s₀, ← Bool.and_eq_true] at happens
    rw [next u low high, if_pos happens]
  · rw [← enAt_iff s₀, ← Bool.and_eq_true] at none
    rw [next u low high, if_neg none]

/-- Until the next snapshot write the snapshot is what the counter held at the latest one. -/
theorem snapAt_eq {t r v : ℕ} (latest : Latest (fun u => snapshotTrigger (ins u)) v t)
    (since : Since (fun u => resetTrigger (ins u)) t r) :
    c.snapAt s₀ ins v = BitVec.ofNat w (c.weight * enabledCycles ins c.event r t) := by
  have next : ∀ t, c.snapAt s₀ ins (t + 1) = if snapshotTrigger (ins t) then
      c.liveAt s₀ ins t else c.snapAt s₀ ins t := fun t => c.snap_step _ _
  rw [register_latest next latest, liveAt_eq s₀ ins c since]

end Counter

/-- What software reads in cycle `v` after a snapshot write in cycle `t`, with the latest
reset before `r`. -/
structure Reads (r t v : ℕ) : Prop where
  cycleLow : offset (ins v) = 0x04 → prdata (after s₀ ins v) (ins v) =
    (BitVec.ofNat 64 (enabledCycles ins (fun _ => true) r t)).extractLsb' 0 32
  cycleHigh : offset (ins v) = 0x08 → prdata (after s₀ ins v) (ins v) =
    (BitVec.ofNat 64 (enabledCycles ins (fun _ => true) r t)).extractLsb' 32 32
  macCount : offset (ins v) = 0x0C → prdata (after s₀ ins v) (ins v) =
    BitVec.ofNat 32 (16 * enabledCycles ins Inputs.peValidI r t)
  stallCount : offset (ins v) = 0x10 → prdata (after s₀ ins v) (ins v) =
    BitVec.ofNat 32 (enabledCycles ins Inputs.dmaStallI r t)
  ovflCount : offset (ins v) = 0x14 → prdata (after s₀ ins v) (ins v) =
    BitVec.ofNat 32 (enabledCycles ins Inputs.accOvflI r t)
  utilCount : offset (ins v) = 0x18 → prdata (after s₀ ins v) (ins v) =
    BitVec.ofNat 32 (enabledCycles ins Inputs.peActiveI r t)

/-- Every read between a snapshot write and the next returns the counts of the first. -/
def Snapshots : Prop :=
  ∀ r t v, Latest (fun u => snapshotTrigger (ins u)) v t →
    Since (fun u => resetTrigger (ins u)) t r → Reads s₀ ins r t v

/-- **The telemetry counts exactly and its snapshot lasts.** -/
theorem telemetry_counts : Snapshots s₀ ins := by
  intro r t v latest since
  have counted {w : ℕ} (c : Counter w) (once : c.weight = 1) :
      c.snapAt s₀ ins v = BitVec.ofNat w (enabledCycles ins c.event r t) := by
    rw [c.snapAt_eq s₀ ins latest since, once, Nat.one_mul]
  constructor
  · intro read
    have register : prdata (after s₀ ins v) (ins v) =
        (cycles.snapAt s₀ ins v).extractLsb' 0 32 := by
      rw [prdata, read]
      rfl
    rw [register, counted cycles rfl, cycles]
  · intro read
    have register : prdata (after s₀ ins v) (ins v) =
        (cycles.snapAt s₀ ins v).extractLsb' 32 32 := by
      rw [prdata, read]
      rfl
    rw [register, counted cycles rfl, cycles]
  · intro read
    have register : prdata (after s₀ ins v) (ins v) = macs.snapAt s₀ ins v := by
      rw [prdata, read]
      rfl
    rw [register, macs.snapAt_eq s₀ ins latest since, macs]
  · intro read
    have register : prdata (after s₀ ins v) (ins v) = stalls.snapAt s₀ ins v := by
      rw [prdata, read]
      rfl
    rw [register, counted stalls rfl, stalls]
  · intro read
    have register : prdata (after s₀ ins v) (ins v) = overflows.snapAt s₀ ins v := by
      rw [prdata, read]
      rfl
    rw [register, counted overflows rfl, overflows]
  · intro read
    have register : prdata (after s₀ ins v) (ins v) = utilization.snapAt s₀ ins v := by
      rw [prdata, read]
      rfl
    rw [register, counted utilization rfl, utilization]

end Runs

end MiniMac.Core.Telemetry
