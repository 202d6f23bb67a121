/-
# System.JobRun -- a job of the accelerator comes to its end

The last word is granted and the engine sees that it was the last, since memory takes
a write at once.  In that cycle the accelerator rests, and the next job may start.  Memory
is as it was but for the result words, and where the array was at rest at the launch it is
what the job makes of the ledger it started with.
-/
import MiniMac.Accel.DrainPace
import MiniMac.System.JobDrain

namespace MiniMac.System

open MiniMac.Theory MiniMac.Accel
open MiniMac.Accel.AxiStreamDma (Channel)

set_option autoImplicit false

variable {rows cols : ℕ} {Cell : Type} [DecidableEq Cell]

/-- The job that started in cycle `b` ends in cycle `e`: the accelerator rests, with the
history that the job makes of the ledger `x`, and with its memory where the array was at rest
at the launch. -/
structure Completed (cell : BitVec 32 → Cell) (mem : ℕ → Cell → BitVec 32)
    (s₀ : MacSubsystem.State rows cols 8) (ins : ℕ → MacSubsystem.Inputs) (x : Ledger Cell)
    (job : JobConfig) (b e : ℕ) : Prop where
  later : b < e
  busy : ∀ u, b < u → u < e → (dmaAt s₀ ins u).state ≠ .idle
  rest : Rest s₀ ins (x.run cell rows cols job).weights (x.run cell rows cols job).activations e
  frame : ∀ a, (∀ k < job.n, a ≠ cell (wordAddr job.resBase k)) → mem e a = x.mem a
  mem : Settled s₀ ins b → mem e = (x.run cell rows cols job).mem
  done : (dmaAt s₀ ins e).resDoneO = true
  notBusy : (dmaAt s₀ ins e).busyO = false

/-- The last word of the job, whose fill ended in cycle `f`, is granted `T` cycles after core
0 has entered its stream, while the engine is at work and the marker is up. -/
structure LastGrant (s₀ : MacSubsystem.State rows cols 8) (ins : ℕ → MacSubsystem.Inputs)
    (job : JobConfig) (b f T : ℕ) : Prop where
  complete : MacDma.DrainComplete (calmedAt s₀ ins job b (streamsAt f job))
    (fun u => calmedInputs s₀ ins job b (streamsAt f job + u)) job.n job.resBase T
  busy : Busy s₀ ins b (streamsAt f job + T)
  late : 3 * job.n + 1 ≤ T
  marked : (coreAt s₀ ins (streamsAt f job + T)).mAxisResTlast = true

namespace JobRun

variable {latency : ℕ} {inside : BitVec 32 → Prop} {cell : BitVec 32 → Cell}
variable {mem : ℕ → Cell → BitVec 32} {s₀ : MacSubsystem.State rows cols 8}
variable {ins : ℕ → MacSubsystem.Inputs} {weights activations : List (BitVec 32)}
variable {job : JobConfig} {b f : ℕ}
variable (run : JobRun latency inside cell mem s₀ ins weights activations job b)
variable (fill : Filled s₀ ins job b f)

include run

include fill

/-- Behind the fill a request is one for a write of a result word. -/
theorem request {t : ℕ} (late : streamsAt f job ≤ t) (busy : ∀ u < t, Busy s₀ ins b u)
    (up : (dmaAt s₀ ins t).mReqO = true) :
    (dmaAt s₀ ins t).mWeO = true ∧ inside (dmaAt s₀ ins t).mAddrO := by
  obtain ⟨d, rfl⟩ := Nat.exists_eq_add_of_le late
  have same := calmedAt_eq job run.grants busy
  rw [calmedAt_add] at same
  have asked := (run.drain fill).request d
  rw [same] at asked
  obtain ⟨write, k, within, place⟩ := asked up
  have place' : (dmaAt s₀ ins (streamsAt f job + d)).mAddrO = wordAddr job.resBase k := place
  exact ⟨write, place' ▸ run.fits.resInside k within⟩

/-- Memory is willing again and again. -/
theorem willing (t : ℕ) : ∃ u, t ≤ u ∧ (calmedInputs s₀ ins job b u).memGnt = true := by
  by_contra none
  push Not at none
  have busy (u : ℕ) (late : t ≤ u) : Busy s₀ ins b u := by
    by_contra idle
    apply none u late
    rw [calmedInputs, if_neg idle]
    rfl
  have refused (u : ℕ) (late : t ≤ u) :
      (ins u).mGntI = false ∧ (dmaAt s₀ ins u).mReqO = true := by
    have unwilling := none u late
    rw [calmedInputs, if_pos (busy u late)] at unwilling
    simpa [pairInputsAt] using unwilling
  obtain ⟨u, late, grant⟩ := run.memory.granted (t + streamsAt f job) fun u late => by
    have up := (refused u (by omega)).2
    have before (v : ℕ) (low : v < u) : Busy s₀ ins b v := (busy u (by omega)).earlier low.le
    exact ⟨up, (run.request fill (by omega) before up).2⟩
  exact absurd ((refused u (by omega)).1.symm.trans grant) Bool.false_ne_true

section Drained

variable {T : ℕ}

/-- Up to the grant of the last word the engine is at work. -/
theorem busy_drain
    (before : (MacDma.wordWrites (calmedAt s₀ ins job b (streamsAt f job))
      (fun u => calmedInputs s₀ ins job b (streamsAt f job + u)) T).length = job.n - 1)
    (last : (MacDma.wordWrite (calmedAt s₀ ins job b (streamsAt f job + T))
      (calmedInputs s₀ ins job b (streamsAt f job + T))).isSome = true) :
    ∀ t, t ≤ streamsAt f job + T → Busy s₀ ins b t := by
  have drain := run.drain fill
  rw [calmedAt_add] at last
  intro t
  induction t with
  | zero =>
      intro _ v low high
      omega
  | succ t ih =>
      intro upto
      rcases Nat.lt_or_ge (f + 1) (t + 1) with late | early
      · have busy := ih (by omega)
        have agrees := run.calmedAt_succ busy
        have working : (calmedAt s₀ ins job b (t + 1)).dma.state ≠ .idle := by
          rcases Nat.le_total (t + 1) (streamsAt f job) with waits | drains
          · rw [(run.calmed_waiting fill (t + 1) (by omega) waits).phase]
            decide
          · obtain ⟨u, split⟩ := Nat.exists_eq_add_of_le drains
            rw [split, calmedAt_add]
            exact drain.working before last u (by omega)
        intro v low high
        rcases Nat.lt_succ_iff_lt_or_eq.mp (Nat.lt_succ_of_le high) with earlier | rfl
        · exact busy v low (by omega)
        · rw [agrees] at working
          exact working
      · exact fill.busy early

end Drained

/-- **The end of the drain**: up to it the two runs are one. -/
theorem last_grant : ∃ T, LastGrant s₀ ins job b f T := by
  have drain := run.drain fill
  obtain ⟨T, before, last⟩ := drain.reaches_last fun t => by
    obtain ⟨u, late, willing⟩ := run.willing fill (streamsAt f job + t)
    exact ⟨u - streamsAt f job, by omega, by rwa [Nat.add_sub_cancel' (by omega)]⟩
  have busy := run.busy_drain fill (T := T) before (by rw [calmedAt_add]; exact last)
  -- a word that was asked for before was granted then
  obtain ⟨k, count, _, stalled, asking⟩ := drain.last_word before last
  have streams : streamsAt f job = f + 1 + 2 + (job.m + job.n + job.n) := rfl
  have prompt : (MacDma.after (calmedAt s₀ ins job b (streamsAt f job))
      (fun u => calmedInputs s₀ ins job b (streamsAt f job + u)) (T - 1)).dma.mReqO = false := by
    apply Bool.eq_false_of_not_eq_true
    intro up
    have refused := stalled up
    have here := busy (streamsAt f job + (T - 1)) (by omega)
    have agrees : calmedAt s₀ ins job b (streamsAt f job + (T - 1)) =
        pairAt s₀ ins (streamsAt f job + (T - 1)) :=
      calmedAt_eq job run.grants fun _ low => here.earlier low.le
    rw [← calmedAt_add, agrees] at up
    have asks : (dmaAt s₀ ins (streamsAt f job + (T - 1))).mReqO = true := up
    obtain ⟨write, within⟩ := run.request fill (Nat.le_add_right _ _)
      (fun _ low => here.earlier low.le) asks
    have grant := run.memory.prompt _
      (here _ (by have := fill.long; omega) (le_refl _)) asks write within
    rw [calmedInputs, if_pos here, pairInputsAt, grant] at refused
    cases refused
  rw [prompt] at asking
  refine ⟨T, drain.complete before last prompt, busy _ (le_refl _), drain.last_late before last, ?_⟩
  have marked := asking.last
  rw [← calmedAt_add, calmedAt_eq job run.grants fun _ low => busy _ low.le] at marked
  exact marked.trans (by simp [count])

/-- Before the drain memory is as it was at the start. -/
theorem mem_waiting : mem (streamsAt f job) = mem (b + 1) := by
  have long := fill.long
  have streams : streamsAt f job = f + 1 + 2 + (job.m + job.n + job.n) := rfl
  obtain ⟨T, grant⟩ := run.last_grant fill
  have busy := grant.busy
  have still : ∀ t, f + 1 ≤ t → t ≤ streamsAt f job → mem t = mem (f + 1) := by
    intro t low
    induction t, low using Nat.le_induction with
    | base =>
        intro _
        rfl
    | succ t low ih =>
        intro upto
        have waits := run.calmed_waiting fill t low (by omega)
        rw [calmedAt_eq job run.grants fun _ before => busy.earlier (by omega)] at waits
        have none : memWriteAt s₀ ins t = none := by
          have down : (dmaAt s₀ ins t).mReqO = false := waits.down
          simp [memWriteAt, down]
        rw [run.memory.stores t (busy t (by omega) (by omega)) (by simp [none]), none,
          ← ih (by omega)]
        rfl
  rw [still (streamsAt f job) (by omega) (le_refl _)]
  exact run.mem_fill fill (f + 1) (by omega) (le_refl _)

/-- In the drain it is the replay of the pair's writes. -/
theorem mem_drain {T : ℕ} (busy : Busy s₀ ins b (streamsAt f job + T)) :
    ∀ u, u ≤ T + 1 → mem (streamsAt f job + u) = replay (mem (b + 1))
      (Clocked.window (fun v => (MacDma.memWrite
        (MacDma.after (calmedAt s₀ ins job b (streamsAt f job))
          (fun w => calmedInputs s₀ ins job b (streamsAt f job + w)) v)
        (calmedInputs s₀ ins job b (streamsAt f job + v))).map (storeAt cell)) 0 u) := by
  have drain := run.drain fill
  have long := fill.long
  have streams : streamsAt f job = f + 1 + 2 + (job.m + job.n + job.n) := rfl
  intro u
  induction u with
  | zero =>
      intro _
      exact run.mem_waiting fill
  | succ u ih =>
      intro upto
      have here := busy.earlier (show streamsAt f job + u ≤ streamsAt f job + T by omega)
      have agrees : calmedAt s₀ ins job b (streamsAt f job + u) =
          pairAt s₀ ins (streamsAt f job + u) :=
        calmedAt_eq job run.grants fun _ low => here.earlier low.le
      have same : MacDma.memWrite (MacDma.after (calmedAt s₀ ins job b (streamsAt f job))
          (fun w => calmedInputs s₀ ins job b (streamsAt f job + w)) u)
          (calmedInputs s₀ ins job b (streamsAt f job + u)) =
          memWriteAt s₀ ins (streamsAt f job + u) := by
        rw [← calmedAt_add, agrees, calmedInputs, if_pos here]
        exact memWrite_pair (run.grants _)
      have within : ∀ w, memWriteAt s₀ ins (streamsAt f job + u) = some w → inside w.1 := by
        intro w written
        rw [← same] at written
        rcases drain.only u w written with acted | ⟨v, -, acted⟩
        · obtain ⟨j, low, rfl⟩ := drain.word_of_wordWrite acted
          exact run.fits.resInside j low
        · obtain ⟨j, low, rfl⟩ := drain.word_of_wordWrite acted
          exact run.fits.resInside j low
      rw [← Nat.add_assoc, run.memory.stores _ (here _ (by omega) (le_refl _)) within,
        Clocked.window_succ, replay_append, ← ih (by omega), Nat.zero_add, same]

/-- The operands of a job are those its ledger has fetched. -/
theorem history_end (e : ℕ) (late : f + 1 ≤ e) (busy : ∀ u < e, Busy s₀ ins b u) :
    MacCoreAxi.wgtBeats (coreInputsAt s₀ ins) e =
        MacCoreAxi.wgtBeats (coreInputsAt s₀ ins) (f + 1) ∧
      MacCoreAxi.actBeats (coreInputsAt s₀ ins) e =
        MacCoreAxi.actBeats (coreInputsAt s₀ ins) (f + 1) := by
  have silent (ch : Channel) (u : ℕ) (low : f + 1 ≤ u) (high : u < f + 1 + (e - (f + 1))) :
      ch.beat (dmaAt s₀ ins u) = none := by
    obtain ⟨-, silent⟩ := run.calmed_past fill u low
    rw [calmedAt_eq job run.grants fun v before => busy v (by omega)] at silent
    exact silent ch
  have upto (ch : Channel) : Clocked.window (fun u => ch.beat (dmaAt s₀ ins u)) 0 e =
      Clocked.window (fun u => ch.beat (dmaAt s₀ ins u)) 0 (f + 1) := by
    rw [show e = f + 1 + (e - (f + 1)) by omega, Clocked.window_add, Nat.zero_add,
      Clocked.window_none (silent ch), List.append_nil]
  exact ⟨upto .wgt, upto .act⟩

/-- At the end memory is as at the start but for what the drain has written. -/
theorem mem_end {T : ℕ} (grant : LastGrant s₀ ins job b f T) :
    mem (streamsAt f job + T + 1) = replay (mem (b + 1)) ((List.range job.n).map fun k =>
      Write.store (cell (wordAddr job.resBase k))
        (MacDma.resWord (calmedAt s₀ ins job b (streamsAt f job)).core.resBuf k)) := by
  have drain := run.drain fill
  rw [Nat.add_assoc, run.mem_drain fill grant.busy (T + 1) (le_refl _)]
  refine (drain.replay_eq cell (mem (b + 1)) (T + 1)).trans ?_
  rw [grant.complete.words, List.map_map]
  rfl

/-- The job ends in the cycle after its last grant. -/
theorem completed {T : ℕ} (grant : LastGrant s₀ ins job b f T) :
    Completed cell mem s₀ ins ⟨mem (b + 1), weights, activations⟩ job b
      (streamsAt f job + T + 1) := by
  have busy := grant.busy
  have complete := grant.complete
  have drain := run.drain fill
  have long := fill.long
  have streams : streamsAt f job = f + 1 + 2 + (job.m + job.n + job.n) := rfl
  have finished := drain.finished complete
  rw [← calmedAt_add, ← Nat.add_assoc, run.calmedAt_succ busy] at finished
  have before : ∀ u < streamsAt f job + T + 1, Busy s₀ ins b u :=
    fun u low => busy.earlier (Nat.le_of_lt_succ low)
  obtain ⟨wgt, act⟩ := run.history_end fill (streamsAt f job + T + 1) (by omega) before
  obtain ⟨weights', activations'⟩ := run.operands fill
  refine ⟨by omega, ?_, ⟨finished.phase, ?_, ?_, ?_, ?_, ?_⟩, ?_, ?_, finished.resDone,
    finished.notBusy⟩
  · intro u low high
    exact busy u low (by omega)
  · have idle := finished.core.phase
    rw [if_neg (Nat.lt_irrefl _)] at idle
    exact idle
  · intro ch
    obtain ⟨-, silent⟩ := run.calmed_past fill (streamsAt f job + T + 1) (by omega)
    rw [run.calmedAt_succ busy] at silent
    exact silent ch
  · intro _ _
    exact run.launched fill _ (by omega) busy
  · rw [wgt, weights']
    rfl
  · rw [act, activations']
    rfl
  · intro a other
    rw [run.mem_end fill grant]
    apply replay_frame
    intro w member
    obtain ⟨k, low, rfl⟩ := List.mem_map.mp member
    exact other k (List.mem_range.mp low)
  · intro settled
    rw [run.mem_end fill grant, Ledger.run, Ledger.writes]
    congr 1
    apply List.map_congr_left
    intro k member
    rw [run.resWord_eq fill settled (List.mem_range.mp member)]

/-- Once its rows are fed, core 0 is past the feed. -/
theorem past_feed {T : ℕ} (grant : LastGrant s₀ ins job b f T) :
    MacCoreAxi.PastFeed (coreAt s₀ ins (f + 3 + job.m)) := by
  have streams : streamsAt f job = f + 1 + 2 + (job.m + job.n + job.n) := rfl
  have phase := ((run.scheduled fill).drain_phase 0 run.fits.n_pos).1
  rw [← calmedAt_core, Nat.add_zero, calmedAt_eq job run.grants fun u low =>
    grant.busy.earlier (by omega)] at phase
  have drain : (coreAt s₀ ins (f + 3 + job.m)).state = .drain := phase
  exact ⟨by rw [drain]; decide, by rw [drain]; decide⟩

omit fill in
/-- **A job is carried out.**  Started at rest, with its registers held while the engine is
at work, it comes to its end, and the accelerator rests again. -/
theorem carried_out :
    ∃ e, Completed cell mem s₀ ins ⟨mem (b + 1), weights, activations⟩ job b e := by
  obtain ⟨f, fill⟩ := run.filled
  obtain ⟨T, grant⟩ := run.last_grant fill
  exact ⟨_, run.completed fill grant⟩

end JobRun

end MiniMac.System
