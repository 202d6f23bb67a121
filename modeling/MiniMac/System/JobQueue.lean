/-
# System.JobQueue -- one job after another

Software starts a job whenever it finds the engine idle and holds its registers until
the engine is idle again.  Every job of such a queue is carried out, over the memory
of its start and behind the operands of all jobs before it.

Its results are the sums of its operands if the rows of the job before have left the array
by the launch, for which there is room in all but the shortest jobs (`Room`).

The operands do not make way for each other: the write pointers of the cores go on
where the last job left them.  Jobs that fill the whole array share the ring in turns,
and only the first of a round is computed with its own operands (`queue_operands`).
-/
import MiniMac.System.JobBench
import MiniMac.System.JobRun
import MiniMac.Accel.ResultDrain

namespace MiniMac.System

open MiniMac.Theory MiniMac.Accel
open MiniMac.Accel.AxiStreamDma (Channel)

set_option autoImplicit false

variable {rows cols : ℕ} {Cell : Type}

/-! ## Between two jobs -/

section Between

variable {s₀ : MacSubsystem.State rows cols 8} {ins : ℕ → MacSubsystem.Inputs}
variable {weights activations : List (BitVec 32)} {t : ℕ}

theorem Rest.noLaunch (rest : Rest s₀ ins weights activations t) :
    coreLaunchAt s₀ ins t = false := by
  rw [coreLaunchAt_eq]
  cases wgt : (dmaAt s₀ ins t).wgtDoneO with
  | false => simp
  | true =>
      cases act : (dmaAt s₀ ins t).actDoneO with
      | false => simp
      | true => simp [rest.launched wgt act]

/-- Without a start the accelerator goes on resting. -/
theorem Rest.stay (steady : AxiStreamDma.Steady (dmaAt s₀ ins) (dmaInputsAt s₀ ins))
    (rest : Rest s₀ ins weights activations t) (noStart : (regsAt s₀ ins t).startO = false) :
    Rest s₀ ins weights activations (t + 1) := by
  have engine := (steady.next t).trans
    (AxiStreamDma.step_idle (steady.noAbort t) rest.engine noStart)
  have noLaunch := launchAt_none s₀ ins rest.noLaunch
  refine ⟨?_, ?_, ?_, ?_, ?_, ?_⟩
  · rw [engine]
    exact rest.engine
  · have next : coreAt s₀ ins (t + 1) =
        MacCoreAxi.step (coreAt s₀ ins t) (coreInputsAt s₀ ins t) := rfl
    have launch : (coreInputsAt s₀ ins t).coreStartI = false := noLaunch
    rw [next, MacCoreAxi.step_idle rest.core]
    simp [launch]
  · intro ch
    exact steady.silent (rest.engine ▸ AxiStreamDma.Channel.idle_ne_wait)
  · intro wgt act
    rw [engine] at wgt act
    rw [coreLaunchedR_succ, noStart, rest.launched wgt act]
    simp
  · have none : MacCoreAxi.wgtBeat (coreInputsAt s₀ ins t) = none := rest.silent .wgt
    rw [MacCoreAxi.wgtBeats_succ, none, rest.weights]
    exact List.append_nil _
  · have none : MacCoreAxi.actBeat (coreInputsAt s₀ ins t) = none := rest.silent .act
    rw [MacCoreAxi.actBeats_succ, none, rest.activations]
    exact List.append_nil _

theorem Rest.until (steady : AxiStreamDma.Steady (dmaAt s₀ ins) (dmaInputsAt s₀ ins))
    (rest : Rest s₀ ins weights activations t) {u : ℕ} (later : t ≤ u) :
    (∀ v, t ≤ v → v < u → (regsAt s₀ ins v).startO = false) →
      Rest s₀ ins weights activations u := by
  induction u, later using Nat.le_induction with
  | base =>
      intro _
      exact rest
  | succ u later ih =>
      intro quiet
      have before := ih fun v low high => quiet v low (by omega)
      exact before.stay steady (quiet u later (Nat.lt_succ_self u))

/-- Without a write the registers stay but for the pulses and the done flag. -/
theorem regsAt_until (P : MacCfgRegs.State → Prop)
    (keeps : ∀ r i, P r → P (MacCfgRegs.defaults r i)) {a : ℕ} (here : P (regsAt s₀ ins a))
    (later : a ≤ t) : (∀ u, a ≤ u → u < t → MacCfgRegs.writes (regsInputsAt s₀ ins u) = false) →
      P (regsAt s₀ ins t) := by
  induction t, later using Nat.le_induction with
  | base =>
      intro _
      exact here
  | succ t later ih =>
      intro quiet
      have next : regsAt s₀ ins (t + 1) =
          MacCfgRegs.defaults (regsAt s₀ ins t) (regsInputsAt s₀ ins t) :=
        MacCfgRegs.step_quiet (quiet t later (Nat.lt_succ_self t))
      rw [next]
      exact keeps _ _ (ih fun u low high => quiet u low (Nat.lt_succ_of_lt high))

/-- So they go on asking for the job. -/
theorem Configured.until {job : JobConfig} {a : ℕ} (config : Configured job (regsAt s₀ ins a))
    (later : a ≤ t)
    (quiet : ∀ u, a ≤ u → u < t → MacCfgRegs.writes (regsInputsAt s₀ ins u) = false) :
    Configured job (regsAt s₀ ins t) :=
  regsAt_until (Configured job) (fun _ _ asks => ⟨asks.wgtBase, asks.actBase, asks.resBase,
    asks.lenWgt, asks.lenAct, asks.dimM, asks.dimN, asks.enabled⟩) config later quiet

end Between

/-! ## Queues -/

/-- `n` jobs, of which job `k` is started in cycle `b k`: no other start comes before the
last of them, the engine is idle at each, and the registers are held while it is at work. -/
structure Schedule (inside : BitVec 32 → Prop) (s₀ : MacSubsystem.State rows cols 8)
    (ins : ℕ → MacSubsystem.Inputs) (n : ℕ) (jobs : ℕ → JobConfig) (b : ℕ → ℕ) : Prop where
  fits : ∀ k < n, (jobs k).Fits cols inside
  order : ∀ j k, j < k → k < n → b j < b k
  start : ∀ k < n, (regsAt s₀ ins (b k)).startO = true
  only : ∀ k < n, ∀ t < b k, (regsAt s₀ ins t).startO = true → ∃ j < k, t = b j
  idle : ∀ k < n, (dmaAt s₀ ins (b k)).state = .idle
  config : ∀ k < n, Configured (jobs k) (regsAt s₀ ins (b k))
  held : ∀ k < n, ∀ t, b k < t → Busy s₀ ins (b k) t →
    (regsAt s₀ ins t).startO = false ∧ Configured (jobs k) (regsAt s₀ ins t)

/-- At its launch job `k` finds the array at rest: it is the first, or the job before was wide,
or its own fill is long, or the engine had been idle for some time when it was started. -/
def Room (s₀ : MacSubsystem.State rows cols 8) (ins : ℕ → MacSubsystem.Inputs)
    (jobs : ℕ → JobConfig) (b : ℕ → ℕ) : ℕ → Prop
  | 0 => True
  | k + 1 => ∃ i, b k < i ∧ (dmaAt s₀ ins i).state = .idle ∧
      rows + i ≤ b (k + 1) + 5 * (jobs k).n + (jobs (k + 1)).wgtWords +
        (jobs (k + 1)).actWords + 7

namespace Schedule

variable {inside : BitVec 32 → Prop} {s₀ : MacSubsystem.State rows cols 8}
variable {ins : ℕ → MacSubsystem.Inputs} {n : ℕ} {jobs : ℕ → JobConfig} {b : ℕ → ℕ}
variable (schedule : Schedule inside s₀ ins n jobs b)

include schedule

/-- Nothing starts before the first job. -/
theorem noStart_before (within : 0 < n) {t : ℕ} (before : t < b 0) :
    (regsAt s₀ ins t).startO = false := by
  by_contra start
  obtain ⟨j, none, -⟩ := schedule.only 0 within t before (by simpa using start)
  exact absurd none (Nat.not_lt_zero j)

/-- Nothing starts between two jobs. -/
theorem noStart_between {k : ℕ} (within : k + 1 < n) {t : ℕ} (later : b k < t)
    (before : t < b (k + 1)) : (regsAt s₀ ins t).startO = false := by
  by_contra start
  obtain ⟨j, low, rfl⟩ := schedule.only (k + 1) within t before (by simpa using start)
  rcases Nat.lt_succ_iff_lt_or_eq.mp low with less | rfl
  · have order := schedule.order j k less (by omega)
    omega
  · omega

omit schedule in
/-- Two jobs with the only two starts, where the first has ended by cycle `e`. -/
theorem pair (fits : ∀ k < 2, (jobs k).Fits cols inside)
    (pulse : ∀ t, (regsAt s₀ ins t).startO = decide (t = b 0 ∨ t = b 1)) {e : ℕ}
    (later : b 0 < e) (order : e ≤ b 1) (ended : (dmaAt s₀ ins e).state = .idle)
    (idle : ∀ k < 2, (dmaAt s₀ ins (b k)).state = .idle)
    (first : ∀ t, b 0 ≤ t → t ≤ e → Configured (jobs 0) (regsAt s₀ ins t))
    (second : ∀ t, b 1 ≤ t → Configured (jobs 1) (regsAt s₀ ins t)) :
    Schedule inside s₀ ins 2 jobs b := by
  have which : ∀ k < 2, k = 0 ∨ k = 1 := by omega
  refine ⟨fits, ?_, ?_, ?_, idle, ?_, ?_⟩
  · intro j k less within
    obtain ⟨rfl, rfl⟩ : j = 0 ∧ k = 1 := by omega
    omega
  · intro k within
    rw [pulse]
    obtain rfl | rfl := which k within
    · exact decide_eq_true (.inl rfl)
    · exact decide_eq_true (.inr rfl)
  · intro k within t before start
    rw [pulse, decide_eq_true_eq] at start
    obtain rfl | rfl := which k within
    · omega
    · exact ⟨0, Nat.one_pos, by omega⟩
  · intro k within
    obtain rfl | rfl := which k within
    · exact first _ (le_refl _) later.le
    · exact second _ (le_refl _)
  · intro k within t behind busy
    rw [pulse]
    obtain rfl | rfl := which k within
    · -- the first job is no longer at work in cycle `e`
      have upto : t < e := by
        by_contra late
        exact busy e later (by omega) ended
      exact ⟨decide_eq_false (by omega), first t behind.le upto.le⟩
    · exact ⟨decide_eq_false (by omega), second t behind.le⟩

end Schedule

variable [DecidableEq Cell]

/-- Such jobs over a memory. -/
structure JobQueue (latency : ℕ) (inside : BitVec 32 → Prop) (cell : BitVec 32 → Cell)
    (mem : ℕ → Cell → BitVec 32) (s₀ : MacSubsystem.State rows cols 8)
    (ins : ℕ → MacSubsystem.Inputs) (n : ℕ) (jobs : ℕ → JobConfig) (b : ℕ → ℕ) : Prop
    extends Schedule inside s₀ ins n jobs b where
  memory : OnMemory s₀ ins latency inside cell mem

/-- The words a job streams down the weight stream. -/
def jobWeights (cell : BitVec 32 → Cell) (mem : ℕ → Cell → BitVec 32) (jobs : ℕ → JobConfig)
    (b : ℕ → ℕ) (k : ℕ) : List (BitVec 32) :=
  wordsFrom cell (mem (b k + 1)) (jobs k).wgtBase (jobs k).wgtWords

def jobActivations (cell : BitVec 32 → Cell) (mem : ℕ → Cell → BitVec 32) (jobs : ℕ → JobConfig)
    (b : ℕ → ℕ) (k : ℕ) : List (BitVec 32) :=
  wordsFrom cell (mem (b k + 1)) (jobs k).actBase (jobs k).actWords

/-- The ledger with which job `k` starts. -/
def ledgerAt (cell : BitVec 32 → Cell) (mem : ℕ → Cell → BitVec 32) (jobs : ℕ → JobConfig)
    (b : ℕ → ℕ) (k : ℕ) : Ledger Cell where
  mem := mem (b k + 1)
  weights := (List.range k).flatMap (jobWeights cell mem jobs b)
  activations := (List.range k).flatMap (jobActivations cell mem jobs b)

theorem ledgerAt_succ (rows cols : ℕ) (cell : BitVec 32 → Cell) (mem : ℕ → Cell → BitVec 32)
    (jobs : ℕ → JobConfig) (b : ℕ → ℕ) (k : ℕ) :
    ((ledgerAt cell mem jobs b k).run cell rows cols (jobs k)).weights =
        (ledgerAt cell mem jobs b (k + 1)).weights ∧
      ((ledgerAt cell mem jobs b k).run cell rows cols (jobs k)).activations =
        (ledgerAt cell mem jobs b (k + 1)).activations := by
  simp [ledgerAt, Ledger.run, Ledger.fetch, List.range_succ, List.flatMap_append, jobWeights,
    jobActivations]

namespace JobQueue

variable {latency : ℕ} {inside : BitVec 32 → Prop} {cell : BitVec 32 → Cell}
variable {mem : ℕ → Cell → BitVec 32} {s₀ : MacSubsystem.State rows cols 8}
variable {ins : ℕ → MacSubsystem.Inputs} {n : ℕ} {jobs : ℕ → JobConfig} {b : ℕ → ℕ}
variable (queue : JobQueue latency inside cell mem s₀ ins n jobs b)

include queue

theorem run_of_rest {k : ℕ} (within : k < n)
    (rest : Rest s₀ ins (ledgerAt cell mem jobs b k).weights
      (ledgerAt cell mem jobs b k).activations (b k)) :
    JobRun latency inside cell mem s₀ ins (ledgerAt cell mem jobs b k).weights
      (ledgerAt cell mem jobs b k).activations (jobs k) (b k) where
  memory := queue.memory
  fits := queue.fits k within
  rest := rest
  start := queue.start k within
  config := queue.config k within
  held := queue.held k within

/-- Each job starts at rest, behind the operands of those before it. -/
theorem rest_at (k : ℕ) (within : k < n) :
    Rest s₀ ins (ledgerAt cell mem jobs b k).weights (ledgerAt cell mem jobs b k).activations
      (b k) := by
  have steady := queue.memory.served.steady
  induction k with
  | zero =>
      exact (rest_reset s₀ ins).until steady (Nat.zero_le _) fun t _ before =>
        queue.noStart_before within before
  | succ k ih =>
      have earlier : k < n := by omega
      obtain ⟨e, ended⟩ := (queue.run_of_rest earlier (ih earlier)).carried_out
      have rest := ended.rest
      obtain ⟨wgt, act⟩ := ledgerAt_succ rows cols cell mem jobs b k
      have order := queue.order k (k + 1) (Nat.lt_succ_self k) within
      -- the next start finds the engine idle, so it does not come before the end
      have upto : e ≤ b (k + 1) := by
        by_contra early
        exact ended.busy (b (k + 1)) order (by omega) (queue.idle (k + 1) within)
      rw [← wgt, ← act]
      exact rest.until steady upto fun t low before =>
        queue.noStart_between within (Nat.lt_of_lt_of_le ended.later low) before

/-! ## The array at rest -/

omit queue in
/-- The array is at rest at a launch for which core 0 has been past its feed for long. -/
theorem settled_of_past {weights activations : List (BitVec 32)} {job : JobConfig} {s f a : ℕ}
    (run : JobRun latency inside cell mem s₀ ins weights activations job s)
    (fill : Filled s₀ ins job s f) (past : MacCoreAxi.PastFeed (coreAt s₀ ins a))
    (none : ∀ t, a ≤ t → t < s → coreLaunchAt s₀ ins t = false)
    (early : ∀ t, f + 3 ≤ t + rows → a ≤ t) : Settled s₀ ins s := by
  intro l from_ busy launched t before recent
  obtain rfl := (run.launch_iff fill from_ busy).mp launched
  rw [coreAt_eq] at past ⊢
  refine (MacCoreAxi.past_feed_until _ _ (b := f + 1) past (fun u low high => ?_) t
    (early t recent) before.le).notFeeding
  rcases Nat.lt_or_ge u s with outside | inside
  · exact launchAt_none s₀ ins (none u low outside)
  · exact launchAt_none s₀ ins (run.noLaunch fill u inside (Nat.le_of_lt_succ high))

/-- The first job finds the array as reset. -/
theorem settled_first (within : 0 < n) : Settled s₀ ins (b 0) := by
  have steady := queue.memory.served.steady
  have run := queue.run_of_rest within (queue.rest_at 0 within)
  obtain ⟨f, fill⟩ := run.filled
  have idle : (coreAt s₀ ins 0).state = .idle := rfl
  refine settled_of_past (a := 0) run fill ?_ (fun t _ before => ?_) fun t _ => Nat.zero_le t
  · exact ⟨by rw [idle]; decide, by rw [idle]; decide⟩
  · exact ((rest_reset s₀ ins).until steady (Nat.zero_le t) fun u _ low =>
      queue.noStart_before within (Nat.lt_trans low before)).noLaunch

/-- A later job finds the rows of the one before gone. -/
theorem settled_next {k i : ℕ} (within : k + 1 < n) (later : b k < i)
    (idle : (dmaAt s₀ ins i).state = .idle)
    (room : rows + i ≤ b (k + 1) + 5 * (jobs k).n + (jobs (k + 1)).wgtWords +
      (jobs (k + 1)).actWords + 7) : Settled s₀ ins (b (k + 1)) := by
  have steady := queue.memory.served.steady
  have earlier : k < n := by omega
  have run := queue.run_of_rest earlier (queue.rest_at k earlier)
  obtain ⟨f, fill⟩ := run.filled
  obtain ⟨T, grant⟩ := run.last_grant fill
  have ended := run.completed fill grant
  have next := queue.run_of_rest within (queue.rest_at (k + 1) within)
  obtain ⟨f', fill'⟩ := next.filled
  have streams : streamsAt f (jobs k) = f + 1 + 2 + ((jobs k).m + (jobs k).n + (jobs k).n) := rfl
  have long := fill.long
  have long' := fill'.long
  have pace := grant.late
  -- the engine is idle again behind the end of the job before
  have ends : streamsAt f (jobs k) + T + 1 ≤ i := by
    by_contra early
    exact ended.busy i later (by omega) idle
  refine settled_of_past next fill' (run.past_feed fill grant) (fun t low before => ?_) fun t
    recent => by omega
  rcases Nat.lt_or_ge t (streamsAt f (jobs k) + T + 1) with open_ | closed
  · refine eq_false_of_ne_true fun launched => ?_
    have launch := (run.coreLaunch_iff fill (by omega)
      (grant.busy.earlier (Nat.le_of_lt_succ open_))).mp launched
    omega
  · exact (ended.rest.until steady closed fun u low' high =>
      queue.noStart_between within (Nat.lt_of_lt_of_le ended.later low')
        (Nat.lt_trans high before)).noLaunch

/-- **With room a job finds the array at rest.** -/
theorem settled {k : ℕ} (within : k < n) (room : Room s₀ ins jobs b k) :
    Settled s₀ ins (b k) := by
  cases k with
  | zero => exact queue.settled_first within
  | succ k =>
      obtain ⟨i, later, idle, enough⟩ := room
      exact queue.settled_next within later idle enough

end JobQueue

/-! ## Two jobs of a 4 by 4 core -/

/-- The weight length is written, then a start; much later the weight base, CORE_EN and another
start.  The other registers are as reset. -/
def quadWrites (t : ℕ) : PortInputs where
  paddr := if t = 0 then 0x2C else if t = 100 then 0x20 else if t = 101 then 0x10 else 0
  psel := decide (t < 2 ∨ 100 ≤ t ∧ t < 103)
  penable := decide (t < 2 ∨ 100 ≤ t ∧ t < 103)
  pwrite := decide (t < 2 ∨ 100 ≤ t ∧ t < 103)
  pwdata := if t = 0 then 64 else if t = 100 then 0x10000100 else 1

/-- An accelerator with blank cores. -/
def quadMac : MacSubsystem.State 4 4 8 where
  multicore := MacMulticore.reset
  core0 := MacCoreAxi.blank
  core1 := MacCoreAxi.blank
  core2 := MacCoreAxi.blank
  core3 := MacCoreAxi.blank
  dma := MacDma.waitingEngine

/-- The second job has weights of its own. -/
def quadJobs (k : ℕ) : JobConfig where
  wgtBase := if k = 0 then 0x10000000 else 0x10000100
  actBase := 0x10001000
  resBase := 0x10002000
  wgtWords := 16
  actWords := 4
  m := 4
  n := 4

def quadStarts (k : ℕ) : ℕ := if k = 0 then 2 else 103

/-- Each word of memory holds its own index. -/
def quadIns : ℕ → MacSubsystem.Inputs :=
  JobBench.macIns quadMac (fun index => index.setWidth 32) quadWrites

def quadMem : ℕ → BitVec 30 → BitVec 32 :=
  JobBench.memAt quadMac (fun index => index.setWidth 32) quadWrites

theorem quad_quiet (t : ℕ) (apart : ¬ (t < 2 ∨ 100 ≤ t ∧ t < 103)) :
    MacCfgRegs.writes (regsInputsAt quadMac quadIns t) = false := by
  have idle : (regsInputsAt quadMac quadIns t).psel = false := decide_eq_false apart
  simp [MacCfgRegs.writes, idle]

/-- The first job has long ended when the second is configured. -/
theorem quad_idle : ∀ t < 4, (dmaAt quadMac quadIns (100 + t)).state = .idle := by
  decide +kernel

theorem quad_first (t : ℕ) (later : 2 ≤ t) (upto : t ≤ 100) :
    Configured (quadJobs 0) (regsAt quadMac quadIns t) := by
  have config : Configured (quadJobs 0) (regsAt quadMac quadIns 2) :=
    ⟨rfl, rfl, rfl, rfl, rfl, rfl, rfl, rfl⟩
  exact config.until later fun u low high => quad_quiet u (by omega)

theorem quad_second (t : ℕ) (later : 103 ≤ t) :
    Configured (quadJobs 1) (regsAt quadMac quadIns t) := by
  have written : (regsAt quadMac quadIns 103).wgtBaseO = 0x10000100 ∧
      (regsAt quadMac quadIns 103).actBaseO = 0x10001000 ∧
      (regsAt quadMac quadIns 103).resBaseO = 0x10002000 ∧
      (regsAt quadMac quadIns 103).dmaLenWgtO = 64 ∧
      (regsAt quadMac quadIns 103).dmaLenActO = 16 ∧
      (regsAt quadMac quadIns 103).dimMO = 4 ∧ (regsAt quadMac quadIns 103).dimNO = 4 ∧
      (regsAt quadMac quadIns 103).coreEnO = 1 := by
    decide +kernel
  obtain ⟨wgtBase, actBase, resBase, lenWgt, lenAct, dimM, dimN, mask⟩ := written
  have config : Configured (quadJobs 1) (regsAt quadMac quadIns 103) :=
    ⟨wgtBase, actBase, resBase, lenWgt, lenAct, dimM, dimN, by rw [mask]; rfl⟩
  exact config.until later fun u low high => quad_quiet u (by omega)

/-- The start pulse is up twice. -/
theorem quad_startO (t : ℕ) :
    (regsAt quadMac quadIns t).startO = decide (t = 2 ∨ t = 103) := by
  cases t with
  | zero => rfl
  | succ t =>
      have pulse : (regsAt quadMac quadIns (t + 1)).startO =
          MacCfgRegs.startsJob (regsInputsAt quadMac quadIns t) := MacCfgRegs.step_startO _ _
      rw [pulse]
      by_cases written : t < 2 ∨ 100 ≤ t ∧ t < 103
      · obtain rfl | rfl | rfl | rfl | rfl : t = 0 ∨ t = 1 ∨ t = 100 ∨ t = 101 ∨ t = 102 := by
          omega
        · rfl
        · rfl
        · rfl
        · rfl
        · rfl
      · rw [MacCfgRegs.startsJob, quad_quiet t written, decide_eq_false (by omega)]
        rfl

theorem quad_schedule : Schedule (fun _ => True) quadMac quadIns 2 quadJobs quadStarts := by
  refine Schedule.pair (e := 100) (fun _ _ => ?_) quad_startO (show 2 < 100 by decide)
    (show 100 ≤ 103 by decide) (quad_idle 0 (by decide)) (fun k within => ?_) quad_first quad_second
  · refine ⟨?_, ?_, ?_, ?_, ?_, ?_, ?_, fun _ _ => trivial, fun _ _ => trivial, fun _ _ => trivial⟩
    all_goals
      dsimp only [quadJobs]
      decide
  · obtain rfl | rfl : k = 0 ∨ k = 1 := by omega
    · rfl
    · exact quad_idle 3 (by decide)

theorem quad_queue : JobQueue 1 (fun _ => True) wordIndex quadMem quadMac quadIns 2 quadJobs
    quadStarts :=
  ⟨quad_schedule, JobBench.onMemory quadMac _ quadWrites⟩

/-! ## Every job -/

/-- **Every job of a queue comes to its end**, over the memory of its start and behind the
operands of all jobs before it; where there is room, with the sums of what the buffers hold. -/
theorem queue_carried_out {latency : ℕ} {inside : BitVec 32 → Prop} {cell : BitVec 32 → Cell}
    {mem : ℕ → Cell → BitVec 32} {s₀ : MacSubsystem.State rows cols 8}
    {ins : ℕ → MacSubsystem.Inputs} {n : ℕ} {jobs : ℕ → JobConfig} {b : ℕ → ℕ}
    (queue : JobQueue latency inside cell mem s₀ ins n jobs b) (k : ℕ) (within : k < n) :
    (Room s₀ ins jobs b k → Settled s₀ ins (b k)) ∧
      ∃ e, Completed cell mem s₀ ins (ledgerAt cell mem jobs b k) (jobs k) (b k) e :=
  ⟨queue.settled within, (queue.run_of_rest within (queue.rest_at k within)).carried_out⟩

/-- The second job of the 4 by 4 core, behind the operands of the first. -/
theorem quad_carried_out :
    ∃ e, 103 < e ∧ quadMem e =
      ((ledgerAt wordIndex quadMem quadJobs quadStarts 1).run wordIndex 4 4 (quadJobs 1)).mem := by
  obtain ⟨settled, e, ended⟩ := queue_carried_out quad_queue 1 (by decide)
  refine ⟨e, ended.later, ended.mem (settled ?_)⟩
  exact ⟨103, show 2 < 103 by decide, quad_idle 3 (by decide), by decide⟩

/-! ## Whose operands a job uses -/

/-- A weight of job `j`, as memory holds it at the job's start. -/
def ownWeight (cell : BitVec 32 → Cell) (mem : ℕ → Cell → BitVec 32) (jobs : ℕ → JobConfig)
    (b : ℕ → ℕ) (j : ℕ) (r : Fin rows) (c : Fin cols) : BitVec 8 :=
  (mem (b j + 1) (cell (wordAddr (jobs j).wgtBase (r * cols + c)))).setWidth 8

def ownActivation (cell : BitVec 32 → Cell) (mem : ℕ → Cell → BitVec 32) (jobs : ℕ → JobConfig)
    (b : ℕ → ℕ) (j : ℕ) (r : Fin rows) : BitVec 8 :=
  (mem (b j + 1) (cell (wordAddr (jobs j).actBase r))).setWidth 8

omit [DecidableEq Cell] in
/-- What the buffers hold behind `k + 1` jobs that each fill the array. -/
theorem held_operands (cell : BitVec 32 → Cell) (mem : ℕ → Cell → BitVec 32)
    {jobs : ℕ → JobConfig} (b : ℕ → ℕ) {k p q : ℕ} (wgtTurns : 4096 = rows * cols * p)
    (actTurns : 4096 = rows * q)
    (whole : ∀ j ≤ k, (jobs j).wgtWords = rows * cols ∧ (jobs j).actWords = rows) :
    (∀ (r : Fin rows) (c : Fin cols),
      MacCoreAxi.heldWeight cols 8 (ledgerAt cell mem jobs b (k + 1)).weights r c =
        ownWeight cell mem jobs b (p * (k / p)) r c) ∧
    ∀ r : Fin rows, MacCoreAxi.heldActivation 8 (ledgerAt cell mem jobs b (k + 1)).activations r =
      ownActivation cell mem jobs b (q * (k / q)) r := by
  constructor
  · intro r c
    have inside := MacCoreAxi.position_lt r c
    have turns : 0 < p := by
      by_contra none
      rw [Nat.eq_zero_of_not_pos none] at wgtTurns
      cases wgtTurns
    have first : p * (k / p) ≤ k := Nat.mul_div_le k p
    rw [MacCoreAxi.heldWeight, ledgerAt, ringSlot_blocks (jobWeights cell mem jobs b) wgtTurns
      (fun j upto => by rw [jobWeights, wordsFrom_length, (whole j upto).1]) inside turns,
      jobWeights, wordsFrom_getD _ _ _ (by rw [(whole _ first).1]; exact inside)]
    rfl
  · intro r
    have turns : 0 < q := by
      by_contra none
      rw [Nat.eq_zero_of_not_pos none] at actTurns
      cases actTurns
    have first : q * (k / q) ≤ k := Nat.mul_div_le k q
    rw [MacCoreAxi.heldActivation, ledgerAt, ringSlot_blocks (jobActivations cell mem jobs b)
      actTurns (fun j upto => by rw [jobActivations, wordsFrom_length, (whole j upto).2]) r.isLt
      turns, jobActivations, wordsFrom_getD _ _ _ (by rw [(whole _ first).2]; exact r.isLt)]
    rfl

/-- **Jobs that fill the array are computed with the operands of the first of their round**:
of every `p` jobs the weights, of every `q` jobs the activations. -/
theorem queue_operands {latency : ℕ} {inside : BitVec 32 → Prop} {cell : BitVec 32 → Cell}
    {mem : ℕ → Cell → BitVec 32} {s₀ : MacSubsystem.State rows cols 8}
    {ins : ℕ → MacSubsystem.Inputs} {n : ℕ} {jobs : ℕ → JobConfig} {b : ℕ → ℕ} {k p q : ℕ}
    (queue : JobQueue latency inside cell mem s₀ ins n jobs b) (within : k < n)
    (wgtTurns : 4096 = rows * cols * p) (actTurns : 4096 = rows * q)
    (whole : ∀ j ≤ k, (jobs j).wgtWords = rows * cols ∧ (jobs j).actWords = rows)
    (apart : ∀ i j, i < (jobs k).n → j < (jobs k).n →
      cell (wordAddr (jobs k).resBase i) = cell (wordAddr (jobs k).resBase j) → i = j) :
    ∃ e, b k < e ∧ (dmaAt s₀ ins e).resDoneO = true ∧
      ∀ c : Fin cols, c.val < (jobs k).n →
        (mem e (cell (wordAddr (jobs k).resBase c))).toInt =
          windowSum (ownWeight cell mem jobs b (p * (k / p)) : Fin rows → Fin cols → BitVec 8)
            (ownActivation cell mem jobs b (q * (k / q))) (jobs k).m (jobs k).n c := by
  obtain ⟨e, ended⟩ :
      ∃ e, Completed cell mem s₀ ins (ledgerAt cell mem jobs b k) (jobs k) (b k) e :=
    (queue.run_of_rest within (queue.rest_at k within)).carried_out
  have room : Room s₀ ins jobs b k := by
    cases k with
    | zero => trivial
    | succ k =>
        -- its activations alone take a cycle a row
        have long := (whole (k + 1) (le_refl _)).2
        exact ⟨b (k + 1), queue.order k (k + 1) (Nat.lt_succ_self k) within,
          queue.idle (k + 1) within, by omega⟩
  refine ⟨e, ended.later, ended.done, fun c low => ?_⟩
  obtain ⟨weights, activations⟩ := held_operands cell mem b wgtTurns
    actTurns whole
  obtain ⟨wgt, act⟩ := ledgerAt_succ rows cols cell mem jobs b k
  have operands : ((ledgerAt cell mem jobs b k).fetch cell (jobs k)).sum rows (jobs k).m
      (jobs k).n c =
        windowSum (ownWeight cell mem jobs b (p * (k / p)) : Fin rows → Fin cols → BitVec 8)
          (ownActivation cell mem jobs b (q * (k / q))) (jobs k).m (jobs k).n c := by
    rw [← funext₂ weights, ← funext activations, ← wgt, ← act]
    rfl
  have tall : rows ≤ 4096 := by
    rw [actTurns]
    refine Nat.le_mul_of_pos_right rows (Nat.pos_of_ne_zero fun none => ?_)
    rw [none] at actTurns
    cases actTurns
  rw [ended.mem (queue.settled within room), Ledger.run_result apart c low, operands,
    toInt_ofInt_windowSum tall]

/-- A 4 by 4 core goes round its weight ring in 256 jobs, so its second job is computed with
the weights of the first. -/
theorem quad_operands :
    ∃ e, 103 < e ∧ (dmaAt quadMac quadIns e).resDoneO = true ∧
      ∀ c : Fin 4, c.val < 4 →
        (quadMem e (wordIndex (wordAddr 0x10002000 c))).toInt =
          windowSum (ownWeight wordIndex quadMem quadJobs quadStarts 0 :
              Fin 4 → Fin 4 → BitVec 8)
            (ownActivation wordIndex quadMem quadJobs quadStarts 0) 4 4 c :=
  queue_operands (k := 1) (p := 256) (q := 1024) quad_queue (by decide) rfl rfl
    (fun _ _ => ⟨rfl, rfl⟩) fun _ _ low high =>
      wordIndex_inj (Nat.lt_trans low (by decide)) (Nat.lt_trans high (by decide))

end MiniMac.System
