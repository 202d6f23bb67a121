/-
# Accel.JobSequence -- jobs one after another without a reset

A job drains the array behind it: it starts at rest, and no partial sum of an
earlier job reaches a column it captures.  The write pointers are not rewound, so
the operands of a later job are the ring contents of all beats since reset, not
the beats of its own.  `jobs_independent_iff` says when that makes no difference.
-/
import MiniMac.Accel.ClosedForm

namespace MiniMac.Accel.MacCoreAxi

open MiniMac.Theory

set_option autoImplicit false

variable {rows cols : ℕ}

/-! ## Jobs and their runs -/

/-- A job's operand beats, one per buffer entry, and its dimensions. -/
structure Job (rows cols : ℕ) where
  weights : List (BitVec 32)
  activations : List (BitVec 32)
  M : ℕ
  N : ℕ
  weights_length : weights.length = rows * cols
  activations_length : activations.length = rows
  m_pos : 0 < M
  m_lt : M < 256
  n_pos : 0 < N
  n_lt : N < 256
  n_le : N ≤ cols

namespace Job

/-- The cycles from the start pulse to the done pulse. -/
def length (job : Job rows cols) : ℕ := 2 + (job.M + job.N + job.N) + job.N

/-- The words of the job over the operands a list of beats leaves in the buffers. -/
def sums (dataW : ℕ) (job : Job rows cols) (weights activations : List (BitVec 32)) :
    List (BitVec 32) :=
  List.ofFn fun c : Fin job.N => BitVec.ofInt 32 (windowSum
    (fun (r : Fin rows) (c : Fin cols) => heldWeight cols dataW weights r c)
    (fun r => heldActivation dataW activations r) job.M job.N (c.castLE job.n_le))

end Job

/-- The stream performs a job in the cycles from `a`: its beats arrive before the
start pulse in cycle `l`, in any gaps and order between the streams, and then the
dimensions and the result port's ready are held until the done pulse. -/
structure RunsJob (ins : ℕ → Inputs) (a l : ℕ) (job : Job rows cols) : Prop where
  begins : a ≤ l
  weights : Clocked.window (fun t => wgtBeat (ins t)) a (l - a) = job.weights
  activations : Clocked.window (fun t => actBeat (ins t)) a (l - a) = job.activations
  noStart : ∀ t, a ≤ t → t < l → (ins t).coreStartI = false
  launch : (ins l).coreStartI = true
  still : ∀ t, l ≤ t → t < l + job.length →
    (ins t).sAxisWgtTvalid = false ∧ (ins t).sAxisActTvalid = false
  tready : ∀ t, l ≤ t → t < l + job.length + 1 → (ins t).mAxisResTready = true
  dims : ∀ t, l < t → t < l + job.length →
    (ins t).regMI = BitVec.ofNat 8 job.M ∧ (ins t).regNI = BitVec.ofNat 8 job.N

/-- The stream performs the jobs in order, each with the cycle of its start pulse. -/
def RunsJobs (ins : ℕ → Inputs) : ℕ → List (Job rows cols × ℕ) → Prop
  | _, [] => True
  | a, (job, l) :: rest => RunsJob ins a l job ∧ RunsJobs ins (l + job.length) rest

variable {dataW : ℕ} (s₀ : State rows cols dataW) (ins : ℕ → Inputs)

/-- The words a job transfers from its start pulse to its done pulse. -/
def jobResult (job : Job rows cols) (l : ℕ) : List (BitVec 32) :=
  (resBeats s₀ ins (l + 1) (job.M + job.N + job.N + 2 + job.N)).map Prod.fst

/-- The job started in cycle `l` yields the words it yields after any reset. -/
def AsFresh (job : Job rows cols) (l : ℕ) : Prop :=
  ∀ (s₁ : State rows cols dataW) (ins' : ℕ → Inputs) (l' : ℕ), RunsJob ins' 0 l' job →
    jobResult s₀ ins job l = jobResult s₁ ins' job l'

/-! ## One job of a sequence -/

namespace RunsJob

variable {s₀ ins} {a l : ℕ} {job : Job rows cols}

theorem idle (run : RunsJob ins a l job) (idle : (after s₀ ins a).state = .idle) :
    ∀ t, a ≤ t → t ≤ l → (after s₀ ins t).state = .idle :=
  idle_until s₀ ins idle run.noStart

/-- The activation beats alone take as many cycles as the array has rows, so the
array has long been at rest when the job starts. -/
theorem jobAt (run : RunsJob ins a l job) (idle : (after s₀ ins a).state = .idle) :
    JobAt s₀ ins l job.M job.N where
  idle := run.idle idle l run.begins (le_refl l)
  launch := run.launch
  m_pos := job.m_pos
  m_lt := job.m_lt
  n_pos := job.n_pos
  n_lt := job.n_lt
  n_le := job.n_le
  dims t low high := run.dims t low (by rw [Job.length]; omega)
  still t low high := run.still t low (by rw [Job.length]; omega)
  settled t before late := by
    have beats := Clocked.window_length_le (fun t => actBeat (ins t)) a (l - a)
    rw [run.activations, job.activations_length] at beats
    simp [run.idle idle t (by omega) before.le]

theorem ready (run : RunsJob ins a l job) : JobAt.Ready ins l job.M job.N where
  tready t low high := run.tready t (by omega) (by rw [Job.length]; omega)
  regN t low high := (run.dims t (by omega) (by rw [Job.length]; omega)).2

/-- The core is idle again at the done pulse. -/
theorem idle_after (run : RunsJob ins a l job) (idle : (after s₀ ins a).state = .idle) :
    (after s₀ ins (l + job.length)).state = .idle := by
  have done := ((run.jobAt idle).scheduled.done run.ready).1
  rwa [show l + 2 + (job.M + job.N + job.N) + job.N = l + job.length by rw [Job.length]; omega]
    at done

/-- The beats before the start pulse are the earlier ones and the job's own. -/
theorem beats_launch (run : RunsJob ins a l job) :
    wgtBeats ins l = wgtBeats ins a ++ job.weights ∧
      actBeats ins l = actBeats ins a ++ job.activations := by
  obtain ⟨n, rfl⟩ := Nat.exists_eq_add_of_le run.begins
  have weights := run.weights
  have activations := run.activations
  rw [Nat.add_sub_cancel_left] at weights activations
  simp only [wgtBeats, actBeats, Clocked.window_add, Nat.zero_add, weights, activations, and_self]

/-- No beats arrive from the start pulse to the done pulse. -/
theorem beats_after (run : RunsJob ins a l job) :
    wgtBeats ins (l + job.length) = wgtBeats ins l ∧
      actBeats ins (l + job.length) = actBeats ins l := by
  have noWgt : Clocked.window (fun t => wgtBeat (ins t)) (0 + l) job.length = [] :=
    Clocked.window_none fun t low high => by
      simp [wgtBeat, (run.still t (by omega) (by omega)).1]
  have noAct : Clocked.window (fun t => actBeat (ins t)) (0 + l) job.length = [] :=
    Clocked.window_none fun t low high => by
      simp [actBeat, (run.still t (by omega) (by omega)).2]
  simp only [wgtBeats, actBeats, Clocked.window_add, noWgt, noAct, List.append_nil, and_self]

/-- The words of a job are its sums over all beats since reset. -/
theorem jobResult_eq (run : RunsJob ins a l job) (idle : (after s₀ ins a).state = .idle) :
    jobResult s₀ ins job l =
      job.sums dataW (wgtBeats ins a ++ job.weights) (actBeats ins a ++ job.activations) := by
  have beats := (run.jobAt idle).beats run.ready
  obtain ⟨weights, activations⟩ := run.beats_launch
  have wgt : (after s₀ ins l).wgtBuf = fun (r : Fin rows) (c : Fin cols) =>
      heldWeight cols dataW (wgtBeats ins a ++ job.weights) r c := by
    funext r c; rw [wgtBuf_eq, weights]
  have act : (after s₀ ins l).actBuf = fun r : Fin rows =>
      heldActivation dataW (actBeats ins a ++ job.activations) r := by
    funext r; rw [actBuf_eq, activations]
  rw [jobResult, beats, jobWords, List.map_ofFn, wgt, act]
  rfl

end RunsJob

/-! ## The sequence -/

/-- Each job of a sequence starts from an idle core, behind the beats of the jobs
before it. -/
theorem RunsJobs.at (jobs : List (Job rows cols × ℕ)) :
    ∀ a, RunsJobs ins a jobs → (after s₀ ins a).state = .idle →
      ∀ j (within : j < jobs.length), ∃ b, RunsJob ins b jobs[j].2 jobs[j].1 ∧
        (after s₀ ins b).state = .idle ∧
        wgtBeats ins b = wgtBeats ins a ++ (jobs.take j).flatMap (·.1.weights) ∧
        actBeats ins b = actBeats ins a ++ (jobs.take j).flatMap (·.1.activations) := by
  induction jobs with
  | nil => intro a _ _ j within; exact absurd within (Nat.not_lt_zero j)
  | cons first rest ih =>
      intro a ⟨run, later⟩ idle j within
      cases j with
      | zero => exact ⟨a, run, idle, by simp, by simp⟩
      | succ j =>
          obtain ⟨b, here, idleHere, weights, activations⟩ :=
            ih _ later (run.idle_after idle) j (Nat.lt_of_succ_lt_succ within)
          refine ⟨b, here, idleHere, ?_, ?_⟩
          · rw [weights, run.beats_after.1, run.beats_launch.1]
            simp
          · rw [activations, run.beats_after.2, run.beats_launch.2]
            simp

/-- A job on its own can be run: `AsFresh` compares against something. -/
theorem runsJob_fresh (job : Job rows cols) :
    RunsJob (jobInputs job.weights job.activations job.M job.N) 0
      (job.weights.length + job.activations.length) job := by
  have run := jobInputs_runs 32 job.weights job.activations job.M job.N
  exact {
    begins := Nat.zero_le _
    weights := jobInputs_wgtBeats _ _ _ _
    activations := jobInputs_actBeats _ _ _ _
    noStart := fun t _ before => by simpa using (run.start t).not.mpr before.ne
    launch := (run.start _).mpr rfl
    still := fun t low _ => run.still t low
    tready := fun t low _ => run.tready t low
    dims := fun t low _ => run.dims t low.le }

/-- A job alone after reset yields its sums over its own beats. -/
theorem jobResult_fresh {l : ℕ} {job : Job rows cols} (alone : RunsJob ins 0 l job) :
    jobResult s₀ ins job l = job.sums dataW job.weights job.activations :=
  alone.jobResult_eq rfl

/-- A job of a sequence yields its sums over the beats up to its own. -/
theorem jobResult_at (jobs : List (Job rows cols × ℕ)) (run : RunsJobs ins 0 jobs) (j : ℕ)
    (within : j < jobs.length) :
    jobResult s₀ ins jobs[j].1 jobs[j].2 = jobs[j].1.sums dataW
      ((jobs.take (j + 1)).flatMap (·.1.weights))
      ((jobs.take (j + 1)).flatMap (·.1.activations)) := by
  obtain ⟨b, here, idle, weights, activations⟩ := RunsJobs.at s₀ ins jobs 0 run rfl j within
  have upto : jobs.take (j + 1) = jobs.take j ++ [jobs[j]] :=
    List.take_succ_eq_append_getElem within
  have none : wgtBeats ins 0 = [] ∧ actBeats ins 0 = [] := ⟨rfl, rfl⟩
  rw [here.jobResult_eq idle, weights, activations, none.1, none.2, upto]
  simp only [List.nil_append, List.flatMap_append, List.flatMap_cons, List.flatMap_nil,
    List.append_nil]

/-- **Jobs are independent exactly when the operands the buffers hold give every
job the words of its own operands.** -/
theorem jobs_independent_iff (jobs : List (Job rows cols × ℕ)) (run : RunsJobs ins 0 jobs) :
    (∀ j (within : j < jobs.length), AsFresh s₀ ins jobs[j].1 jobs[j].2) ↔
      ∀ j (within : j < jobs.length),
        jobs[j].1.sums dataW ((jobs.take (j + 1)).flatMap (·.1.weights))
            ((jobs.take (j + 1)).flatMap (·.1.activations)) =
          jobs[j].1.sums dataW jobs[j].1.weights jobs[j].1.activations := by
  refine forall_congr' fun j => forall_congr' fun within => ?_
  have words := jobResult_at s₀ ins jobs run j within
  constructor
  · intro same
    have alone := runsJob_fresh jobs[j].1
    rw [← words, same s₀ _ _ alone, jobResult_fresh s₀ _ alone]
  · intro same s₁ ins' l' alone
    rw [words, same, jobResult_fresh s₁ ins' alone]

/-! ## Two jobs on a single cell -/

/-- Weight `w` times activation 1. -/
def cellJob (w : BitVec 32) : Job 1 1 where
  weights := [w]
  activations := [1]
  M := 2
  N := 1
  weights_length := rfl
  activations_length := rfl
  m_pos := by decide
  m_lt := by decide
  n_pos := by decide
  n_lt := by decide
  n_le := by decide

/-- Two such jobs, the second begun in the cycle of the first's done pulse. -/
def cellInputs (w₁ w₂ : BitVec 32) (t : ℕ) : Inputs :=
  { idleInputs with
    sAxisWgtTdata := if t = 0 then w₁ else w₂
    sAxisWgtTvalid := decide (t = 0 ∨ t = 9)
    sAxisActTdata := 1
    sAxisActTvalid := decide (t = 1 ∨ t = 10)
    mAxisResTready := true
    coreStartI := decide (t = 2 ∨ t = 11)
    regMI := 2
    regNI := 1 }

theorem cellInputs_runs (w₁ w₂ : BitVec 32) :
    RunsJobs (cellInputs w₁ w₂) 0 [(cellJob w₁, 2), (cellJob w₂, 11)] := by
  refine ⟨?_, ?_, trivial⟩
  · exact {
      begins := by decide
      weights := rfl
      activations := rfl
      noStart := fun t low high => by simp [cellInputs]; omega
      launch := rfl
      still := fun t low high => by
        rw [show (cellJob w₁).length = 7 from rfl] at high
        simp [cellInputs]; omega
      tready := fun _ _ _ => rfl
      dims := fun _ _ _ => ⟨rfl, rfl⟩ }
  · rw [show 2 + (cellJob w₁).length = 9 from rfl]
    exact {
      begins := by decide
      weights := rfl
      activations := rfl
      noStart := fun t low high => by simp [cellInputs]; omega
      launch := rfl
      still := fun t low high => by
        rw [show (cellJob w₂).length = 7 from rfl] at high
        simp [cellInputs]; omega
      tready := fun _ _ _ => rfl
      dims := fun _ _ _ => ⟨rfl, rfl⟩ }

/-- A job that repeats the one before it is independent of it. -/
theorem jobs_independent_repeated :
    AsFresh (blank : State 1 1 8) (cellInputs 3 3) (cellJob 3) 11 :=
  (jobs_independent_iff blank (cellInputs 3 3) _ (cellInputs_runs 3 3)).mpr (by decide) 1
    (by decide)

/-- Weight 1, then weight 2: the second job still multiplies by 1. -/
theorem jobs_dependent :
    ¬ ∀ (s₀ : State 1 1 8) (ins : ℕ → Inputs) (jobs : List (Job 1 1 × ℕ)), RunsJobs ins 0 jobs →
      ∀ j (within : j < jobs.length), AsFresh s₀ ins jobs[j].1 jobs[j].2 := by
  intro claim
  have runs := cellInputs_runs 1 2
  have alone := runsJob_fresh (cellJob 2)
  have same := claim blank _ _ runs 1 (by decide) blank _ _ alone
  have held := jobResult_at (blank : State 1 1 8) _ _ runs 1 (by decide)
  exact absurd (held.symm.trans (same.trans (jobResult_fresh blank _ alone))) (by decide)

end MiniMac.Accel.MacCoreAxi
