/-
# Accel.JobStream -- the words a job streams out

With the result port ready, the captured words leave one per cycle, the last one
with `tlast` and in the cycle in which `core_done_o` is up.  `JobAt.beats` is the
list of beats of one job in a longer run; `LoadsAndStarts` is the run that
streams operands after reset and starts once, and `LoadsAndStarts.beats_eq` gives
everything its result port ever transfers.
-/
import MiniMac.Accel.MacJob

namespace MiniMac.Accel.MacCoreAxi

open MiniMac.Theory

set_option autoImplicit false

variable {rows cols dataW : ℕ}

section Step

variable {s : State rows cols dataW} {i : Inputs}

theorem step_tvalid : (step s i).mAxisResTvalid = decide (s.state = .streamOut) := by
  cases phase : s.state <;> simp [step, fsm, phase, capture, defaults]

theorem step_resBuf (still : s.state ≠ .writeRes) : (step s i).resBuf = s.resBuf := by
  cases phase : s.state <;> simp_all [step, fsm, capture, defaults]

end Step

/-- A transferred result beat: the word and whether it is the last. -/
def resBeat (s : State rows cols dataW) (i : Inputs) : Option (BitVec 32 × Bool) :=
  if s.mAxisResTvalid && i.mAxisResTready then some (s.mAxisResTdata, s.mAxisResTlast) else none

variable (s₀ : State rows cols dataW) (ins : ℕ → Inputs)

/-- The result beats transferred in the cycles `a ≤ t < a + n`. -/
def resBeats (a n : ℕ) : List (BitVec 32 × Bool) :=
  Clocked.window (fun t => resBeat (after s₀ ins t) (ins t)) a n

/-- No beat in a cycle whose predecessor did not stream. -/
theorem resBeat_none {t : ℕ} (silent : (after s₀ ins t).state ≠ .streamOut) :
    resBeat (after s₀ ins (t + 1)) (ins (t + 1)) = none := by
  rw [resBeat, after_succ, step_tvalid]
  simp [silent]

theorem resBeat_zero : resBeat (after s₀ ins 0) (ins 0) = none := rfl

/-- The words of a job over given operands, with the last one marked. -/
def jobWords (W : Fin rows → Fin cols → BitVec dataW) (A : Fin rows → BitVec dataW) (M N : ℕ)
    (fits : N ≤ cols) : List (BitVec 32 × Bool) :=
  List.ofFn fun c : Fin N =>
    (BitVec.ofInt 32 (windowSum W A M N (c.castLE fits)), decide (c.val + 1 = N))

namespace JobAt

variable {s₀ ins} {s M N : ℕ}

/-- The result port is ready and the dimension held until the last beat has left. -/
structure Ready (ins : ℕ → Inputs) (s M N : ℕ) : Prop where
  tready : ∀ t, s + 2 + (M + N + N) ≤ t → t ≤ s + 2 + (M + N + N) + N →
    (ins t).mAxisResTready = true
  regN : ∀ t, s + 2 + (M + N + N) ≤ t → t < s + 2 + (M + N + N) + N →
    (ins t).regNI = BitVec.ofNat 8 N

end JobAt

namespace Scheduled

variable {s₀ ins} {s M N : ℕ}

theorem stream_phase (run : Scheduled s₀ ins s M N) (ready : JobAt.Ready ins s M N) :
    ∀ u < N, (after s₀ ins (s + 2 + (M + N + N) + u)).state = .streamOut ∧
      (after s₀ ins (s + 2 + (M + N + N) + u)).rCnt = BitVec.ofNat 8 u := by
  have n_lt := run.n_lt
  refine counted ⟨run.streamOut_phase.1, run.streamOut_phase.2.1⟩ ?_
  intro u within phase count
  have more : ¬ (u + 1 = N) := by omega
  rw [after_succ, step_streamOut phase, count, ready.regN _ (by omega) (by omega),
    isLast_ofNat run.n_pos (by omega) n_lt]
  simp [more, ready.tready (s + 2 + (M + N + N) + u) (by omega) (by omega)]

/-- The core is back in the idle phase, with its done pulse up, when the last beat
is on the port. -/
theorem done (run : Scheduled s₀ ins s M N) (ready : JobAt.Ready ins s M N) :
    (after s₀ ins (s + 2 + (M + N + N) + N)).state = .idle ∧
      (after s₀ ins (s + 2 + (M + N + N) + N)).coreDoneO = true := by
  have n_pos := run.n_pos
  have n_lt := run.n_lt
  obtain ⟨streaming, count⟩ := run.stream_phase ready (N - 1) (by omega)
  have last : N - 1 + 1 = N := by omega
  rw [show s + 2 + (M + N + N) + N = s + 2 + (M + N + N) + (N - 1) + 1 by omega, after_succ,
    step_streamOut streaming, count, ready.regN _ (by omega) (by omega),
    isLast_ofNat n_pos (by omega) n_lt, ready.tready _ (by omega) (by omega)]
  simp [last]

/-- Before it streams, a started core is in no phase that drives the port. -/
theorem not_streaming (run : Scheduled s₀ ins s M N) (t : ℕ) (low : s ≤ t)
    (high : t < s + 2 + (M + N + N)) : (after s₀ ins t).state ≠ .streamOut := by
  rcases Nat.lt_or_ge t (s + 2) with early | late
  · obtain rfl | rfl : t = s ∨ t = s + 1 := by omega
    · simp [run.idle]
    · simp [run.loadWgt_phase]
  · obtain ⟨u, rfl⟩ := Nat.exists_eq_add_of_le late
    rw [run.computing_phase u (by omega)]
    split
    · decide
    · split <;> decide

end Scheduled

namespace JobAt

variable {s₀ ins} {s M N : ℕ}

theorem resBuf_stream (job : JobAt s₀ ins s M N) (ready : Ready ins s M N) :
    ∀ u ≤ N, (after s₀ ins (s + 2 + (M + N + N) + u)).resBuf =
      (after s₀ ins (s + 2 + (M + N + N))).resBuf := by
  intro u
  induction u with
  | zero =>
      intro _
      exact rfl
  | succ u ih =>
      intro within
      have streaming := (job.scheduled.stream_phase ready u (by omega)).1
      rw [← Nat.add_assoc, after_succ, step_resBuf (by simp [streaming]), ih (by omega)]

/-- The `u`-th word is on the port, marked if it is the last, one cycle after its turn. -/
theorem resBeat_stream (job : JobAt s₀ ins s M N) (ready : Ready ins s M N) (u : ℕ)
    (within : u < N) :
    resBeat (after s₀ ins (s + 2 + (M + N + N) + u + 1)) (ins (s + 2 + (M + N + N) + u + 1)) =
      some ((after s₀ ins (s + 2 + (M + N + N))).resBuf ⟨u, by have := job.n_le; omega⟩,
        decide (u + 1 = N)) := by
  have n_lt := job.n_lt
  have n_le := job.n_le
  obtain ⟨streaming, count⟩ := job.scheduled.stream_phase ready u within
  have held := job.resBuf_stream ready u (by omega)
  have inside : u < cols := by omega
  rw [resBeat, after_succ, step_streamOut streaming, count, held,
    ready.regN _ (by omega) (by omega), isLast_ofNat job.n_pos (by omega) n_lt,
    ready.tready _ (by omega) (by omega), ready.tready _ (by omega) (by omega)]
  simp [column, inside, Nat.mod_eq_of_lt (show u < 256 by omega)]

/-- **The beats of a job**, from the cycle after its start to its done pulse. -/
theorem beats (job : JobAt s₀ ins s M N) (ready : Ready ins s M N) :
    resBeats s₀ ins (s + 1) (M + N + N + 2 + N) =
      jobWords (after s₀ ins s).wgtBuf (after s₀ ins s).actBuf M N job.n_le := by
  have n_le := job.n_le
  let word (u : ℕ) : BitVec 32 × Bool :=
    if h : u < N then
      (BitVec.ofInt 32
          (windowSum (after s₀ ins s).wgtBuf (after s₀ ins s).actBuf M N ⟨u, by omega⟩),
        decide (u + 1 = N))
    else (0, false)
  have silent : Clocked.window (fun t => resBeat (after s₀ ins t) (ins t)) (s + 1)
      (M + N + N + 2) = [] := by
    apply Clocked.window_none
    intro t low high
    obtain ⟨u, rfl⟩ : ∃ u, t = u + 1 := ⟨t - 1, by omega⟩
    exact resBeat_none s₀ ins (job.scheduled.not_streaming u (by omega) (by omega))
  have streams : Clocked.window (fun t => resBeat (after s₀ ins t) (ins t))
      (s + 1 + (M + N + N + 2)) N = (List.range N).map word := by
    apply Clocked.window_some word
    intro u within
    rw [show s + 1 + (M + N + N + 2) + u = s + 2 + (M + N + N) + u + 1 by omega,
      job.resBeat_stream ready u within, job.resBuf_eq _ within]
    simp [word, within]
  rw [resBeats, Clocked.window_add, silent, streams, List.nil_append, jobWords]
  apply List.ext_getElem (by simp)
  intro u h _
  have within : u < N := by simpa using h
  rw [List.getElem_map, List.getElem_range, List.getElem_ofFn]
  exact dif_pos within

end JobAt

/-! ## One job after reset -/

/-- A run that streams the operand bytes after reset, pulses start once in cycle
`s`, and holds the dimensions and the result port's ready from there on. -/
structure LoadsAndStarts (dataW : ℕ) (weights activations : List (BitVec dataW)) (M N : ℕ)
    (ins : ℕ → Inputs) (s : ℕ) : Prop where
  weights : (wgtBeats ins s).map (·.setWidth dataW) = weights
  activations : (actBeats ins s).map (·.setWidth dataW) = activations
  start : ∀ t, (ins t).coreStartI = true ↔ t = s
  still : ∀ t, s ≤ t → (ins t).sAxisWgtTvalid = false ∧ (ins t).sAxisActTvalid = false
  tready : ∀ t, s ≤ t → (ins t).mAxisResTready = true
  dims : ∀ t, s ≤ t → (ins t).regMI = BitVec.ofNat 8 M ∧ (ins t).regNI = BitVec.ofNat 8 N

/-- The weight at row `r`, column `c` of a row-major list, zero where there is none. -/
def weightAt (weights : List (BitVec dataW)) (r : Fin rows) (c : Fin cols) : BitVec dataW :=
  weights.getD (r * cols + c) 0

def activationAt (activations : List (BitVec dataW)) (r : Fin rows) : BitVec dataW :=
  activations.getD r 0

/-- An idle core stays idle until it is started. -/
theorem idle_until {a b : ℕ} (idle : (after s₀ ins a).state = .idle)
    (noStart : ∀ t, a ≤ t → t < b → (ins t).coreStartI = false) :
    ∀ t, a ≤ t → t ≤ b → (after s₀ ins t).state = .idle := by
  refine Clocked.invariant_between (P := fun _ (st : State rows cols dataW) => st.state = .idle)
    idle fun t low high phase => ?_
  rw [step_idle phase]
  simp [noStart t low high]

/-- The core is past its feed, or not at work at all. -/
structure PastFeed (s : State rows cols dataW) : Prop where
  notLoading : s.state ≠ .loadWgt
  notFeeding : s.state ≠ .feed

theorem PastFeed.step {s : State rows cols dataW} {i : Inputs} (past : PastFeed s)
    (noStart : i.coreStartI = false) : PastFeed (step s i) := by
  cases phase : s.state with
  | idle =>
      rw [step_idle phase]
      constructor <;> simp [noStart]
  | loadWgt => exact absurd phase past.notLoading
  | feed => exact absurd phase past.notFeeding
  | drain =>
      rw [step_drain phase]
      constructor <;> dsimp only <;> split <;> decide
  | writeRes =>
      rw [step_writeRes phase]
      constructor <;> dsimp only <;> split <;> decide
  | streamOut =>
      rw [step_streamOut phase]
      constructor <;> dsimp only <;> split <;> decide

/-- Such a core does not feed again until it is started. -/
theorem past_feed_until {a b : ℕ} (past : PastFeed (after s₀ ins a))
    (noStart : ∀ t, a ≤ t → t < b → (ins t).coreStartI = false) :
    ∀ t, a ≤ t → t ≤ b → PastFeed (after s₀ ins t) :=
  Clocked.invariant_between (P := fun _ (st : State rows cols dataW) => PastFeed st) past
    fun t low high past => past.step (noStart t low high)

namespace LoadsAndStarts

variable {ins} {weights activations : List (BitVec dataW)} {s M N : ℕ}

theorem idle (run : LoadsAndStarts dataW weights activations M N ins s) :
    ∀ t, t ≤ s → (after s₀ ins t).state = .idle := by
  intro t upto
  refine idle_until s₀ ins (b := s) rfl (fun u _ before => ?_) t (Nat.zero_le t) upto
  have := (run.start u).not.mpr (by omega)
  simpa using this

/-- The run takes a job over what its beats left in the buffers. -/
theorem job (run : LoadsAndStarts dataW weights activations M N ins s)
    (m : 0 < M ∧ M < 256) (n : 0 < N ∧ N < 256) (fits : N ≤ cols) : JobAt s₀ ins s M N where
  idle := run.idle s₀ s (le_refl s)
  launch := (run.start s).mpr rfl
  m_pos := m.1
  m_lt := m.2
  n_pos := n.1
  n_lt := n.2
  n_le := fits
  dims t low _ := run.dims t (by omega)
  still t low _ := run.still t low
  settled t before _ := by simp [run.idle s₀ t (by omega)]

theorem ready (run : LoadsAndStarts dataW weights activations M N ins s) :
    JobAt.Ready ins s M N where
  tready t low _ := run.tready t (by omega)
  regN t low _ := (run.dims t (by omega)).2

theorem wgtBuf_eq (run : LoadsAndStarts dataW weights activations M N ins s)
    (short : weights.length ≤ 4096) : (after s₀ ins s).wgtBuf = weightAt weights := by
  funext r c
  have length : (wgtBeats ins s).length ≤ 4096 := by
    rw [← run.weights, List.length_map] at short; exact short
  rw [MacCoreAxi.wgtBuf_eq, heldWeight, ringSlot_of_length_le _ length, weightAt, ← run.weights]
  rw [show (0 : BitVec dataW) = (0 : BitVec 32).setWidth dataW by simp, List.getD_map]

theorem actBuf_eq (run : LoadsAndStarts dataW weights activations M N ins s)
    (short : activations.length ≤ 4096) : (after s₀ ins s).actBuf = activationAt activations := by
  funext r
  have length : (actBeats ins s).length ≤ 4096 := by
    rw [← run.activations, List.length_map] at short; exact short
  rw [MacCoreAxi.actBuf_eq, heldActivation, ringSlot_of_length_le _ length, activationAt,
    ← run.activations]
  rw [show (0 : BitVec dataW) = (0 : BitVec 32).setWidth dataW by simp, List.getD_map]

/-- **Everything the result port transfers after reset**: the words of the one job. -/
theorem beats_eq (run : LoadsAndStarts dataW weights activations M N ins s)
    (m : 0 < M ∧ M < 256) (n : 0 < N ∧ N < 256) (fits : N ≤ cols)
    (shortW : weights.length ≤ 4096) (shortA : activations.length ≤ 4096)
    (T : ℕ) (late : s + 2 + (M + N + N) + N < T) :
    resBeats s₀ ins 0 T =
      jobWords (weightAt weights : Fin rows → Fin cols → BitVec dataW) (activationAt activations)
        M N fits := by
  have job := run.job s₀ m n fits
  have before : Clocked.window (fun t => resBeat (after s₀ ins t) (ins t)) 0 (s + 1) = [] := by
    apply Clocked.window_none
    intro t _ high
    cases t with
    | zero => exact resBeat_zero s₀ ins
    | succ u => exact resBeat_none s₀ ins (by simp [run.idle s₀ u (by omega)])
  have idleAfter := idle_until s₀ ins (b := T) (job.scheduled.done run.ready).1 fun t low _ => by
    simpa using (run.start t).not.mpr (by omega)
  obtain ⟨rest, rfl⟩ := Nat.exists_eq_add_of_lt late
  have past : Clocked.window (fun t => resBeat (after s₀ ins t) (ins t))
      (s + 2 + (M + N + N) + N + 1) rest = [] := by
    apply Clocked.window_none
    intro t low high
    obtain ⟨u, rfl⟩ : ∃ u, t = u + 1 := ⟨t - 1, by omega⟩
    exact resBeat_none s₀ ins (by simp [idleAfter u (by omega) (by omega)])
  have middle := job.beats run.ready
  rw [run.wgtBuf_eq s₀ shortW, run.actBuf_eq s₀ shortA] at middle
  rw [resBeats,
    show s + 2 + (M + N + N) + N + rest + 1 = (s + 1) + (M + N + N + 2 + N) + rest by omega,
    Clocked.window_add, Clocked.window_add, before, List.nil_append, Nat.zero_add (s + 1),
    show 0 + (s + 1 + (M + N + N + 2 + N)) = s + 2 + (M + N + N) + N + 1 by omega, past,
    List.append_nil]
  exact middle

end LoadsAndStarts

end MiniMac.Accel.MacCoreAxi
