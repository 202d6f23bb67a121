/-
# Accel.MacJob -- the course of one job

A start pulse in the idle phase fixes the schedule of the core: one cycle to load
the weights, `M` cycles of feeding, `N` of draining and `N` of capturing, one
column per cycle.  The streaming law of the array, read at the capture cycle of a
column, then gives the captured word as the window sum of the operands the
buffers held at the start (`JobAt.captured`).  Nothing here looks at the result
port, so it applies to a core whose result port stalls.
-/
import MiniMac.Accel.OperandBuffers
import MiniMac.Accel.WindowSum

namespace MiniMac.Accel.MacCoreAxi

open MiniMac.Theory

set_option autoImplicit false

variable {rows cols dataW : ℕ}

/-! ## One edge in each phase -/

section Phases

variable {s : State rows cols dataW} {i : Inputs}

theorem isLast_iff (cnt reg : BitVec 8) : isLast cnt reg = true ↔ cnt.toNat + 1 = reg.toNat := by
  have small := cnt.isLt
  have small' := reg.isLt
  rw [isLast, beq_iff_eq, ← BitVec.toNat_inj]
  simp only [BitVec.toNat_setWidth, BitVec.toNat_sub, BitVec.ofNat_eq_ofNat, BitVec.toNat_ofNat,
    Nat.reducePow, Nat.reduceMod]
  omega

theorem isLast_ofNat {k n : ℕ} (pos : 0 < n) (hk : k < 256) (hn : n < 256) :
    isLast (BitVec.ofNat 8 k) (BitVec.ofNat 8 n) = decide (k + 1 = n) := by
  rw [Bool.eq_iff_iff, isLast_iff, decide_eq_true_eq]
  simp only [BitVec.toNat_ofNat]
  omega

theorem step_idle (phase : s.state = .idle) :
    step s i = { capture s i (defaults s) with
      coreDoneO := false
      state := if i.coreStartI then .loadWgt else .idle } := by
  simp [step, fsm, phase]

theorem step_loadWgt (phase : s.state = .loadWgt) :
    step s i = { capture s i (defaults s) with
      loadWgtR := true
      state := .feed
      rCnt := 0 } := by
  simp [step, fsm, phase]

theorem step_feed (phase : s.state = .feed) :
    step s i = { capture s i (defaults s) with
      rCnt := s.rCnt + 1
      state := if isLast s.rCnt i.regMI then .drain else .feed
      cCnt := if isLast s.rCnt i.regMI then 0 else s.cCnt } := by
  simp [step, fsm, phase]

theorem step_drain (phase : s.state = .drain) :
    step s i = { capture s i (defaults s) with
      cCnt := s.cCnt + 1
      state := if isLast s.cCnt i.regNI then .writeRes else .drain
      rCnt := if isLast s.cCnt i.regNI then 0 else s.rCnt } := by
  simp [step, fsm, phase]

theorem step_writeRes (phase : s.state = .writeRes) :
    step s i = { capture s i (defaults s) with
      resBuf := fun c =>
        if s.rCnt.toNat = c then column (colOutWires s) i.unknown s.rCnt else s.resBuf c
      state := if isLast s.rCnt i.regNI then .streamOut else .writeRes
      rCnt := if isLast s.rCnt i.regNI then 0 else s.rCnt + 1 } := by
  simp [step, fsm, phase]

theorem step_streamOut (phase : s.state = .streamOut) :
    step s i = { capture s i (defaults s) with
      mAxisResTvalid := true
      mAxisResTdata := column s.resBuf i.unknown s.rCnt
      rCnt := if i.mAxisResTready then s.rCnt + 1 else s.rCnt
      mAxisResTlast := i.mAxisResTready && isLast s.rCnt i.regNI
      coreDoneO := if i.mAxisResTready && isLast s.rCnt i.regNI then true else s.coreDoneO
      state := if i.mAxisResTready && isLast s.rCnt i.regNI then .idle else .streamOut } := by
  simp [step, fsm, phase]

/-- The load strobe is up in the cycle after the load phase only. -/
theorem step_loadWgtR : (step s i).loadWgtR = decide (s.state = .loadWgt) := by
  cases phase : s.state <;> simp [step, fsm, phase, capture, defaults]

/-- The weight registers follow the buffer in a load cycle and keep otherwise. -/
theorem step_wReg (r : Fin rows) (c : Fin cols) :
    ((step s i).array r c).wReg = if s.loadWgtR then s.wgtBuf r c else (s.array r c).wReg := by
  rw [step_array]; rfl

end Phases

/-! ## The schedule -/

/-- A start pulse taken in cycle `s` by an idle core, with the dimensions held while it
computes. -/
structure Scheduled (s₀ : State rows cols dataW) (ins : ℕ → Inputs) (s M N : ℕ) : Prop where
  idle : (after s₀ ins s).state = .idle
  launch : (ins s).coreStartI = true
  m_pos : 0 < M
  m_lt : M < 256
  n_pos : 0 < N
  n_lt : N < 256
  dims : ∀ t, s < t → t < s + 2 + (M + N + N) →
    (ins t).regMI = BitVec.ofNat 8 M ∧ (ins t).regNI = BitVec.ofNat 8 N

namespace Scheduled

variable {s₀ : State rows cols dataW} {ins : ℕ → Inputs} {s M N : ℕ}

theorem loadWgt_phase (run : Scheduled s₀ ins s M N) : (after s₀ ins (s + 1)).state = .loadWgt := by
  rw [after_succ, step_idle run.idle]
  simp [run.launch]

/-- A phase that counts its cycles keeps counting until its last one. -/
theorem counted {phase : Phase} {cnt : State rows cols dataW → BitVec 8} {a n : ℕ}
    (enter : (after s₀ ins a).state = phase ∧ cnt (after s₀ ins a) = 0)
    (more : ∀ u, u + 1 < n → (after s₀ ins (a + u)).state = phase →
      cnt (after s₀ ins (a + u)) = BitVec.ofNat 8 u →
      (after s₀ ins (a + u + 1)).state = phase ∧
        cnt (after s₀ ins (a + u + 1)) = BitVec.ofNat 8 u + 1) :
    ∀ u < n, (after s₀ ins (a + u)).state = phase ∧
      cnt (after s₀ ins (a + u)) = BitVec.ofNat 8 u := by
  intro u
  induction u with
  | zero =>
      intro _
      exact enter
  | succ u ih =>
      intro within
      obtain ⟨here, count⟩ := ih (by omega)
      obtain ⟨next, counted⟩ := more u within here count
      exact ⟨next, counted.trans (BitVec.ofNat_add u 1).symm⟩

theorem feed_phase (run : Scheduled s₀ ins s M N) :
    ∀ u < M, (after s₀ ins (s + 2 + u)).state = .feed ∧
      (after s₀ ins (s + 2 + u)).rCnt = BitVec.ofNat 8 u := by
  have m_lt := run.m_lt
  refine counted ?_ fun u within phase count => ?_
  · rw [show s + 2 = s + 1 + 1 from rfl, after_succ, step_loadWgt run.loadWgt_phase]
    exact ⟨rfl, rfl⟩
  · have dims := (run.dims (s + 2 + u) (by omega) (by omega)).1
    have more : ¬ (u + 1 = M) := by omega
    rw [after_succ, step_feed phase, count, dims, isLast_ofNat run.m_pos (by omega) m_lt]
    exact ⟨by simp [more], rfl⟩

theorem drain_phase (run : Scheduled s₀ ins s M N) :
    ∀ u < N, (after s₀ ins (s + 2 + M + u)).state = .drain ∧
      (after s₀ ins (s + 2 + M + u)).cCnt = BitVec.ofNat 8 u := by
  have m_pos := run.m_pos
  have m_lt := run.m_lt
  have n_lt := run.n_lt
  refine counted ?_ fun u within phase count => ?_
  · obtain ⟨phase, count⟩ := run.feed_phase (M - 1) (by omega)
    have dims := (run.dims (s + 2 + (M - 1)) (by omega) (by omega)).1
    have last : M - 1 + 1 = M := by omega
    rw [show s + 2 + M = s + 2 + (M - 1) + 1 by omega, after_succ, step_feed phase,
      count, dims, isLast_ofNat m_pos (by omega) m_lt]
    exact ⟨by simp [last], by simp [last]⟩
  · have dims := (run.dims (s + 2 + M + u) (by omega) (by omega)).2
    have more : ¬ (u + 1 = N) := by omega
    rw [after_succ, step_drain phase, count, dims, isLast_ofNat run.n_pos (by omega) n_lt]
    exact ⟨by simp [more], rfl⟩

theorem writeRes_phase (run : Scheduled s₀ ins s M N) :
    ∀ u < N, (after s₀ ins (s + 2 + M + N + u)).state = .writeRes ∧
      (after s₀ ins (s + 2 + M + N + u)).rCnt = BitVec.ofNat 8 u := by
  have n_pos := run.n_pos
  have n_lt := run.n_lt
  refine counted ?_ fun u within phase count => ?_
  · obtain ⟨phase, count⟩ := run.drain_phase (N - 1) (by omega)
    have dims := (run.dims (s + 2 + M + (N - 1)) (by omega) (by omega)).2
    have last : N - 1 + 1 = N := by omega
    rw [show s + 2 + M + N = s + 2 + M + (N - 1) + 1 by omega, after_succ, step_drain phase, count,
      dims, isLast_ofNat n_pos (by omega) n_lt]
    exact ⟨by simp [last], by simp [last]⟩
  · have dims := (run.dims (s + 2 + M + N + u) (by omega) (by omega)).2
    have more : ¬ (u + 1 = N) := by omega
    rw [after_succ, step_writeRes phase, count, dims, isLast_ofNat n_pos (by omega) n_lt]
    exact ⟨by simp [more], by simp [more]⟩

/-- The job reaches the result stream with its counter at the first word. -/
theorem streamOut_phase (run : Scheduled s₀ ins s M N) :
    (after s₀ ins (s + 2 + (M + N + N))).state = .streamOut ∧
      (after s₀ ins (s + 2 + (M + N + N))).rCnt = 0 ∧
      (after s₀ ins (s + 2 + (M + N + N))).mAxisResTvalid = false ∧
      (after s₀ ins (s + 2 + (M + N + N))).mAxisResTlast = false := by
  have n_pos := run.n_pos
  have n_lt := run.n_lt
  obtain ⟨phase, count⟩ := run.writeRes_phase (N - 1) (by omega)
  have dims := (run.dims (s + 2 + M + N + (N - 1)) (by omega) (by omega)).2
  have last : N - 1 + 1 = N := by omega
  rw [show s + 2 + (M + N + N) = s + 2 + M + N + (N - 1) + 1 by omega, after_succ,
    step_writeRes phase, count, dims, isLast_ofNat n_pos (by omega) n_lt]
  exact ⟨by simp [last], by simp [last], rfl, rfl⟩

/-- While a job computes, its phase is a function of the cycle. -/
theorem computing_phase (run : Scheduled s₀ ins s M N) (u : ℕ) (within : u < M + N + N) :
    (after s₀ ins (s + 2 + u)).state =
      if u < M then .feed else if u < M + N then .drain else .writeRes := by
  by_cases feeding : u < M
  · rw [if_pos feeding]
    exact (run.feed_phase u feeding).1
  · rw [if_neg feeding]
    by_cases draining : u < M + N
    · rw [if_pos draining, show s + 2 + u = s + 2 + M + (u - M) by omega]
      exact (run.drain_phase (u - M) (by omega)).1
    · rw [if_neg draining, show s + 2 + u = s + 2 + M + N + (u - M - N) by omega]
      exact (run.writeRes_phase (u - M - N) (by omega)).1

end Scheduled

/-- A start pulse taken in cycle `s` by an idle core: the dimensions are held
while the job computes, no operand beats arrive while it feeds, and the array has
not been fed for `rows` cycles. -/
structure JobAt (s₀ : State rows cols dataW) (ins : ℕ → Inputs) (s M N : ℕ) : Prop where
  idle : (after s₀ ins s).state = .idle
  launch : (ins s).coreStartI = true
  m_pos : 0 < M
  m_lt : M < 256
  n_pos : 0 < N
  n_lt : N < 256
  n_le : N ≤ cols
  dims : ∀ t, s < t → t < s + 2 + (M + N + N) →
    (ins t).regMI = BitVec.ofNat 8 M ∧ (ins t).regNI = BitVec.ofNat 8 N
  still : ∀ t, s ≤ t → t < s + 2 + M →
    (ins t).sAxisWgtTvalid = false ∧ (ins t).sAxisActTvalid = false
  settled : ∀ t, t < s → s + 2 ≤ t + rows → (after s₀ ins t).state ≠ .feed

namespace JobAt

variable {s₀ : State rows cols dataW} {ins : ℕ → Inputs} {s M N : ℕ}

theorem scheduled (job : JobAt s₀ ins s M N) : Scheduled s₀ ins s M N :=
  ⟨job.idle, job.launch, job.m_pos, job.m_lt, job.n_pos, job.n_lt, job.dims⟩

/-- The buffers keep their operands until the feed is over. -/
theorem buffers (job : JobAt s₀ ins s M N) :
    ∀ t, s ≤ t → t ≤ s + 2 + M →
      (after s₀ ins t).wgtBuf = (after s₀ ins s).wgtBuf ∧
        (after s₀ ins t).actBuf = (after s₀ ins s).actBuf := by
  refine Clocked.invariant_between (P := fun _ (st : State rows cols dataW) =>
    st.wgtBuf = (after s₀ ins s).wgtBuf ∧ st.actBuf = (after s₀ ins s).actBuf) ⟨rfl, rfl⟩ ?_
  rintro t from_s before ⟨weights, activations⟩
  obtain ⟨noWgt, noAct⟩ := job.still t from_s before
  constructor
  · exact (step_wgtBuf_quiet _ _ noWgt).trans weights
  · exact (step_actBuf_quiet _ _ noAct).trans activations

/-! ## What the array saw -/

/-- From the second feed cycle on, the array holds the job's weights. -/
theorem wReg_eq (job : JobAt s₀ ins s M N) (r : Fin rows) (c : Fin cols) :
    ∀ u, u < M + N + N →
      ((after s₀ ins (s + 2 + (u + 1))).array r c).wReg = (after s₀ ins s).wgtBuf r c := by
  have m_pos := job.m_pos
  intro u
  induction u with
  | zero =>
      intro _
      have strobe : (after s₀ ins (s + 2)).loadWgtR = true := by
        rw [show s + 2 = s + 1 + 1 from rfl, after_succ, step_loadWgtR, job.scheduled.loadWgt_phase]
        rfl
      rw [← Nat.add_assoc, after_succ, step_wReg, Nat.add_zero, strobe,
        (job.buffers (s + 2) (by omega) (by omega)).1]
      rfl
  | succ u ih =>
      intro within
      have quiet : (after s₀ ins (s + 2 + (u + 1))).loadWgtR = false := by
        rw [← Nat.add_assoc, after_succ, step_loadWgtR, job.scheduled.computing_phase u (by omega)]
        split
        · rfl
        · split <;> rfl
      rw [← Nat.add_assoc, after_succ, step_wReg, quiet]
      exact ih (by omega)

end JobAt

/-! ## The run in integer time -/

/-- A cycle in which nothing is sent to the core. -/
def idleInputs : Inputs where
  sAxisWgtTdata := 0
  sAxisWgtTvalid := false
  sAxisActTdata := 0
  sAxisActTvalid := false
  mAxisResTready := false
  coreStartI := false
  regMI := 0
  regNI := 0
  unknown := 0

theorem step_reset (s₀ : State rows cols dataW) : step (reset s₀) idleInputs = reset s₀ := by
  have still : SystolicArray.step SystolicArray.reset (arrayInputs (reset s₀)) =
      (SystolicArray.reset : SystolicArray.State rows cols dataW) :=
    SystolicArray.step_reset _ rfl (by funext r; simp [arrayInputs, rowInR, reset]) rfl
  rw [step_idle rfl]
  simp only [capture, defaults, idleInputs]
  exact congrArg (fun array => { reset s₀ with array := array }) still

/-- The run, at its reset state before the first cycle. -/
def zafter (s₀ : State rows cols dataW) (ins : ℕ → Inputs) (t : ℤ) : State rows cols dataW :=
  Clocked.zrun step (reset s₀) ins t

variable (s₀ : State rows cols dataW) (ins : ℕ → Inputs)

theorem zafter_natCast (t : ℕ) : zafter s₀ ins t = after s₀ ins t := Clocked.zrun_natCast t

/-- **The streaming law of the core's array**, in every cycle of every run. -/
theorem colOutWires_eq (c : Fin cols) (t : ℤ) :
    colOutWires (zafter s₀ ins (t + rows)) c =
      ∑ r : Fin rows, Pe.term ((zafter s₀ ins (t + r - 1)).array r c).wReg
        (rowInR (zafter s₀ ins (t + r - 2 - 2 * c)) r) := by
  have runs (t : ℤ) : (zafter s₀ ins (t + 1)).array =
      SystolicArray.step (zafter s₀ ins t).array (arrayInputs (zafter s₀ ins t)) := by
    rw [zafter, Clocked.zrun_succ (step_reset s₀), step_array]
    rfl
  have law := SystolicArray.colOut_eq (fun t => (zafter s₀ ins t).array)
    (fun t => arrayInputs (zafter s₀ ins t)) runs c t
  have north : (arrayInputs (zafter s₀ ins t)).colIn c = 0 := rfl
  rw [north, zero_add] at law
  exact law

namespace JobAt

variable {s₀ ins} {s M N : ℕ}

/-- The rows see the job's activations while it feeds and zero around that. -/
theorem rowInR_eq (job : JobAt s₀ ins s M N) (r : Fin rows) (t : ℤ)
    (low : (s : ℤ) + 2 ≤ t + rows) (high : t < (s : ℤ) + 2 + (M + N + N)) :
    rowInR (zafter s₀ ins t) r =
      if (s : ℤ) + 2 ≤ t ∧ t < (s : ℤ) + 2 + M then (after s₀ ins s).actBuf r else 0 := by
  by_cases computing : (s : ℤ) + 2 ≤ t
  · obtain ⟨u, rfl⟩ : ∃ u : ℕ, t = ((s + 2 + u : ℕ) : ℤ) := ⟨(t - s - 2).toNat, by omega⟩
    rw [zafter_natCast, rowInR, job.scheduled.computing_phase u (by omega)]
    by_cases feeding : u < M
    · rw [if_pos feeding, if_pos rfl, if_pos (by push_cast; omega),
        (job.buffers (s + 2 + u) (by omega) (by omega)).2]
    · have past : ¬ ((s : ℤ) + 2 ≤ (s + 2 + u : ℕ) ∧ ((s + 2 + u : ℕ) : ℤ) < s + 2 + M) := by
        push_cast; omega
      have quiet : (if u < M + N then Phase.drain else .writeRes) ≠ .feed := by
        split <;> decide
      rw [if_neg feeding, if_neg past, if_neg quiet]
  · rw [if_neg (by omega)]
    have quiet : (zafter s₀ ins t).state ≠ .feed := by
      by_cases started : t < 0
      · rw [zafter, Clocked.zrun_of_neg started]
        simp [reset]
      · obtain ⟨u, rfl⟩ : ∃ u : ℕ, t = (u : ℤ) := ⟨t.toNat, by omega⟩
        rw [zafter_natCast]
        rcases Nat.lt_trichotomy u s with before | rfl | past
        · exact job.settled u before (by omega)
        · simp [job.idle]
        · obtain rfl : u = s + 1 := by omega
          simp [job.scheduled.loadWgt_phase]
    rw [rowInR, if_neg quiet]

/-- **A column is captured with the window sum of the job's operands.** -/
theorem captured (job : JobAt s₀ ins s M N) (c : Fin cols) (within : c.val < N) :
    colOutWires (after s₀ ins (s + 2 + M + N + c)) c =
      BitVec.ofInt 32 (windowSum (after s₀ ins s).wgtBuf (after s₀ ins s).actBuf M N c) := by
  have m_pos := job.m_pos
  have law := colOutWires_eq s₀ ins c ((s + 2 + M + N + c : ℕ) - (rows : ℤ))
  rw [sub_add_cancel, zafter_natCast] at law
  rw [law, windowSum, ofInt_sum]
  apply Finset.sum_congr rfl
  intro r _
  have rowBound := r.isLt
  rw [job.rowInR_eq r _ (by push_cast; omega) (by push_cast; omega)]
  by_cases seen : InWindow rows M N c r
  · -- the operand reached this cell at `u`, when its weight was already loaded
    obtain ⟨entered, left⟩ := seen
    have time : ((s + 2 + M + N + c : ℕ) : ℤ) - rows + r - 1 =
        ((s + 2 + (M + N + c + r - rows - 2 + 1) : ℕ) : ℤ) := by
      push_cast; omega
    rw [if_pos ⟨by push_cast; omega, by push_cast; omega⟩, if_pos ⟨entered, left⟩, time,
      zafter_natCast, job.wReg_eq r c _ (by omega), Pe.term]
  · rw [if_neg seen, if_neg, Pe.term_zero]
    · rfl
    · rintro ⟨entered, left⟩
      exact seen ⟨by push_cast at entered; omega, by push_cast at left; omega⟩

/-- Captured words stay in the result buffer until the stream begins. -/
theorem resBuf_eq (job : JobAt s₀ ins s M N) (c : Fin cols) (within : c.val < N) :
    (after s₀ ins (s + 2 + (M + N + N))).resBuf c =
      BitVec.ofInt 32 (windowSum (after s₀ ins s).wgtBuf (after s₀ ins s).actBuf M N c) := by
  have n_lt := job.n_lt
  have kept : ∀ u, c.val < u → u ≤ N → (after s₀ ins (s + 2 + M + N + u)).resBuf c =
      BitVec.ofInt 32 (windowSum (after s₀ ins s).wgtBuf (after s₀ ins s).actBuf M N c) := by
    intro u past
    induction u, past using Nat.le_induction with
    | base =>
        intro _
        obtain ⟨phase, count⟩ := job.scheduled.writeRes_phase c within
        have here : (BitVec.ofNat 8 c).toNat = c := by simp; omega
        rw [Nat.succ_eq_add_one, ← Nat.add_assoc, after_succ, step_writeRes phase]
        simp only [count, here, if_true, column, c.isLt, dif_pos]
        exact job.captured c within
    | succ u past ih =>
        intro upto
        obtain ⟨phase, count⟩ := job.scheduled.writeRes_phase u (by omega)
        have elsewhere : (BitVec.ofNat 8 u).toNat ≠ c := by simp; omega
        rw [← Nat.add_assoc, after_succ, step_writeRes phase]
        simp only [count, elsewhere, if_false]
        exact ih (by omega)
  rw [show s + 2 + (M + N + N) = s + 2 + M + N + N by omega]
  exact kept N within (le_refl N)

end JobAt

end MiniMac.Accel.MacCoreAxi
