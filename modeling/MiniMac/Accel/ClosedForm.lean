/-
# Accel.ClosedForm -- one job after reset, in closed form

`jobInputs` is a stream that performs a job: one weight beat per cycle, then one
activation beat per cycle, then the start pulse.  With it the closed form of a job
has instances for all operands, so it also says for which dimensions a word is the
whole dot product, and when two array sizes agree.
-/
import MiniMac.Accel.JobStream

namespace MiniMac.Accel.MacCoreAxi

open MiniMac.Theory

set_option autoImplicit false

variable {rows cols dataW : ℕ}

/-! ## A stream that performs a job -/

/-- Weight beats, activation beats and the start pulse in consecutive cycles. -/
def jobInputs (weights activations : List (BitVec 32)) (M N t : ℕ) : Inputs where
  sAxisWgtTdata := weights.getD t 0
  sAxisWgtTvalid := decide (t < weights.length)
  sAxisActTdata := activations.getD (t - weights.length) 0
  sAxisActTvalid := decide (weights.length ≤ t ∧ t < weights.length + activations.length)
  mAxisResTready := true
  coreStartI := decide (t = weights.length + activations.length)
  regMI := BitVec.ofNat 8 M
  regNI := BitVec.ofNat 8 N
  unknown := 0

theorem map_getD_range (xs : List (BitVec 32)) : (List.range xs.length).map (xs.getD · 0) = xs := by
  apply List.ext_getElem (by simp)
  intro k _ bound
  simp [List.getElem_map, bound]

theorem jobInputs_wgtBeats (weights activations : List (BitVec 32)) (M N : ℕ) :
    wgtBeats (jobInputs weights activations M N) (weights.length + activations.length) =
      weights := by
  have streams : Clocked.window (fun u => wgtBeat (jobInputs weights activations M N u)) 0
      weights.length = (List.range weights.length).map (weights.getD · 0) := by
    apply Clocked.window_some _
    intro k within
    simp [wgtBeat, jobInputs, within]
  have silent : Clocked.window (fun u => wgtBeat (jobInputs weights activations M N u))
      (0 + weights.length) activations.length = [] := by
    apply Clocked.window_none
    intro u low _
    simp [wgtBeat, jobInputs, show ¬ u < weights.length by omega]
  rw [wgtBeats, Clocked.window_add, streams, silent, List.append_nil, map_getD_range]

theorem jobInputs_actBeats (weights activations : List (BitVec 32)) (M N : ℕ) :
    actBeats (jobInputs weights activations M N) (weights.length + activations.length) =
      activations := by
  have silent : Clocked.window (fun u => actBeat (jobInputs weights activations M N u)) 0
      weights.length = [] := by
    apply Clocked.window_none
    intro u _ high
    simp [actBeat, jobInputs, show ¬ weights.length ≤ u by omega]
  have streams : Clocked.window (fun u => actBeat (jobInputs weights activations M N u))
      (0 + weights.length) activations.length =
        (List.range activations.length).map (activations.getD · 0) := by
    apply Clocked.window_some _
    intro k within
    simp [actBeat, jobInputs, within]
  rw [actBeats, Clocked.window_add, streams, silent, List.nil_append, map_getD_range]

theorem jobInputs_runs (dataW : ℕ) (weights activations : List (BitVec 32)) (M N : ℕ) :
    LoadsAndStarts dataW (weights.map (·.setWidth dataW)) (activations.map (·.setWidth dataW)) M N
      (jobInputs weights activations M N) (weights.length + activations.length) where
  weights := by rw [jobInputs_wgtBeats]
  activations := by rw [jobInputs_actBeats]
  start t := by simp [jobInputs]
  still t low := by
    simp [jobInputs]; omega
  tready _ _ := rfl
  dims _ _ := ⟨rfl, rfl⟩

/-! ## Operands as a matrix and a vector -/

/-- The weights in buffer order. -/
def rowMajor (W : Fin rows → Fin cols → BitVec dataW) : List (BitVec dataW) :=
  List.ofFn fun k : Fin (rows * cols) => W k.divNat k.modNat

theorem weightAt_rowMajor (W : Fin rows → Fin cols → BitVec dataW) :
    weightAt (rowMajor W) = W := by
  funext r c
  have pos : 0 < cols := by have := c.isLt; omega
  have bound := position_lt r c
  obtain ⟨row, col⟩ := (position_iff (n := (r : ℕ) * cols + c) (r := r) c.isLt).mpr rfl
  have atRow : (⟨(r : ℕ) * cols + c, bound⟩ : Fin (rows * cols)).divNat = r := Fin.ext row
  have atCol : (⟨(r : ℕ) * cols + c, bound⟩ : Fin (rows * cols)).modNat = c := Fin.ext col
  rw [weightAt, rowMajor, List.getD_eq_getElem _ _ (by simpa using bound), List.getElem_ofFn,
    atRow, atCol]

theorem activationAt_ofFn (A : Fin rows → BitVec dataW) : activationAt (List.ofFn A) = A := by
  funext r
  rw [activationAt, List.getD_eq_getElem _ _ (by simp), List.getElem_ofFn]

/-- A run that loads a weight matrix and an activation vector and starts once. -/
abbrev Performs (W : Fin rows → Fin cols → BitVec 8) (A : Fin rows → BitVec 8) (M N : ℕ)
    (ins : ℕ → Inputs) (s : ℕ) : Prop :=
  LoadsAndStarts 8 (rowMajor W) (List.ofFn A) M N ins s

/-- Operand bytes as stream beats. -/
def beatsOf (operands : List (BitVec 8)) : List (BitVec 32) := operands.map (·.setWidth 32)

theorem beatsOf_low (operands : List (BitVec 8)) :
    (beatsOf operands).map (·.setWidth 8) = operands := by
  rw [beatsOf, List.map_map]
  exact (List.map_congr_left fun x _ => by simp).trans (List.map_id operands)

/-- A stream that performs the job of given operands. -/
def jobStream (weights activations : List (BitVec 8)) (M N : ℕ) : ℕ → Inputs :=
  jobInputs (beatsOf weights) (beatsOf activations) M N

theorem jobStream_runs (weights activations : List (BitVec 8)) (M N : ℕ) :
    LoadsAndStarts 8 weights activations M N (jobStream weights activations M N)
      (weights.length + activations.length) := by
  have run := jobInputs_runs 8 (beatsOf weights) (beatsOf activations) M N
  have length (xs : List (BitVec 8)) : (beatsOf xs).length = xs.length := List.length_map _
  rwa [beatsOf_low, beatsOf_low, length, length] at run

/-! ## The closed form -/

/-- A core whose every register is zero. -/
def blank : State rows cols dataW where
  wgtWaddr := 0
  actWaddr := 0
  wgtBuf := fun _ _ => 0
  actBuf := fun _ => 0
  resBuf := fun _ => 0
  loadWgtR := false
  array := SystolicArray.reset
  state := .idle
  rCnt := 0
  cCnt := 0
  coreDoneO := false
  mAxisResTdata := 0
  mAxisResTvalid := false
  mAxisResTlast := false

section ClosedForm

variable (s₀ : State rows cols 8)

theorem Performs.beats_eq {W : Fin rows → Fin cols → BitVec 8} {A : Fin rows → BitVec 8}
    {M N s : ℕ} {ins : ℕ → Inputs} (run : Performs W A M N ins s)
    (m : 0 < M ∧ M < 256) (n : 0 < N ∧ N < 256) (fits : N ≤ cols) (room : rows * cols ≤ 4096)
    (T : ℕ) (late : s + 2 + (M + N + N) + N < T) :
    resBeats s₀ ins 0 T = jobWords W A M N fits := by
  have pos : 0 < cols := by omega
  have tall : rows ≤ 4096 := (Nat.le_mul_of_pos_right rows pos).trans room
  have beats := LoadsAndStarts.beats_eq s₀ run m n fits (by simpa [rowMajor] using room)
    (by simpa using tall) T late
  rwa [weightAt_rowMajor, activationAt_ofFn] at beats

theorem jobWords_word (W : Fin rows → Fin cols → BitVec dataW) (A : Fin rows → BitVec dataW)
    {M N : ℕ} (fits : N ≤ cols) (c : Fin N) :
    ((jobWords W A M N fits)[c.val]?).map Prod.fst =
      some (BitVec.ofInt 32 (windowSum W A M N (c.castLE fits))) := by
  simp [jobWords, c.isLt]

/-- **The closed form of a job**, for every array of at most 4096 weights: the result
port transfers exactly `N` beats, the last one marked, and beat `c` is the exact sum
over the window of column `c`.  So word `c` is the full dot product for all operands
exactly when the window of column `c` is every row. -/
theorem job_closed_form (rowsPos : 0 < rows) (room : rows * cols ≤ 4096) (M N : ℕ)
    (m : 1 ≤ M ∧ M ≤ 255) (n : 1 ≤ N ∧ N ≤ min cols 255) :
    (∀ (W : Fin rows → Fin cols → BitVec 8) (A : Fin rows → BitVec 8) (s₀ : State rows cols 8)
        (ins : ℕ → Inputs) (s : ℕ), Performs W A M N ins s →
        ∀ T, s + 2 + (M + N + N) + N < T →
          resBeats s₀ ins 0 T = List.ofFn fun c : Fin N =>
            (BitVec.ofInt 32 (windowSum W A M N (c.castLE (n.2.trans (min_le_left _ _)))),
              decide (c.val + 1 = N))) ∧
      ∀ c : Fin N,
        (∀ (W : Fin rows → Fin cols → BitVec 8) (A : Fin rows → BitVec 8) (s₀ : State rows cols 8)
            (ins : ℕ → Inputs) (s : ℕ), Performs W A M N ins s →
            ∀ T, s + 2 + (M + N + N) + N < T →
              ((resBeats s₀ ins 0 T)[c.val]?).map Prod.fst =
                some (BitVec.ofInt 32
                  (dotProduct W A (c.castLE (n.2.trans (min_le_left _ _)))))) ↔
          N ≤ c + 2 ∧ rows + c + 2 ≤ M + N := by
  have fits : N ≤ cols := n.2.trans (min_le_left _ _)
  have narrow : N ≤ 255 := n.2.trans (min_le_right _ _)
  have beats {W : Fin rows → Fin cols → BitVec 8} {A : Fin rows → BitVec 8}
      (s₀ : State rows cols 8) {ins : ℕ → Inputs} {s : ℕ} (run : Performs W A M N ins s) (T : ℕ)
      (late : s + 2 + (M + N + N) + N < T) : resBeats s₀ ins 0 T = jobWords W A M N fits :=
    run.beats_eq s₀ (by omega) (by omega) fits room T late
  refine ⟨fun W A s₀ ins s run T late => beats s₀ run T late, ?_⟩
  intro c
  rw [← inWindow_all_iff rowsPos]
  constructor
  · intro full
    by_contra outside
    obtain ⟨r, outside⟩ := not_forall.mp outside
    obtain ⟨W, A, different⟩ := windowSum_ne_dotProduct (c := c.castLE fits) outside
    have run := jobStream_runs (rowMajor W) (List.ofFn A) M N
    have word := full W A blank _ _ run _ (Nat.lt_succ_self _)
    rw [beats blank run _ (Nat.lt_succ_self _), jobWords_word] at word
    exact different (Option.some.inj word)
  · intro all W A s₀ ins s run T late
    rw [beats s₀ run T late, jobWords_word, windowSum_eq_dotProduct W A all]

end ClosedForm

/-! ## The directed-test job -/

/-- The weights of the 4x4 directed test. -/
def testWeights : List (BitVec 8) := [1, 2, 3, 4, 2, 1, 2, 1, 1, 3, 1, 2, 2, 2, 1, 1]

/-- The activations of its first vector. -/
def testActivations : List (BitVec 8) := [1, 2, 3, 4]

/-- The closed form at the directed test's first vector: 5, 13, 14, 12. -/
theorem job_closed_form_test :
    resBeats (blank : State 4 4 8) (jobStream testWeights testActivations 4 4) 0 40 =
      [(5, false), (13, false), (14, false), (12, true)] := by
  have run : Performs (fun (r c : Fin 4) => testWeights.getD (r * 4 + c) 0)
      (fun r => testActivations.getD r 0) 4 4 (jobStream testWeights testActivations 4 4) 20 :=
    jobStream_runs testWeights testActivations 4 4
  have beats := (@job_closed_form 4 4 (by decide) (by decide) 4 4
    (by decide) (by decide)).1 _ _ blank _ 20 run 40 (by decide)
  exact beats.trans (by decide)

end MiniMac.Accel.MacCoreAxi
