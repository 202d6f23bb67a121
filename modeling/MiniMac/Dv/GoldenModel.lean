/-
# Dv.GoldenModel -- the integer model the directed tests are checked against

`mac_model` steps a 4x4 grid through four feed cycles and four drain cycles and
reads every column at once.  Its grid forwards an operand one column per cycle
where the array takes two, and reads column `c` where the core waits `c` cycles
more.  The two differences cancel: both are skewed grids, and the streaming law
gives both the same window of rows.
-/
import MiniMac.Accel.ClosedForm

namespace MiniMac.Dv.GoldenModel

open MiniMac.Theory MiniMac.Accel MiniMac.Accel.MacCoreAxi

set_option autoImplicit false

/-! ## The model -/

/-- `value & ((1 << width) - 1)`, read as a signed number by its top bit. -/
def signed (value : ℤ) (width : ℕ) : ℤ :=
  let value := value % 2 ^ width
  if value / 2 ^ (width - 1) % 2 = 1 then value - 2 ^ width else value

structure Registers where
  aReg : Fin 4 → Fin 4 → ℤ
  wReg : Fin 4 → Fin 4 → ℤ
  mulReg : Fin 4 → Fin 4 → ℤ
  accReg : Fin 5 → Fin 4 → ℤ

/-- The product and the accumulator rows a cycle computes. -/
def nextMul (s : Registers) (r c : Fin 4) : ℤ := signed (s.aReg r c) 8 * signed (s.wReg r c) 8

def nextAcc (s : Registers) : Fin 5 → Fin 4 → ℤ :=
  Fin.cons (fun _ => 0) fun r c => (s.accReg r.castSucc c + s.mulReg r c) % 2 ^ 32

/-- The operand that enters a cell: the row input, then the cell to the west. -/
def ain (s : Registers) (rowIn : Fin 4 → ℤ) (r c : Fin 4) : ℤ :=
  (Fin.cons (rowIn r) (s.aReg r) : Fin 5 → ℤ) c.castSucc

/-- A cycle of the first loop. -/
def feedCycle (s : Registers) (activations : Fin 4 → ℤ) : Registers where
  aReg r c := signed (ain s activations r c) 8
  wReg := s.wReg
  mulReg := nextMul s
  accReg := nextAcc s

/-- A cycle of the second loop. -/
def drainCycle (s : Registers) : Registers where
  aReg := ain s fun _ => 0
  wReg := s.wReg
  mulReg := nextMul s
  accReg := nextAcc s

/-- The registers before the first cycle. -/
def start (weights : Fin 4 → Fin 4 → ℤ) : Registers where
  aReg _ _ := 0
  wReg r c := signed (weights r c) 8
  mulReg _ _ := 0
  accReg _ _ := 0

/-- The two loops. -/
def cycles (weights : Fin 4 → Fin 4 → ℤ) (activations : Fin 4 → ℤ) : Registers :=
  drainCycle^[4] ((feedCycle · activations)^[4] (start weights))

/-- The model's words; a list too short to be indexed raises. -/
def macModel (weights activations : List ℤ) : Option (List ℤ) :=
  if 16 ≤ weights.length ∧ 4 ≤ activations.length then
    some (List.ofFn fun c => (cycles (fun r c => weights.getD (r * 4 + c) 0)
      (fun r => activations.getD r 0)).accReg (Fin.last 4) c)
  else none

/-! ## Both loops as one run -/

theorem signed_eq_toInt (x : ℤ) : signed x 8 = (BitVec.ofInt 8 x).toInt := by
  rw [BitVec.toInt_ofInt, Int.bmod, signed]
  norm_num
  split <;> split <;> omega

theorem signed_signed (x : ℤ) : signed (signed x 8) 8 = signed x 8 := by
  rw [signed_eq_toInt (signed x 8), signed_eq_toInt x, BitVec.ofInt_toInt]

/-- The operand registers hold signed bytes. -/
def Settled (s : Registers) : Prop := ∀ r c, signed (s.aReg r c) 8 = s.aReg r c

theorem settled_feedCycle (s : Registers) (activations : Fin 4 → ℤ) :
    Settled (feedCycle s activations) := fun _ _ => signed_signed _

/-- Draining is feeding zeros. -/
theorem drainCycle_eq (s : Registers) (settled : Settled s) :
    drainCycle s = feedCycle s fun _ => 0 := by
  have operands : ain s (fun _ => 0) = fun r c => signed (ain s (fun _ => 0) r c) 8 := by
    funext r c
    refine Fin.cases rfl (fun west => ?_) c
    exact (settled r west.castSucc).symm
  simp only [drainCycle, feedCycle]
  rw [← operands]

theorem drain_iterate (n : ℕ) (s : Registers) (settled : Settled s) :
    drainCycle^[n] s = (feedCycle · fun _ => 0)^[n] s := by
  induction n generalizing s with
  | zero => rfl
  | succ n ih =>
      rw [Function.iterate_succ_apply, Function.iterate_succ_apply, drainCycle_eq s settled,
        ih _ (settled_feedCycle s _)]

/-- The row inputs of the eight cycles. -/
def rowInputs (activations : Fin 4 → ℤ) (t : ℕ) : Fin 4 → ℤ :=
  if t < 4 then activations else fun _ => 0

theorem cycles_eq (weights : Fin 4 → Fin 4 → ℤ) (activations : Fin 4 → ℤ) :
    cycles weights activations =
      Clocked.run feedCycle (start weights) (rowInputs activations) 8 := by
  have settled : Settled ((feedCycle · activations)^[4] (start weights)) := by
    rw [Function.iterate_succ_apply']
    exact settled_feedCycle _ _
  rw [cycles, drain_iterate 4 _ settled]
  rfl

/-! ## The grid -/

/-- The model's registers are a skewed grid that forwards one column per cycle. -/
def grid (st : ℤ → Registers) (inp : ℤ → Fin 4 → ℤ)
    (runs : ∀ t, st (t + 1) = feedCycle (st t) (inp t)) :
    SkewedGrid ℤ (BitVec 32) 4 4 1 where
  input r t := signed (inp t r) 8
  north c t := BitVec.ofInt 32 ((st t).accReg 0 c)
  operand r c t := (st t).aReg r c
  scale r c t a := BitVec.ofInt 32 (signed a 8 * signed ((st t).wReg r c) 8)
  product r c t := BitVec.ofInt 32 ((st t).mulReg r c)
  partialSum r c t := BitVec.ofInt 32 ((st t).accReg r c)
  operand_west r c t west := by
    have here : c = 0 := Fin.ext west
    subst here
    simp [runs, feedCycle, ain]
  operand_east r c c' t east := by
    have here : c'.castSucc = c.succ := Fin.ext east
    have settled : signed ((st t).aReg r c) 8 = (st t).aReg r c := by
      rw [← sub_add_cancel t 1, runs]
      exact settled_feedCycle _ _ r c
    simp [runs, feedCycle, ain, here, settled]
  product_step r c t := by
    simp [runs, feedCycle, nextMul]
  partialSum_north c t := rfl
  partialSum_south r c t := by
    rw [runs, ← BitVec.ofInt_add]
    apply BitVec.eq_of_toNat_eq
    simp [feedCycle, nextAcc, BitVec.toNat_ofInt]

section Words

variable (weights : Fin 4 → Fin 4 → ℤ) (activations : Fin 4 → ℤ)

theorem start_rests : feedCycle (start weights) (fun _ => 0) = start weights := by
  have operands (r c : Fin 4) : ain (start weights) (fun _ => 0) r c = 0 := by
    rw [ain]
    exact Fin.cases rfl (fun _ => rfl) c.castSucc
  have sums : nextAcc (start weights) = (start weights).accReg := by
    funext r c
    exact Fin.cases rfl (fun _ => rfl) r
  have products : nextMul (start weights) = (start weights).mulReg := by
    funext r c
    exact zero_mul _
  simp only [feedCycle, operands, sums, products]
  rfl

/-- The model's registers in integer time. -/
def registers (t : ℤ) : Registers :=
  Clocked.zrun feedCycle (start weights) (rowInputs activations) t

def rowsIn (t : ℤ) : Fin 4 → ℤ := Clocked.zins (fun _ => 0) (rowInputs activations) t

theorem registers_succ (t : ℤ) : registers weights activations (t + 1) =
    feedCycle (registers weights activations t) (rowsIn activations t) :=
  Clocked.zrun_succ (start_rests weights) t

theorem registers_wReg (t : ℤ) :
    (registers weights activations t).wReg = fun r c => signed (weights r c) 8 := by
  have keep (s : Registers) (rowIn : Fin 4 → ℤ) : (feedCycle s rowIn).wReg = s.wReg := rfl
  refine Clocked.invariant (P := fun s => s.wReg = fun r c => signed (weights r c) 8) ?_
    (fun s rowIn held => (keep s rowIn).trans held) t.toNat
  rfl

theorem rowsIn_eq (t : ℤ) (r : Fin 4) :
    rowsIn activations t r = if 0 ≤ t ∧ t < 4 then activations r else 0 := by
  rw [rowsIn, Clocked.zins, rowInputs]
  by_cases early : t < 0
  · rw [if_pos early, if_neg (by omega)]
  · rw [if_neg early]
    by_cases fed : t < 4
    · rw [if_pos (by omega), if_pos (by omega)]
    · rw [if_neg (by omega), if_neg (by omega)]

/-- **The model's words are the window sums** of a 4x4 job. -/
theorem cycles_accReg (c : Fin 4) :
    (cycles weights activations).accReg (Fin.last 4) c =
      (BitVec.ofInt 32 (windowSum (fun r c => BitVec.ofInt 8 (weights r c))
        (fun r => BitVec.ofInt 8 (activations r)) 4 4 c)).toNat := by
  have law := (grid _ _ (registers_succ weights activations)).drain_sum c 4
  have last : registers weights activations (4 + (4 : ℕ)) = cycles weights activations := by
    rw [cycles_eq]; rfl
  have north : (registers weights activations 4).accReg 0 c = 0 := rfl
  have small : (cycles weights activations).accReg (Fin.last 4) c % 2 ^ 32 =
      (cycles weights activations).accReg (Fin.last 4) c := by
    rw [cycles_eq]
    exact Int.emod_emod_of_dvd _ (dvd_refl _)
  simp only [grid, last, north, registers_wReg, rowsIn_eq, signed_eq_toInt,
    BitVec.ofInt_toInt] at law
  have words : BitVec.ofInt 32 ((cycles weights activations).accReg (Fin.last 4) c) =
      BitVec.ofInt 32 (windowSum (fun r c => BitVec.ofInt 8 (weights r c))
        (fun r => BitVec.ofInt 8 (activations r)) 4 4 c) := by
    rw [law, show BitVec.ofInt 32 0 = 0 from rfl, zero_add, windowSum, ofInt_sum]
    apply Finset.sum_congr rfl
    intro r _
    by_cases seen : InWindow 4 4 4 c r
    · obtain ⟨entered, left⟩ := seen
      rw [if_pos (by omega), if_pos ⟨entered, left⟩, mul_comm]
    · rw [if_neg fun fed => seen ⟨by omega, by omega⟩, if_neg seen]
      simp
  rw [← words, BitVec.toNat_ofInt, Int.toNat_of_nonneg (Int.emod_nonneg _ (by norm_num))]
  exact small.symm

end Words

/-! ## The refinement -/

/-- **The golden model's words are the words the 4x4 core streams out.** -/
theorem golden_model_refines (weights activations : List ℤ) (sixteen : weights.length = 16)
    (four : activations.length = 4) (s₀ : State 4 4 8) (ins : ℕ → Inputs) (s : ℕ)
    (run : LoadsAndStarts 8 (weights.map (BitVec.ofInt 8)) (activations.map (BitVec.ofInt 8)) 4 4
      ins s) (T : ℕ) (late : s + 18 < T) :
    macModel weights activations =
      some ((resBeats s₀ ins 0 T).map fun beat => (beat.1.toNat : ℤ)) := by
  have beats := run.beats_eq s₀ (by decide) (by decide) (by decide) (by simp; omega)
    (by simp; omega) T (by omega)
  have weight : weightAt (weights.map (BitVec.ofInt 8)) =
      fun r c : Fin 4 => BitVec.ofInt 8 (weights.getD (r * 4 + c) 0) :=
    funext fun r => funext fun c => List.getD_map _ (0 : ℤ) _
  have activation : activationAt (activations.map (BitVec.ofInt 8)) =
      fun r : Fin 4 => BitVec.ofInt 8 (activations.getD r 0) :=
    funext fun r => List.getD_map _ (0 : ℤ) _
  rw [macModel, if_pos ⟨sixteen.ge, four.ge⟩, beats, jobWords, List.map_ofFn, weight, activation]
  exact congrArg some (congrArg List.ofFn (funext fun c => cycles_accReg _ _ c))

/-- The weights and the first activations the model prints its words for. -/
def modelWeights : List ℤ := [1, 2, 3, 4, 2, 1, 2, 1, 1, 3, 1, 2, 2, 2, 1, 1]

def activationsA : List ℤ := [1, 2, 3, 4]

/-- The refinement at the first vector. -/
theorem golden_model_refines_test : macModel modelWeights activationsA =
    some ((resBeats (blank : State 4 4 8) (jobStream testWeights testActivations 4 4) 0 40).map
      fun beat => (beat.1.toNat : ℤ)) := by
  have run : LoadsAndStarts 8 (modelWeights.map (BitVec.ofInt 8))
      (activationsA.map (BitVec.ofInt 8)) 4 4 (jobStream testWeights testActivations 4 4) 20 :=
    jobStream_runs testWeights testActivations 4 4
  exact golden_model_refines modelWeights activationsA rfl rfl blank _ 20 run 40 (by decide)

example : macModel modelWeights activationsA = some [5, 13, 14, 12] := by decide

end MiniMac.Dv.GoldenModel
