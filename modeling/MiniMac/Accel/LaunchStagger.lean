/-
# Accel.LaunchStagger -- the start pulses of the four cores

The filled inputs launch every enabled core once after a start, and delay registers
put the pulses of the cores apart: none for core 0, two for core 2, and one for core
1 and for core 3, which therefore start together.  A pulse of core 2 is still on its
way when a start follows its launch at once, and then belongs to the new operation.
`starts_apart_iff` says that nothing else can go wrong.
-/
import MiniMac.Accel.MacMulticore

namespace MiniMac.Accel.MacMulticore

open MiniMac.Theory

set_option autoImplicit false

variable (ins : ℕ → Inputs)

def startAt (t : ℕ) : Bool := globalStart (after ins t)

def launchesAt (t k : ℕ) : Bool := launches (after ins t) (ins t) k

def pulsesAt (t : ℕ) (c : Fin 4) : Bool := coreStart (after ins t) (ins t) c

def enabledAt (t k : ℕ) : Bool := (coreEn (after ins t)).getLsbD k

/-- The registers between a core's launch and its pulse. -/
def delay : Fin 4 → ℕ
  | 0 => 0
  | 1 => 1
  | 2 => 2
  | 3 => 1

/-- No start comes in the cycles after `g` up to `t`. -/
def NoStart (g t : ℕ) : Prop := ∀ u, g < u → u ≤ t → startAt ins u = false

/-- The mask is held from every start to the next. -/
def Held : Prop :=
  ∀ g t, startAt ins g = true → g ≤ t → NoStart ins g t →
    coreEn (after ins t) = coreEn (after ins g)

/-! ## What the launch promises -/

/-- In no cycle do two cores start. -/
def OneAtATime : Prop :=
  ∀ t c c', pulsesAt ins t c = true → pulsesAt ins t c' = true → c = c'

/-- Between one start and the next a core is started once, and only if it is enabled. -/
def OncePerStart : Prop :=
  ∀ g t c, startAt ins g = true → g < t → NoStart ins g t → pulsesAt ins t c = true →
    enabledAt ins t c = true ∧ ∀ u, g < u → u < t → pulsesAt ins u c = false

/-- The launches whose pulses do not get into each other's way. -/
structure StartsApart : Prop where
  /-- Cores 1 and 3 are not launched together. -/
  pair : ∀ t, ¬ (launchesAt ins t 1 = true ∧ launchesAt ins t 3 = true)
  /-- Core 0 is not launched when a launch of core 2 arrives. -/
  behind : ∀ t, launchesAt ins t 2 = true → launchesAt ins (t + 2) 0 = false
  /-- A launch of core 2 that a start overtakes is the core's launch for that start. -/
  late : ∀ t, launchesAt ins t 2 = true → startAt ins (t + 1) = true →
    startAt ins (t + 2) = false →
      enabledAt ins (t + 2) 2 = true ∧
        ∀ l, t + 1 < l → launchesAt ins l 2 = true → ¬ NoStart ins (t + 1) (l + 2)

/-! ## One launch for a start -/

section Launch

variable {ins}

theorem launch_quiet {t k : ℕ} (launched : launchesAt ins t k = true) :
    startAt ins t = false := by
  simp only [launchesAt, launches, coreLaunch, Bool.and_eq_true, Bool.not_eq_true'] at launched
  exact launched.1.1.2

theorem launch_enabled {t k : ℕ} (launched : launchesAt ins t k = true) :
    enabledAt ins t k = true := by
  simp only [launchesAt, launches, Bool.and_eq_true] at launched
  exact launched.1.2

theorem launch_first {t k : ℕ} (launched : launchesAt ins t k = true) :
    (after ins t).coreLaunchedR = false := by
  simp only [launchesAt, launches, coreLaunch, Bool.and_eq_true, Bool.not_eq_true'] at launched
  exact launched.1.1.1.2

theorem coreLaunchedR_launch {t k : ℕ} (launched : launchesAt ins t k = true) :
    (after ins (t + 1)).coreLaunchedR = true := by
  have quiet : globalStart (after ins t) = false := launch_quiet launched
  simp only [launchesAt, launches, coreLaunch, Bool.and_eq_true, Bool.not_eq_true'] at launched
  have filled : (ins t).dmaInputsDoneI = true := launched.1.1.1.1
  have first : (after ins t).coreLaunchedR = false := launched.1.1.1.2
  rw [after_succ]
  simp [step, quiet, filled, first]

/-- The launch is remembered until a start. -/
theorem coreLaunchedR_keep {t t' : ℕ} (up : (after ins t).coreLaunchedR = true) (low : t ≤ t')
    (quiet : ∀ u, t ≤ u → u < t' → startAt ins u = false) :
    (after ins t').coreLaunchedR = true := by
  induction t', low using Nat.le_induction with
  | base => exact up
  | succ u low ih =>
      have still := ih fun v low' high => quiet v low' (by omega)
      have noStart : globalStart (after ins u) = false := quiet u low (by omega)
      rw [after_succ]
      simp [step, noStart, still]

/-- A start lies between two launches. -/
theorem start_between {l l' k k' : ℕ} (earlier : launchesAt ins l k = true)
    (later : launchesAt ins l' k' = true) (order : l < l') :
    ∃ w, l < w ∧ w < l' ∧ startAt ins w = true := by
  by_contra none
  push Not at none
  have up := coreLaunchedR_keep (coreLaunchedR_launch earlier) order fun u low high => by
    simpa using none u low high
  exact absurd (up.symm.trans (launch_first later)) (by decide)

end Launch

/-! ## Pulses are delayed launches -/

theorem pulse_iff (t : ℕ) (c : Fin 4) :
    pulsesAt ins t c = true ↔ ∃ l, t = l + delay c ∧ launchesAt ins l c = true := by
  refine Clocked.delayed_iff (p := fun t => pulsesAt ins t c) (q := fun l => launchesAt ins l c)
    ?_ ?_ t
  · intro u early
    match c, u with
    | 1, 0 => rfl
    | 2, 0 => rfl
    | 2, 1 => rfl
    | 3, 0 => rfl
  · intro l
    match c with
    | 0 => rfl
    | 1 => rfl
    | 2 => rfl
    | 3 => rfl

/-- Two cores pulse together only from one launch of cores 1 and 3, or when a launch of
core 0 meets an earlier one of core 2. -/
theorem oneAtATime_of_apart (apart : StartsApart ins) : OneAtATime ins := by
  have ordered : ∀ t (c c' : Fin 4) (l l' : ℕ), t = l + delay c → t = l' + delay c' →
      launchesAt ins l c = true → launchesAt ins l' c' = true → ¬ l < l' := by
    intro t c c' l l' now now' launched launched' order
    obtain ⟨w, after, before, -⟩ := start_between launched launched' order
    match c, c' with
    | 2, 0 =>
        obtain rfl : l' = l + 2 := by
          change t = l + 2 at now
          change t = l' + 0 at now'
          omega
        exact absurd ((apart.behind l launched).symm.trans launched') (by decide)
    | 0, _ | 1, _ | 3, _ | 2, 1 | 2, 2 | 2, 3 =>
        simp only [delay] at now now'
        omega
  intro t c c' pulse pulse'
  obtain ⟨l, now, launched⟩ := (pulse_iff ins t c).mp pulse
  obtain ⟨l', now', launched'⟩ := (pulse_iff ins t c').mp pulse'
  obtain rfl : l = l' := by
    have one := ordered t c c' l l' now now' launched launched'
    have other := ordered t c' c l' l now' now launched' launched
    omega
  match c, c' with
  | 0, 0 | 1, 1 | 2, 2 | 3, 3 => rfl
  | 1, 3 => exact absurd ⟨launched, launched'⟩ (apart.pair l)
  | 3, 1 => exact absurd ⟨launched', launched⟩ (apart.pair l)
  | 0, 1 | 0, 2 | 0, 3 | 1, 0 | 1, 2 | 2, 0 | 2, 1 | 2, 3 | 3, 0 | 3, 2 =>
      simp only [delay] at now now'
      omega

/-- A pulse between two starts comes from a launch between them, or it is the pulse of
core 2 that the first start has overtaken. -/
theorem launch_of_pulse {g t : ℕ} {c : Fin 4} (start : startAt ins g = true) (later : g < t)
    (pulse : pulsesAt ins t c = true) :
    (∃ l, g < l ∧ t = l + delay c ∧ launchesAt ins l c = true) ∨
      (∃ l, g = l + 1 ∧ t = l + 2 ∧ c = 2 ∧ launchesAt ins l 2 = true) := by
  obtain ⟨l, now, launched⟩ := (pulse_iff ins t c).mp pulse
  rcases Nat.lt_trichotomy g l with within | same | before
  · exact .inl ⟨l, within, now, launched⟩
  · rw [same] at start
    exact absurd (start.symm.trans (launch_quiet launched)) (by decide)
  · match c with
    | 2 =>
        change t = l + 2 at now
        exact .inr ⟨l, by omega, now, rfl, launched⟩
    | 0 | 1 | 3 =>
        simp only [delay] at now
        omega

theorem oncePerStart_of_apart (held : Held ins) (apart : StartsApart ins) : OncePerStart ins := by
  intro g t c start later quiet pulse
  rcases launch_of_pulse ins start later pulse with
    ⟨l, within, now, launched⟩ | ⟨l, rfl, rfl, rfl, launched⟩
  · refine ⟨?_, fun u low high => ?_⟩
    · -- the mask of the launch is the mask of the pulse
      have here := held g t start (by omega) quiet
      have there := held g l start (by omega) fun v low' high' => quiet v low' (by omega)
      rw [enabledAt, here, ← there]
      exact launch_enabled launched
    · by_contra again
      rcases launch_of_pulse ins start low (by simpa using again) with
        ⟨l', within', now', launched'⟩ | ⟨l', rfl, rfl, rfl, launched'⟩
      · obtain ⟨w, low', high', restart⟩ := start_between launched' launched (by omega)
        exact absurd (restart.symm.trans (quiet w (by omega) (by omega))) (by decide)
      · change t = l + 2 at now
        have overtaken := apart.late l' launched' start (quiet _ (by omega) (by omega))
        refine overtaken.2 l within launched ?_
        rw [← now]
        exact quiet
  · have overtaken := apart.late l launched start (quiet _ (by omega) (le_refl _))
    exact ⟨overtaken.1, fun u low high => by omega⟩

theorem apart_of_promises (one : OneAtATime ins) (once : OncePerStart ins) : StartsApart ins where
  pair t both := by
    have first := (pulse_iff ins (t + 1) 1).mpr ⟨t, rfl, both.1⟩
    have third := (pulse_iff ins (t + 1) 3).mpr ⟨t, rfl, both.2⟩
    exact absurd (one _ _ _ first third) (by decide)
  behind t launched := by
    by_contra again
    have second := (pulse_iff ins (t + 2) 2).mpr ⟨t, rfl, launched⟩
    have zeroth := (pulse_iff ins (t + 2) 0).mpr ⟨t + 2, rfl, by simpa using again⟩
    exact absurd (one _ _ _ second zeroth) (by decide)
  late t launched start quiet := by
    have pulse := (pulse_iff ins (t + 2) 2).mpr ⟨t, rfl, launched⟩
    have still : NoStart ins (t + 1) (t + 2) := by
      intro u low high
      obtain rfl : u = t + 2 := by omega
      exact quiet
    refine ⟨(once _ _ _ start (by omega) still pulse).1, fun l after launched' none => ?_⟩
    have pulse' := (pulse_iff ins (l + 2) 2).mpr ⟨l, rfl, launched'⟩
    have first := (once _ _ _ start (by omega) none pulse').2 (t + 2) (by omega) (by omega)
    exact absurd (first.symm.trans pulse) (by decide)

/-- **The starts are staggered and unique exactly when** cores 1 and 3 are not launched
together and no launch of core 2 gets in the way of what a start right after it does. -/
theorem starts_apart_iff (held : Held ins) :
    OneAtATime ins ∧ OncePerStart ins ↔ StartsApart ins := by
  constructor
  · rintro ⟨one, once⟩
    exact apart_of_promises ins one once
  · intro apart
    exact ⟨oneAtATime_of_apart ins apart, oncePerStart_of_apart ins held apart⟩

/-! ## Three cores and four cores -/

/-- The mask is written to CORE_EN, then a start to CTRL, and the inputs are filled two
cycles later. -/
def maskThenStart (en : BitVec 4) (t : ℕ) : Inputs where
  paddr := if t = 0 then 0x10 else 0
  psel := decide (t < 2)
  penable := decide (t < 2)
  pwrite := decide (t < 2)
  pwdata := if t = 0 then en.setWidth 32 else 1
  dmaBusyI := false
  dmaDoneI := false
  dmaInputsDoneI := decide (3 ≤ t)
  dmaWgtDoneI := false
  dmaActDoneI := false
  dmaResDoneI := false
  coreDone := 0

theorem maskThenStart_coreEn (en : BitVec 4) (t : ℕ) :
    coreEn (after (maskThenStart en) (t + 1)) = en := by
  induction t with
  | zero =>
      have low : (en.setWidth 32).extractLsb' 0 4 = en := by
        revert en
        decide
      exact low
  | succ t ih =>
      have other : (MacCfgRegs.writes (regsInputs (after (maskThenStart en) (t + 1))
          (maskThenStart en (t + 1))) && MacCfgRegs.offset (regsInputs
            (after (maskThenStart en) (t + 1)) (maskThenStart en (t + 1))) == 0x10) = false := by
        simp [regsInputs, maskThenStart, MacCfgRegs.offset]
      rw [after_succ, coreEn, step, MacCfgRegs.step_coreEnO, other]
      exact ih

theorem maskThenStart_held (en : BitVec 4) : Held (maskThenStart en) := by
  intro g t start later _
  obtain ⟨g', rfl⟩ : ∃ g', g = g' + 1 := by
    cases g with
    | zero => cases start
    | succ g' => exact ⟨g', rfl⟩
  obtain ⟨t', rfl⟩ : ∃ t', t = t' + 1 := ⟨t - 1, by omega⟩
  rw [maskThenStart_coreEn, maskThenStart_coreEn]

/-- The start pulse is up once. -/
theorem maskThenStart_start (en : BitVec 4) (t : ℕ) :
    startAt (maskThenStart en) t = decide (t = 2) := by
  match t with
  | 0 => rfl
  | 1 => rfl
  | 2 =>
      revert en
      decide
  | t + 3 =>
      have pulse : startAt (maskThenStart en) (t + 3) = MacCfgRegs.startsJob
          (regsInputs (after (maskThenStart en) (t + 2)) (maskThenStart en (t + 2))) :=
        MacCfgRegs.step_startO _ _
      rw [pulse, decide_eq_false (by omega)]
      simp [MacCfgRegs.startsJob, MacCfgRegs.writes, regsInputs, maskThenStart]

/-- The cores are launched with the inputs and not again. -/
theorem maskThenStart_launch {en : BitVec 4} {t k : ℕ}
    (launched : launchesAt (maskThenStart en) t k = true) : t = 3 := by
  have filled : (maskThenStart en t).dmaInputsDoneI = true := by
    rw [launchesAt, launches, coreLaunch, Bool.and_eq_true, Bool.and_eq_true, Bool.and_eq_true,
      Bool.and_eq_true] at launched
    exact launched.1.1.1.1
  have low : 3 ≤ t := of_decide_eq_true filled
  by_contra other
  have first : ∀ en, (after (maskThenStart en) 4).coreLaunchedR = true := by decide
  have still := coreLaunchedR_keep (first en) (show 4 ≤ t by omega) fun u low high => by
    rw [maskThenStart_start]
    exact decide_eq_false (by omega)
  exact absurd ((launch_first launched).symm.trans still) Bool.false_ne_true

/-- Cores 0, 1 and 2. -/
theorem three_cores_start :
    OneAtATime (maskThenStart 0b0111) ∧ OncePerStart (maskThenStart 0b0111) := by
  refine (starts_apart_iff _ (maskThenStart_held _)).mpr ⟨?_, ?_, ?_⟩
  · rintro t ⟨-, third⟩
    exact absurd (launch_enabled third) (by
      rw [enabledAt, maskThenStart_launch third, maskThenStart_coreEn]
      decide)
  · intro t second
    refine eq_false_of_ne_true fun zeroth => ?_
    have here := maskThenStart_launch second
    have there := maskThenStart_launch zeroth
    omega
  · intro t second start
    have here := maskThenStart_launch second
    rw [maskThenStart_start, decide_eq_true_eq] at start
    omega

/-- All four cores: 1 and 3 start in one cycle. -/
theorem cores_start_together :
    ¬ ∀ ins : ℕ → Inputs, Held ins → OneAtATime ins ∧ OncePerStart ins := by
  intro claim
  have one := (claim _ (maskThenStart_held 0b1111)).1
  exact absurd (one 4 1 3 (by decide) (by decide)) (by decide)

end MiniMac.Accel.MacMulticore
