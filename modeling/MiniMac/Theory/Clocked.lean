/-
# Theory.Clocked -- runs of a synchronous machine

A synchronous design is a step function: the registers before a clock edge and
the inputs sampled at it give the registers after it.  `run` is its state after
`t` edges under an input stream.  The invariant rules below are the inductions
every run proof uses; `window` collects what a run emits in a span of cycles,
and `zrun` extends a run that starts at rest to all of integer time, so that a
law with delays needs no side condition about the first cycles.
-/
import Mathlib.Data.List.OfFn
import Mathlib.Tactic.Ring

namespace MiniMac.Theory.Clocked

set_option autoImplicit false

universe u v w

variable {σ : Type u} {ι : Type v} {α : Type w}

/-! ## Runs -/

/-- The state after `t` clock edges from `s` under the input stream `ins`. -/
def run (step : σ → ι → σ) (s : σ) (ins : ℕ → ι) : ℕ → σ
  | 0 => s
  | t + 1 => step (run step s ins t) (ins t)

variable {step : σ → ι → σ} {s : σ} {ins : ℕ → ι}

@[simp] theorem run_zero : run step s ins 0 = s := rfl

theorem run_succ (t : ℕ) : run step s ins (t + 1) = step (run step s ins t) (ins t) := rfl

/-- What starts as a run does and steps as it does is that run. -/
theorem eq_run {x : ℕ → σ} (start : x 0 = s) (next : ∀ t, x (t + 1) = step (x t) (ins t)) (t : ℕ) :
    x t = run step s ins t := by
  induction t with
  | zero => exact start
  | succ t ih => rw [next, ih, run_succ]

/-- Two streams that agree before `t` drive one state at `t`. -/
theorem run_congr {ins' : ℕ → ι} {t : ℕ} (same : ∀ u < t, ins u = ins' u) :
    run step s ins t = run step s ins' t := by
  induction t with
  | zero => rfl
  | succ t ih =>
      rw [run_succ, run_succ, ih fun u hu => same u (Nat.lt_succ_of_lt hu),
        same t (Nat.lt_succ_self t)]

/-! ## Invariants -/

/-- What holds at the start and survives every edge holds throughout. -/
theorem invariant {P : σ → Prop} (base : P s) (keep : ∀ s i, P s → P (step s i)) (t : ℕ) :
    P (run step s ins t) := by
  induction t with
  | zero => exact base
  | succ t ih => exact keep _ _ ih

/-- The rule for a property that names the cycle, over the span from `a` to `b`. -/
theorem invariant_between {P : ℕ → σ → Prop} {a b : ℕ} (base : P a (run step s ins a))
    (keep : ∀ t, a ≤ t → t < b → P t (run step s ins t) →
      P (t + 1) (step (run step s ins t) (ins t))) :
    ∀ t, a ≤ t → t ≤ b → P t (run step s ins t) := by
  intro t lower
  induction t, lower using Nat.le_induction with
  | base =>
      intro _
      exact base
  | succ t lower ih =>
      intro upper
      exact keep t lower (by omega) (ih (by omega))

/-- The same rule with no end. -/
theorem invariant_from {P : ℕ → σ → Prop} {a : ℕ} (base : P a (run step s ins a))
    (keep : ∀ t, a ≤ t → P t (run step s ins t) →
      P (t + 1) (step (run step s ins t) (ins t))) (t : ℕ) (lower : a ≤ t) :
    P t (run step s ins t) :=
  invariant_between base (fun u hu _ => keep u hu) t lower (le_refl t)

/-! ## Delays -/

/-- A line that is low for its first `d` cycles repeats its source `d` cycles later. -/
theorem delayed_iff {p q : ℕ → Bool} {d : ℕ} (rest : ∀ t < d, p t = false)
    (shift : ∀ l, p (l + d) = q l) (t : ℕ) :
    p t = true ↔ ∃ l, t = l + d ∧ q l = true := by
  constructor
  · intro up
    rcases Nat.lt_or_ge t d with early | late
    · exact absurd ((rest t early).symm.trans up) (by decide)
    · refine ⟨t - d, (Nat.sub_add_cancel late).symm, ?_⟩
      rw [← shift, Nat.sub_add_cancel late]
      exact up
  · rintro ⟨l, rfl, up⟩
    rw [shift]
    exact up

/-! ## What a span of cycles emits -/

/-- The events of the cycles `a ≤ t < a + n`, in order. -/
def window (f : ℕ → Option α) (a : ℕ) : ℕ → List α
  | 0 => []
  | n + 1 => window f a n ++ (f (a + n)).toList

@[simp] theorem window_zero (f : ℕ → Option α) (a : ℕ) : window f a 0 = [] := rfl

theorem window_succ (f : ℕ → Option α) (a n : ℕ) :
    window f a (n + 1) = window f a n ++ (f (a + n)).toList := rfl

theorem window_add (f : ℕ → Option α) (a m n : ℕ) :
    window f a (m + n) = window f a m ++ window f (a + m) n := by
  induction n with
  | zero => simp
  | succ n ih =>
      rw [← Nat.add_assoc, window_succ, window_succ, ih, List.append_assoc, Nat.add_assoc]

/-- A silent span emits nothing. -/
theorem window_none {f : ℕ → Option α} {a n : ℕ} (silent : ∀ t, a ≤ t → t < a + n → f t = none) :
    window f a n = [] := by
  induction n with
  | zero => rfl
  | succ n ih =>
      have earlier := ih fun t h₁ h₂ => silent t h₁ (by omega)
      rw [window_succ, earlier, silent (a + n) (by omega) (by omega)]
      rfl

/-- A span that emits `g k` in its `k`-th cycle emits `g` in order. -/
theorem window_some {f : ℕ → Option α} {a n : ℕ} (g : ℕ → α)
    (emits : ∀ k < n, f (a + k) = some (g k)) :
    window f a n = (List.range n).map g := by
  induction n with
  | zero => rfl
  | succ n ih =>
      rw [window_succ, ih fun k hk => emits k (Nat.lt_succ_of_lt hk), emits n (Nat.lt_succ_self n),
        List.range_succ, List.map_append]
      rfl

theorem window_length_le (f : ℕ → Option α) (a n : ℕ) : (window f a n).length ≤ n := by
  induction n with
  | zero => simp
  | succ n ih =>
      rw [window_succ, List.length_append]
      have : (f (a + n)).toList.length ≤ 1 := by cases f (a + n) <;> simp
      omega

theorem mem_window {f : ℕ → Option α} {a n : ℕ} {x : α} :
    x ∈ window f a n ↔ ∃ t, a ≤ t ∧ t < a + n ∧ f t = some x := by
  induction n with
  | zero => simp; omega
  | succ n ih =>
      rw [window_succ, List.mem_append, ih, Option.mem_toList]
      constructor
      · rintro (⟨t, low, high, event⟩ | event)
        · exact ⟨t, low, by omega, event⟩
        · exact ⟨a + n, by omega, by omega, event⟩
      · rintro ⟨t, low, high, event⟩
        rcases Nat.lt_or_ge t (a + n) with earlier | last
        · exact .inl ⟨t, low, earlier, event⟩
        · obtain rfl : t = a + n := by omega
          exact .inr event

/-- The event at a position has its cycle, with as many events before it. -/
theorem window_position {f : ℕ → Option α} {a n k : ℕ} {x : α}
    (position : (window f a n)[k]? = some x) :
    ∃ t, a ≤ t ∧ t < a + n ∧ f t = some x ∧ (window f a (t - a)).length = k := by
  induction n with
  | zero => cases position
  | succ n ih =>
      rw [window_succ] at position
      rcases Nat.lt_or_ge k (window f a n).length with earlier | last
      · rw [List.getElem?_append_left earlier] at position
        obtain ⟨t, low, high, event, count⟩ := ih position
        exact ⟨t, low, by omega, event, count⟩
      · rw [List.getElem?_append_right last] at position
        cases event : f (a + n) with
        | none =>
            rw [event] at position
            cases position
        | some y =>
            rw [event] at position
            obtain ⟨inside, same⟩ := List.getElem?_eq_some_iff.mp position
            simp only [Option.toList_some, List.length_singleton, List.getElem_singleton]
              at inside same
            refine ⟨a + n, by omega, by omega, same ▸ event, ?_⟩
            rw [Nat.add_sub_cancel_left]
            omega

/-- The events of the cycles from `a` up to and without `b`, in order. -/
def span (f : ℕ → Option α) (a b : ℕ) : List α := window f a (b - a)

@[simp] theorem span_self (f : ℕ → Option α) (a : ℕ) : span f a a = [] := by
  rw [span, Nat.sub_self, window_zero]

theorem span_succ {f : ℕ → Option α} {a b : ℕ} (order : a ≤ b) :
    span f a (b + 1) = span f a b ++ (f b).toList := by
  rw [span, Nat.succ_sub order, window_succ, Nat.add_sub_cancel' order]
  rfl

theorem span_append {f : ℕ → Option α} {a b c : ℕ} (first : a ≤ b) (rest : b ≤ c) :
    span f a c = span f a b ++ span f b c := by
  have parts : c - a = (b - a) + (c - b) := by omega
  rw [span, parts, window_add, Nat.add_sub_cancel' first]
  rfl

theorem span_none {f : ℕ → Option α} {a b : ℕ} (silent : ∀ t, a ≤ t → t < b → f t = none) :
    span f a b = [] :=
  window_none fun t low high => silent t low (by omega)

/-! ## Integer time -/

/-- The run, at its starting state in every cycle before the first. -/
def zrun (step : σ → ι → σ) (s : σ) (ins : ℕ → ι) (t : ℤ) : σ :=
  run step s ins t.toNat

/-- The input stream, idle in every cycle before the first. -/
def zins (idle : ι) (ins : ℕ → ι) (t : ℤ) : ι :=
  if t < 0 then idle else ins t.toNat

@[simp] theorem zrun_natCast (t : ℕ) : zrun step s ins (t : ℤ) = run step s ins t := by
  simp [zrun]

theorem zrun_of_neg {t : ℤ} (before : t < 0) : zrun step s ins t = s := by
  have : t.toNat = 0 := by omega
  rw [zrun, this, run_zero]

/-- A state the idle input leaves alone makes one run of all integer time. -/
theorem zrun_succ {idle : ι} (rest : step s idle = s) (t : ℤ) :
    zrun step s ins (t + 1) = step (zrun step s ins t) (zins idle ins t) := by
  by_cases before : t < 0
  · have same : (t + 1).toNat = 0 := by omega
    rw [zrun, same, run_zero, zrun_of_neg before, zins, if_pos before, rest]
  · have next : (t + 1).toNat = t.toNat + 1 := by omega
    rw [zrun, next, run_succ, zins, if_neg before]
    rfl

end MiniMac.Theory.Clocked
