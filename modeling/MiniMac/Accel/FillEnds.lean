/-
# Accel.FillEnds -- when the fill phases end

A fill phase counts its bytes down by four and ends at zero.  Against a memory that
grants what keeps being asked for and answers every read, it ends after one beat for
each word of its range when the length is a number of whole words; any other length
is counted past zero, and the phase has no end (`fills_end_iff`).
-/
import MiniMac.Accel.FillBeats
import MiniMac.Theory.LeadsTo

namespace MiniMac.Accel.AxiStreamDma

open MiniMac.Theory

set_option autoImplicit false

/-- The memory grants what the engine asks for, sooner or later, and answers each granted
read, some cycle after its grant. -/
structure Responsive (dma : ℕ → State) (ins : ℕ → Inputs) : Prop extends Steady dma ins where
  grants : ∀ t, (ins t).mGntI = true → (dma t).mReqO = true
  granted : ∀ t, (∀ u, t ≤ u → (dma u).mReqO = true) → ∃ u, t ≤ u ∧ (ins u).mGntI = true
  answered : ∀ t, readTaken (dma t) (ins t) = true → ∃ u, t < u ∧ (ins u).mRvalidI = true

/-- A memory that need not grant a request for an address outside. -/
structure RespondsTo (inside : BitVec 32 → Prop) (dma : ℕ → State) (ins : ℕ → Inputs) : Prop
    extends Steady dma ins where
  grants : ∀ t, (ins t).mGntI = true → (dma t).mReqO = true
  granted : ∀ t, (∀ u, t ≤ u → (dma u).mReqO = true ∧ inside (dma u).mAddrO) →
    ∃ u, t ≤ u ∧ (ins u).mGntI = true
  answered : ∀ t, readTaken (dma t) (ins t) = true → ∃ u, t < u ∧ (ins u).mRvalidI = true

theorem Responsive.respondsTo {dma : ℕ → State} {ins : ℕ → Inputs}
    (responsive : Responsive dma ins) : RespondsTo (fun _ => True) dma ins where
  toSteady := responsive.toSteady
  grants := responsive.grants
  granted t asks := responsive.granted t fun u low => (asks u low).1
  answered := responsive.answered

/-- The fill phase of a channel that began in cycle `s` goes on up to cycle `t`. -/
def Filling (dma : ℕ → State) (ch : Channel) (s t : ℕ) : Prop :=
  ∀ v, s ≤ v → v ≤ t → (dma v).state = ch.fill ∨ (dma v).state = ch.wait

/-- The fill phase of `len` bytes that began in cycle `s` ends in cycle `e`, after a beat for
each word that its bytes reach into. -/
structure EndsAt (dma : ℕ → State) (ch : Channel) (len : BitVec 32) (s e : ℕ) : Prop where
  later : s ≤ e
  filling : Filling dma ch s e
  phase : (dma e).state = ch.fill
  none : (dma e).bytesLeft = 0
  beats : (beats dma ch s e).length = (len.toNat + 3) / 4

/-- No answer is taken with less than a word left. -/
def NoUnderflow (dma : ℕ → State) (ins : ℕ → Inputs) (s e : ℕ) : Prop :=
  ∀ ch : Channel, ∀ v, s ≤ v → v ≤ e → (dma v).state = ch.wait → (ins v).mRvalidI = true →
    4 ≤ (dma v).bytesLeft.toNat

/-- Both fill phases of the job that starts in cycle `a` end. -/
def FillsEnd (dma : ℕ → State) (ins : ℕ → Inputs) (lenWgt lenAct : BitVec 32) (a : ℕ) : Prop :=
  ∃ e f, EndsAt dma .wgt lenWgt (a + 1) e ∧ EndsAt dma .act lenAct (e + 1) f ∧
    NoUnderflow dma ins (a + 1) f

/-! ## The loop of a phase -/

namespace Loop

variable {ch : Channel} {base len : BitVec 32} {k n : ℕ} {s : State}

/-- The bytes that are left of a number of whole words. -/
theorem left_toNat (loop : Loop ch base len k s) (words : len.toNat = 4 * n) :
    s.bytesLeft.toNat = 4 * (n - k) := by
  have within := loop.within words
  have fits := len.isLt
  rw [loop.left, BitVec.toNat_sub, BitVec.toNat_ofNat, words]
  omega

end Loop

section Steady

variable {dma : ℕ → State} {ins : ℕ → Inputs} (steady : Steady dma ins)
variable {ch : Channel} {base len : BitVec 32} {s : ℕ}

theorem Filling.earlier {t u : ℕ} (filling : Filling dma ch s t) (upto : u ≤ t) :
    Filling dma ch s u :=
  fun v low high => filling v low (by omega)

theorem Filling.succ {t : ℕ} (filling : Filling dma ch s t)
    (next : (dma (t + 1)).state = ch.fill ∨ (dma (t + 1)).state = ch.wait) :
    Filling dma ch s (t + 1) := by
  intro v low high
  rcases Nat.le_succ_iff.mp high with before | rfl
  · exact filling v low before
  · exact next

include steady

/-- A phase with nothing left is over. -/
theorem Steady.ends {t : ℕ} (phase : (dma t).state = ch.fill) (none : (dma t).bytesLeft = 0) :
    ¬ ((dma (t + 1)).state = ch.fill ∨ (dma (t + 1)).state = ch.wait) := by
  rw [steady.next]
  cases ch with
  | wgt =>
      rw [step_wgtDone (steady.noAbort t) phase none]
      simp [Channel.fill, Channel.wait]
  | act =>
      rw [step_actDone (steady.noAbort t) phase none]
      simp [Channel.fill, Channel.wait]

/-- The words that are in are the beats of the phase. -/
theorem Steady.loop_at (opens : Loop ch base len 0 (dma s)) {t : ℕ} (later : s ≤ t) :
    Filling dma ch s t → Loop ch base len (beats dma ch s t).length (dma t) := by
  induction t, later using Nat.le_induction with
  | base =>
      intro _
      rw [beats, Nat.sub_self, Clocked.window_zero]
      exact opens
  | succ t later ih =>
      intro filling
      have loop := ih (filling.earlier (Nat.le_succ t))
      refine (steady.loop_next later loop fun phase none => ?_).1
      exact steady.ends phase none (filling (t + 1) (by omega) (le_refl _))

/-- A phase that ends has counted whole words. -/
theorem EndsAt.whole {e : ℕ} (ends : EndsAt dma ch len s e)
    (opens : Loop ch base len 0 (dma s)) : 4 ∣ len.toNat := by
  have loop := steady.loop_at opens ends.later ends.filling
  exact ⟨_, (loop.whole ends.none).symm⟩

/-- A number of whole words is not counted past zero. -/
theorem Steady.left_ge (opens : Loop ch base len 0 (dma s)) {n t : ℕ}
    (words : len.toNat = 4 * n) (later : s ≤ t) (filling : Filling dma ch s t) {ch' : Channel}
    (phase : (dma t).state = ch'.wait) : 4 ≤ (dma t).bytesLeft.toNat := by
  have loop := steady.loop_at opens later filling
  have left := loop.left_toNat words
  obtain rfl := loop.channel phase
  rcases loop.phase with fill | ⟨-, more⟩
  · exact absurd (fill.symm.trans phase) Channel.fill_ne_wait
  · have positive : (dma t).bytesLeft.toNat ≠ 0 := fun zero =>
      more (BitVec.eq_of_toNat_eq zero)
    omega

end Steady

/-! ## Getting to the end -/

section Responds

variable {inside : BitVec 32 → Prop} {dma : ℕ → State} {ins : ℕ → Inputs}
variable (responds : RespondsTo inside dma ins)
variable {ch : Channel} {base len : BitVec 32} {s : ℕ}

/-- The phase works on word `k`, which is not asked for yet. -/
structure Rung (dma : ℕ → State) (ch : Channel) (s k t : ℕ) : Prop where
  later : s ≤ t
  filling : Filling dma ch s t
  phase : (dma t).state = ch.fill
  down : (dma t).mReqO = false
  beats : (beats dma ch s t).length = k

include responds

/-- A word that is asked for is granted. -/
theorem RespondsTo.read_granted {k t : ℕ} (rung : Rung dma ch s k t)
    (more : (dma t).bytesLeft ≠ 0) (within : inside (dma t).currAddr) :
    ∃ g, t ≤ g ∧ readTaken (dma g) (ins g) = true ∧ Filling dma ch s (g + 1) ∧
      (dma (g + 1)).state = ch.wait ∧ (beats dma ch s (g + 1)).length = k := by
  have later := rung.later
  -- what lasts until the grant
  let asks (u : ℕ) : Prop := s ≤ u ∧ Filling dma ch s u ∧ (dma u).state = ch.fill ∧
    (dma u).bytesLeft ≠ 0 ∧ inside (dma u).currAddr ∧
    ((dma u).mReqO = true → (dma u).mWeO = false) ∧ (beats dma ch s u).length = k
  have engine {u : ℕ} (at_ : asks u) :
      dma (u + 1) = request (dma u) (ins u) ch.wait (defaults (dma u)) := by
    obtain ⟨-, -, phase, more, -, -, -⟩ := at_
    exact (responds.next u).trans (step_fill (responds.noAbort u) phase more)
  have silent {u : ℕ} (at_ : asks u) : (beats dma ch s (u + 1)).length = k := by
    obtain ⟨low, -, phase, -, -, -, count⟩ := at_
    rw [responds.beats_silent low (phase ▸ Channel.fill_ne_wait)]
    exact count
  have start : asks t :=
    ⟨later, rung.filling, rung.phase, more, within,
      fun up => absurd (rung.down.symm.trans up) (by decide), rung.beats⟩
  obtain ⟨g, after, grant, lasts⟩ := LeadsTo.wait asks (fun u => (ins u).mGntI = true) start (by
      intro u _ at_ refused
      have next := engine at_
      have count := silent at_
      obtain ⟨low, filling, phase, more, place, -, -⟩ := at_
      have stays : (dma (u + 1)).state = ch.fill := by
        rw [next]
        simpa [request, refused] using phase
      refine ⟨by omega, filling.succ (.inl stays), stays, ?_, ?_, ?_, count⟩
      · rw [next]
        exact more
      · rw [next]
        exact place
      · intro _
        rw [next]
        rfl) (by
      intro always
      obtain ⟨u, low, grant⟩ := responds.granted (t + 1) fun u low => by
        obtain ⟨v, rfl⟩ : ∃ v, u = v + 1 := ⟨u - 1, by omega⟩
        have at_ := always v (by omega)
        rw [engine at_]
        exact ⟨rfl, at_.2.2.2.2.1⟩
      exact ⟨u, by omega, grant⟩)
  have at_ := lasts g after (le_refl g)
  have next := engine at_
  have count := silent at_
  obtain ⟨-, filling, -, -, -, reads, -⟩ := at_
  have waits : (dma (g + 1)).state = ch.wait := by
    rw [next]
    simp [request, grant]
  refine ⟨g, after, ?_, filling.succ (.inr waits), waits, count⟩
  simp [readTaken, grant, reads (responds.grants g grant)]

/-- An answer is waited for until it comes. -/
theorem RespondsTo.read_answered {k g : ℕ} (taken : readTaken (dma g) (ins g) = true)
    (later : s ≤ g) (filling : Filling dma ch s (g + 1)) (phase : (dma (g + 1)).state = ch.wait)
    (count : (beats dma ch s (g + 1)).length = k) :
    ∃ u, g < u ∧ Rung dma ch s (k + 1) u := by
  let waits (u : ℕ) : Prop := Filling dma ch s u ∧ (dma u).state = ch.wait ∧
    (beats dma ch s u).length = k
  have start : waits (g + 1) := ⟨filling, phase, count⟩
  obtain ⟨r, after, valid, lasts⟩ := LeadsTo.wait waits (fun u => (ins u).mRvalidI = true) start (by
      intro u low ⟨filling, phase, count⟩ silent
      have engine := (responds.next u).trans
        (step_stall (responds.noAbort u) phase (by simpa using silent))
      have stays : (dma (u + 1)).state = ch.wait := by
        rw [engine]
        exact phase
      have none : ch.beat (dma (u + 1)) = Option.none := by
        rw [engine]
        cases ch <;> rfl
      refine ⟨filling.succ (.inr stays), stays, ?_⟩
      rw [beats_succ dma ch (by omega), none]
      simpa using count) (by
      intro _
      exact responds.answered g taken)
  obtain ⟨filling, phase, count⟩ := lasts r after (le_refl r)
  have engine := (responds.next r).trans (step_wait (responds.noAbort r) phase valid)
  have fills : (dma (r + 1)).state = ch.fill := by
    rw [engine]
  have beat : ch.beat (dma (r + 1)) = some (ins r).mRdataI := by
    rw [responds.next, beat_step (responds.noAbort r), if_pos ⟨phase, valid⟩]
  refine ⟨r + 1, by omega, by omega, filling.succ (.inl fills), fills, ?_, ?_⟩
  · rw [engine]
    cases ch <;> rfl
  · rw [beats_succ dma ch (by omega), beat, List.length_append, count]
    rfl

/-- A phase of whole words comes to its end. -/
theorem RespondsTo.endsAt {n : ℕ} (opens : Loop ch base len 0 (dma s))
    (fills : (dma s).state = ch.fill) (down : (dma s).mReqO = false)
    (words : len.toNat = 4 * n) (within : ∀ k < n, inside (wordAddr base k)) :
    ∃ e, EndsAt dma ch len s e := by
  have start : Rung dma ch s 0 s := by
    refine ⟨le_refl s, ?_, fills, down, ?_⟩
    · intro v low high
      obtain rfl : v = s := by omega
      exact .inl fills
    · rw [beats, Nat.sub_self, Clocked.window_zero]
      rfl
  obtain ⟨e, -, rung⟩ := LeadsTo.climb (Rung dma ch s) start (n := n) (by
    intro k u below later rung
    have loop := responds.loop_at opens rung.later rung.filling
    have left := loop.left_toNat words
    rw [rung.beats] at left
    have more : (dma u).bytesLeft ≠ 0 := by
      intro none
      rw [none] at left
      simp at left
      omega
    have place : inside (dma u).currAddr := by
      rw [loop.addr, rung.beats]
      exact within k below
    obtain ⟨g, after, taken, filling, phase, count⟩ := responds.read_granted rung more place
    obtain ⟨v, behind, next⟩ := responds.read_answered taken (by omega) filling phase count
    exact ⟨v, by omega, next⟩)
  have loop := responds.loop_at opens rung.later rung.filling
  have left := loop.left_toNat words
  rw [rung.beats, Nat.sub_self] at left
  refine ⟨e, rung.later, rung.filling, rung.phase, BitVec.eq_of_toNat_eq left, ?_⟩
  rw [rung.beats, words]
  omega

omit responds in
/-- So it does against a memory that grants everything. -/
theorem Responsive.endsAt {n : ℕ} (responsive : Responsive dma ins)
    (opens : Loop ch base len 0 (dma s)) (fills : (dma s).state = ch.fill)
    (down : (dma s).mReqO = false) (words : len.toNat = 4 * n) : ∃ e, EndsAt dma ch len s e :=
  responsive.respondsTo.endsAt opens fills down words fun _ _ => trivial

end Responds

/-! ## A job -/

section Jobs

variable {dma : ℕ → State} {ins : ℕ → Inputs} {a : ℕ}

/-- A start opens the weight phase. -/
theorem Steady.wgt_opens (steady : Steady dma ins) (idle : (dma a).state = .idle)
    (start : (ins a).startI = true) :
    Loop .wgt (ins a).wgtBaseI (ins a).dmaLenWgtI 0 (dma (a + 1)) ∧
      (dma (a + 1)).state = Channel.wgt.fill ∧ (dma (a + 1)).mReqO = false := by
  rw [steady.next, step_start (steady.noAbort a) idle start]
  exact ⟨Loop.begin rfl rfl rfl, rfl, rfl⟩

/-- The end of the weight phase opens the activation phase. -/
theorem Steady.act_opens (steady : Steady dma ins) {e : ℕ}
    (phase : (dma e).state = Channel.wgt.fill) (none : (dma e).bytesLeft = 0) :
    Loop .act (ins e).actBaseI (ins e).dmaLenActI 0 (dma (e + 1)) ∧
      (dma (e + 1)).state = Channel.act.fill ∧ (dma (e + 1)).mReqO = false := by
  rw [steady.next, step_wgtDone (steady.noAbort e) phase none]
  exact ⟨Loop.begin rfl rfl rfl, rfl, rfl⟩

/-- A job of whole words fills both ranges. -/
theorem Responsive.fillsEnd (responsive : Responsive dma ins) (idle : (dma a).state = .idle)
    (start : (ins a).startI = true) {lenAct : BitVec 32}
    (held : ∀ u, Filling dma .wgt (a + 1) u → (ins u).dmaLenActI = lenAct)
    (wgtWords : 4 ∣ (ins a).dmaLenWgtI.toNat) (actWords : 4 ∣ lenAct.toNat) :
    FillsEnd dma ins (ins a).dmaLenWgtI lenAct a := by
  have steady := responsive.toSteady
  obtain ⟨wgt, wgtFills, wgtDown⟩ := steady.wgt_opens idle start
  obtain ⟨m, wgtWords⟩ := wgtWords
  obtain ⟨n, actWords⟩ := actWords
  obtain ⟨e, wgtEnds⟩ := responsive.endsAt wgt wgtFills wgtDown wgtWords
  obtain ⟨act, actFills, actDown⟩ := steady.act_opens wgtEnds.phase wgtEnds.none
  rw [held e wgtEnds.filling] at act
  obtain ⟨f, actEnds⟩ := responsive.endsAt act actFills actDown actWords
  refine ⟨e, f, wgtEnds, actEnds, ?_⟩
  intro ch v low high phase _
  rcases Nat.lt_or_ge e v with second | first
  · exact steady.left_ge act actWords second (actEnds.filling.earlier high) phase
  · exact steady.left_ge wgt wgtWords low (wgtEnds.filling.earlier first) phase

/-- **The fill phases of a job end exactly for lengths of whole words.** -/
theorem fills_end_iff (responsive : Responsive dma ins) (idle : (dma a).state = .idle)
    (start : (ins a).startI = true) (lenAct : BitVec 32)
    (held : ∀ u, Filling dma .wgt (a + 1) u → (ins u).dmaLenActI = lenAct) :
    FillsEnd dma ins (ins a).dmaLenWgtI lenAct a ↔
      4 ∣ (ins a).dmaLenWgtI.toNat ∧ 4 ∣ lenAct.toNat := by
  have steady := responsive.toSteady
  obtain ⟨wgt, -, -⟩ := steady.wgt_opens idle start
  constructor
  · rintro ⟨e, f, wgtEnds, actEnds, -⟩
    obtain ⟨act, -, -⟩ := steady.act_opens wgtEnds.phase wgtEnds.none
    rw [held e wgtEnds.filling] at act
    exact ⟨wgtEnds.whole steady wgt, actEnds.whole steady act⟩
  · rintro ⟨wgtWords, actWords⟩
    exact responsive.fillsEnd idle start held wgtWords actWords

end Jobs

/-! ## A prompt memory -/

/-- The engine and a memory that answers each granted read in the next cycle. -/
structure Bench where
  dma : State
  answer : Option (BitVec 32)

namespace Bench

/-- The engine's inputs: the memory grants a request that is up when it is let to. -/
def inputs (s : Bench) (i : Inputs) : Inputs :=
  { i with
    mGntI := s.dma.mReqO && i.mGntI
    mRvalidI := s.answer.isSome
    mRdataI := s.answer.getD i.mRdataI }

variable (mem : BitVec 32 → BitVec 32)

def step (s : Bench) (i : Inputs) : Bench where
  dma := AxiStreamDma.step s.dma (s.inputs i)
  answer := if readTaken s.dma (s.inputs i) then some (mem s.dma.mAddrO) else none

/-- An engine whose unreset registers are all zero. -/
def powerUp : Bench where
  dma := ⟨false, false, false, false, false, 0, false, 0, 0, false, 0, false, false, .idle, 0, 0, 0⟩
  answer := none

variable (ins : ℕ → Inputs)

def after (t : ℕ) : Bench := Clocked.run (step mem) powerUp ins t

def dmaAt (t : ℕ) : State := (after mem ins t).dma

def inputsAt (t : ℕ) : Inputs := (after mem ins t).inputs (ins t)

variable {ins}

theorem served (noAbort : ∀ t, (ins t).abortI = false) :
    Served 1 (dmaAt mem ins) (inputsAt mem ins) where
  positive := Nat.one_pos
  next _ := rfl
  noAbort := noAbort
  grants t grant := (Bool.and_eq_true_iff.mp grant).1
  answers := by
    constructor
    · intro t early
      obtain rfl : t = 0 := by omega
      rfl
    · intro t
      show (step mem (after mem ins t) (ins t)).answer.isSome = _
      unfold step
      dsimp only
      split <;> simp_all [inputsAt, dmaAt]
  start := rfl
  noRead up := absurd up Bool.false_ne_true

theorem responsive (noAbort : ∀ t, (ins t).abortI = false) (free : ∀ t, (ins t).mGntI = true) :
    Responsive (dmaAt mem ins) (inputsAt mem ins) where
  toSteady := (served mem noAbort).steady
  grants := (served mem noAbort).grants
  granted t up := by
    refine ⟨t, le_refl t, ?_⟩
    show ((dmaAt mem ins t).mReqO && (ins t).mGntI) = true
    rw [up t (le_refl t), free t]
    rfl
  answered t taken :=
    ⟨t + 1, Nat.lt_succ_self t, ((served mem noAbort).answers.delayed t).trans taken⟩

/-- A job on its own: started in cycle 0, and nothing else happens. -/
def jobInputs (wgtBase actBase lenWgt lenAct : BitVec 32) (t : ℕ) : Inputs where
  startI := t == 0
  abortI := false
  wgtBaseI := wgtBase
  actBaseI := actBase
  resBaseI := 0
  dmaLenWgtI := lenWgt
  dmaLenActI := lenAct
  mGntI := true
  mRvalidI := false
  mRdataI := 0
  sAxisResTdata := 0
  sAxisResTvalid := false
  sAxisResTlast := false

end Bench

/-- Two weight words and one activation word. -/
theorem fills_end_words :
    FillsEnd (Bench.dmaAt (fun _ => 0) (Bench.jobInputs 0 0 8 4))
      (Bench.inputsAt (fun _ => 0) (Bench.jobInputs 0 0 8 4)) 8 4 0 :=
  (fills_end_iff (Bench.responsive (fun _ => 0) (fun _ => rfl) fun _ => rfl) rfl rfl 4
    fun _ _ => rfl).mpr ⟨by decide, by decide⟩

/-- Two bytes of weights are never in. -/
theorem fills_never_end :
    ¬ ∀ (dma : ℕ → State) (ins : ℕ → Inputs) (a : ℕ) (lenAct : BitVec 32),
      Responsive dma ins → (dma a).state = .idle → (ins a).startI = true →
      (∀ u, Filling dma .wgt (a + 1) u → (ins u).dmaLenActI = lenAct) →
      FillsEnd dma ins (ins a).dmaLenWgtI lenAct a := by
  intro claim
  have responsive : Responsive (Bench.dmaAt (fun _ => 0) (Bench.jobInputs 0 0 2 0)) _ :=
    Bench.responsive (fun _ => 0) (fun _ => rfl) fun _ => rfl
  obtain ⟨e, -, ends, -, -⟩ := claim _ _ 0 0 responsive rfl rfl fun _ _ => rfl
  obtain ⟨opens, -, -⟩ := responsive.toSteady.wgt_opens (a := 0) rfl rfl
  exact absurd (ends.whole responsive.toSteady opens) (by decide)

end MiniMac.Accel.AxiStreamDma
