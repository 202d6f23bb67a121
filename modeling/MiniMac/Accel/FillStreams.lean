/-
# Accel.FillStreams -- the input fill streams the right words

Over a memory that answers each granted read a fixed number of cycles after its
grant, with what it held then, the beats of a job are the words of its two ranges:
the weights first, each word once and in order, each beat one cycle long.  A request
that is granted twice is answered twice, and `Accel.FillPort` shows that the second
answer is taken for no other word.  When the memory grants what keeps being asked
for, all words are streamed.
-/
import MiniMac.Accel.FillEnds

namespace MiniMac.Accel.AxiStreamDma

open MiniMac.Theory

set_option autoImplicit false

/-- The memory holds `mem t` in cycle `t`, and answers a granted read with what it held at
the grant. -/
structure Stored (latency : ℕ) (mem : ℕ → BitVec 32 → BitVec 32) (dma : ℕ → State)
    (ins : ℕ → Inputs) : Prop extends Served latency dma ins where
  contents : ∀ g, readTaken (dma g) (ins g) = true →
    (ins (g + latency)).mRdataI = mem g (dma g).mAddrO

/-- What the streams have carried in cycle `t` of the job that started in cycle `a`. -/
structure Carried (mem : ℕ → BitVec 32 → BitVec 32) (x : Job) (dma : ℕ → State)
    (ins : ℕ → Inputs) (a t : ℕ) : Prop where
  /-- The `k`-th beat of a channel is the `k`-th word of its range, as of its grant. -/
  word : ∀ ch k word, (beats dma ch a t)[k]? = some word →
    ∃ g, a < g ∧ readTaken (dma g) (ins g) = true ∧ (dma g).mAddrO = wordAddr (x.base ch) k ∧
      word = mem g (wordAddr (x.base ch) k)
  most : ∀ ch, 4 * (beats dma ch a t).length ≤ (x.len ch).toNat
  /-- The activations come after the last weight. -/
  order : beats dma .act a t ≠ [] → 4 * (beats dma .wgt a t).length = (x.len .wgt).toNat
  pulse : ∀ (ch : Channel) u, a < u → u < t → ch.beat (dma u) ≠ none →
    ∀ ch' : Channel, ch'.beat (dma (u + 1)) = none
  /-- A channel's done flag is up behind its last beat. -/
  done : ∀ ch : Channel, ch.done (dma t) = true →
    ch.beat (dma t) = none ∧ 4 * (beats dma ch a t).length = (x.len ch).toNat

/-- The job starts in cycle `a`, and its activation range is held while the weights are
fetched. -/
structure Job.Begins (x : Job) (dma : ℕ → State) (ins : ℕ → Inputs) (a : ℕ) : Prop where
  idle : (dma a).state = .idle
  start : (ins a).startI = true
  wgtBase : (ins a).wgtBaseI = x.base .wgt
  lenWgt : (ins a).dmaLenWgtI = x.len .wgt
  actBase : ∀ u, Filling dma .wgt (a + 1) u → (ins u).actBaseI = x.base .act
  lenAct : ∀ u, Filling dma .wgt (a + 1) u → (ins u).dmaLenActI = x.len .act

/-- Everything is in. -/
def AllIn (x : Job) (dma : ℕ → State) (a t : ℕ) : Prop :=
  ∀ ch : Channel, ch.done (dma t) = true ∧ 4 * (beats dma ch a t).length = (x.len ch).toNat

/-! ## Beats and flags -/

section Steady

variable {dma : ℕ → State} {ins : ℕ → Inputs} (steady : Steady dma ins) {x : Job} {a : ℕ}

include steady

/-- A beat leaves the wait phase. -/
theorem Steady.wait_of_beat {t : ℕ} {ch : Channel} (beat : ch.beat (dma (t + 1)) ≠ none) :
    (dma t).state = ch.wait ∧ (dma (t + 1)).state = ch.fill ∧
      ∀ ch' : Channel, ch'.done (dma (t + 1)) = ch'.done (dma t) := by
  rw [steady.next, beat_step (steady.noAbort t)] at beat
  have taken : (dma t).state = ch.wait ∧ (ins t).mRvalidI = true := by
    by_contra other
    exact beat (if_neg other)
  have engine := (steady.next t).trans (step_wait (steady.noAbort t) taken.1 taken.2)
  refine ⟨taken.1, ?_, fun ch' => ?_⟩
  · rw [engine]
  · rw [engine]
    cases ch <;> cases ch' <;> rfl

/-- Between two beats there is a cycle without one. -/
theorem Steady.pulse {t : ℕ} {ch : Channel} (beat : ch.beat (dma (t + 1)) ≠ none)
    (ch' : Channel) : ch'.beat (dma (t + 2)) = none := by
  obtain ⟨-, fill, -⟩ := steady.wait_of_beat beat
  exact steady.silent (fill ▸ Channel.fill_ne_wait)

/-- A done flag does not come up with a beat. -/
theorem Steady.silent_of_done {t : ℕ} (spans : x.Over dma ins a t) {ch : Channel}
    (done : ch.done (dma t) = true) : ch.beat (dma t) = none := by
  by_contra beat
  have later := spans.later
  obtain ⟨u, rfl⟩ : ∃ u, t = u + 1 := ⟨t - 1, by omega⟩
  obtain ⟨wait, -, flags⟩ := steady.wait_of_beat beat
  rw [flags ch] at done
  have after : a < u := by
    rcases Nat.lt_or_ge a u with after | same
    · exact after
    · obtain rfl : a = u := by omega
      exact absurd (spans.idle.symm.trans wait) Channel.idle_ne_wait
  cases steady.job_stage (spans.earlier after (Nat.le_succ u)) with
  | wgt loop notDone silent => exact Bool.false_ne_true ((notDone ch).symm.trans done)
  | act loop notDone whole =>
      obtain rfl := loop.channel wait
      exact Bool.false_ne_true (notDone.symm.trans done)
  | past past whole => simp [wait] at past

/-- The flags stay as they are while a channel fills. -/
theorem Steady.flags_at {ch : Channel} {base len : BitVec 32} {s t : ℕ}
    (opens : Loop ch base len 0 (dma s)) (later : s ≤ t) :
    Filling dma ch s t → ∀ ch' : Channel, ch'.done (dma t) = ch'.done (dma s) := by
  induction t, later using Nat.le_induction with
  | base =>
      intro _ ch'
      rfl
  | succ t later ih =>
      intro filling ch'
      have before := filling.earlier (Nat.le_succ t)
      have loop := steady.loop_at opens later before
      have flags := (steady.loop_next later loop fun phase none =>
        steady.ends phase none (filling (t + 1) (by omega) (le_refl _))).2
      rw [flags ch']
      exact ih before ch'

end Steady

/-! ## All words are streamed -/

section Ends

variable {dma : ℕ → State} {ins : ℕ → Inputs} {x : Job} {a e f : ℕ} {lenWgt lenAct : BitVec 32}
variable (wgtEnds : EndsAt dma .wgt lenWgt (a + 1) e) (actEnds : EndsAt dma .act lenAct (e + 1) f)

include wgtEnds actEnds

/-- The engine fills up to the end of the second phase, the weights first. -/
theorem fills_until {u : ℕ} (upto : u ≤ f) :
    Filling dma .wgt (a + 1) u ∨ (dma u).state = .fillAct ∨ (dma u).state = .actWait := by
  rcases Nat.lt_or_ge e u with second | first
  · exact .inr (actEnds.filling u second upto)
  · exact .inl (wgtEnds.filling.earlier first)

theorem fills_weights {u : ℕ} (before : u < f + 1) (phase : (dma u).state = .fillWgt) :
    Filling dma .wgt (a + 1) u := by
  rcases fills_until wgtEnds actEnds (by omega : u ≤ f) with filling | other | other
  · exact filling
  · simp [phase] at other
  · simp [phase] at other

theorem Job.Begins.over_ends (begins : x.Begins dma ins a) : x.Over dma ins a (f + 1) where
  later := by
    have low := wgtEnds.later
    have high := actEnds.later
    omega
  idle := begins.idle
  start := begins.start
  wgtBase := begins.wgtBase
  lenWgt := begins.lenWgt
  actBase u _ before phase _ := begins.actBase u (fills_weights wgtEnds actEnds before phase)
  lenAct u _ before phase _ := begins.lenAct u (fills_weights wgtEnds actEnds before phase)
  noStart u after before idle := by
    rcases fills_until wgtEnds actEnds (by omega : u ≤ f) with filling | other | other
    · rcases filling u after (le_refl u) with other | other <;>
        simp [idle, Channel.fill, Channel.wait] at other
    · simp [idle] at other
    · simp [idle] at other

/-- Behind the second phase both flags are up. -/
theorem Steady.flags_up (steady : Steady dma ins) (ch : Channel) :
    ch.done (dma (f + 1)) = true := by
  obtain ⟨act, -, -⟩ := steady.act_opens wgtEnds.phase wgtEnds.none
  have wgtDone := (steady.next e).trans (step_wgtDone (steady.noAbort e) wgtEnds.phase wgtEnds.none)
  have actDone := (steady.next f).trans (step_actDone (steady.noAbort f) actEnds.phase actEnds.none)
  rw [actDone]
  cases ch with
  | act => rfl
  | wgt =>
      -- the weight flag came up behind the first phase
      have flag := steady.flags_at act actEnds.later actEnds.filling .wgt
      refine flag.trans ?_
      rw [wgtDone]
      rfl

end Ends

/-- A job of whole words gets all its words. -/
theorem Responsive.allIn {dma : ℕ → State} {ins : ℕ → Inputs} (responsive : Responsive dma ins)
    {x : Job} {a : ℕ} (begins : x.Begins dma ins a) (words : ∀ ch, 4 ∣ (x.len ch).toNat) :
    ∃ t, x.Over dma ins a t ∧ AllIn x dma a t := by
  have steady := responsive.toSteady
  obtain ⟨e, f, wgtEnds, actEnds, -⟩ :=
    responsive.fillsEnd begins.idle begins.start begins.lenAct (begins.lenWgt ▸ words .wgt)
      (words .act)
  have spans := begins.over_ends wgtEnds actEnds
  refine ⟨f + 1, spans, fun ch => ?_⟩
  have flag := steady.flags_up wgtEnds actEnds ch
  exact ⟨flag, (steady.job_stage spans).whole_of_done ch flag⟩

section Jobs

variable {latency : ℕ} {mem : ℕ → BitVec 32 → BitVec 32} {dma : ℕ → State} {ins : ℕ → Inputs}
variable {x : Job} {a : ℕ}

/-- The words on a stream are what the memory held in the job's own range. -/
theorem Stored.word (stored : Stored latency mem dma ins) {t : ℕ} (spans : x.Over dma ins a t)
    {ch : Channel} {k : ℕ} {word : BitVec 32} (position : (beats dma ch a t)[k]? = some word) :
    ∃ g, a < g ∧ readTaken (dma g) (ins g) = true ∧ (dma g).mAddrO = wordAddr (x.base ch) k ∧
      word = mem g (wordAddr (x.base ch) k) := by
  obtain ⟨g, own, granted, place, data⟩ := stored.toServed.fetched spans ch k word position
  refine ⟨g, own, granted, place, ?_⟩
  rw [← place, ← data, stored.contents g granted]

/-- **The beats of a job are the words of its ranges**, each once and in order; and with a
memory that grants what keeps being asked for, all of them are streamed. -/
theorem fill_streams (stored : Stored latency mem dma ins)
    (words : ∀ ch, 4 ∣ (x.len ch).toNat) :
    (∀ t, x.Over dma ins a t → Carried mem x dma ins a t) ∧
      (x.Begins dma ins a →
        (∀ t, (∀ u, t ≤ u → (dma u).mReqO = true) → ∃ u, t ≤ u ∧ (ins u).mGntI = true) →
        ∃ t, x.Over dma ins a t ∧ AllIn x dma a t) := by
  have served := stored.toServed
  have steady := served.steady
  constructor
  · intro t spans
    obtain ⟨-, whole, within, order⟩ := served.streams spans
    refine ⟨fun ch k word position => stored.word spans position, ?_, order, ?_,
      fun ch done => ⟨steady.silent_of_done spans done, whole ch done⟩⟩
    · intro ch
      obtain ⟨n, count⟩ := words ch
      have := within ch n count
      omega
    · intro ch u after _ beat ch'
      obtain ⟨v, rfl⟩ : ∃ v, u = v + 1 := ⟨u - 1, by omega⟩
      exact steady.pulse beat ch'
  · intro begins fair
    have responsive : Responsive dma ins :=
      ⟨steady, served.grants, fair, fun g taken =>
        ⟨g + latency, Nat.lt_add_of_pos_right served.positive,
          (served.answers.delayed g).trans taken⟩⟩
    exact responsive.allIn begins words

end Jobs

/-! ## Two words and one -/

/-- A job of two weight words and one activation word. -/
def smallJob : Job where
  base
    | .wgt => 0x100
    | .act => 0x200
  len
    | .wgt => 8
    | .act => 4

/-- A prompt memory, in which each word holds its own address. -/
theorem Bench.stored : Stored 1 (fun _ addr => addr) (dmaAt id (jobInputs 0x100 0x200 8 4))
    (inputsAt id (jobInputs 0x100 0x200 8 4)) where
  toServed := served id fun _ => rfl
  contents g taken := by
    show ((if readTaken (dmaAt id _ g) (inputsAt id _ g) then some (id (dmaAt id _ g).mAddrO)
      else none).getD _) = _
    rw [if_pos taken]
    rfl

theorem fill_streams_small :
    ∃ t, smallJob.Over (Bench.dmaAt id (Bench.jobInputs 0x100 0x200 8 4))
        (Bench.inputsAt id (Bench.jobInputs 0x100 0x200 8 4)) 0 t ∧
      AllIn smallJob (Bench.dmaAt id (Bench.jobInputs 0x100 0x200 8 4)) 0 t := by
  refine (fill_streams Bench.stored (x := smallJob) fun ch => by cases ch <;> decide).2
    ⟨rfl, rfl, rfl, rfl, fun _ _ => rfl, fun _ _ => rfl⟩ ?_
  exact (Bench.responsive id (fun _ => rfl) fun _ => rfl).granted

end MiniMac.Accel.AxiStreamDma
