/-
# Accel.FillBeats -- a job streams the words of its own ranges

`Loop` holds what the registers are when `k` words of a range are in, for any
length, also one that no number of words makes up: then the loop has no end.  A
job is followed from its start (`Stage`): the words on a stream are the answers to
granted reads of the job's own range, asked for after its start, each once and in
order (`Fetched`), and a channel that is done has streamed its whole range.
-/
import MiniMac.Accel.FillPort
import MiniMac.Theory.Clocked
import MiniMac.Theory.WordAddress

namespace MiniMac.Accel.AxiStreamDma

open MiniMac.Theory

set_option autoImplicit false

/-- The channel's done flag. -/
def Channel.done (s : State) : Channel → Bool
  | wgt => s.wgtDoneO
  | act => s.actDoneO

/-! ## The loop of a channel -/

/-- `k` words of the range of `len` bytes from `base` are in. -/
structure Loop (ch : Channel) (base len : BitVec 32) (k : ℕ) (s : State) : Prop where
  phase : s.state = ch.fill ∨ s.state = ch.wait ∧ s.bytesLeft ≠ 0
  addr : s.currAddr = wordAddr base k
  left : s.bytesLeft = len - BitVec.ofNat 32 (4 * k)
  more : ∀ j < k, len ≠ BitVec.ofNat 32 (4 * j)

namespace Loop

variable {ch : Channel} {base len : BitVec 32} {k : ℕ} {s : State} {i : Inputs}

/-- The count reaches zero at the end of the range and not after a wrap. -/
theorem whole (loop : Loop ch base len k s) (none : s.bytesLeft = 0) : 4 * k = len.toNat := by
  have len_eq : len = BitVec.ofNat 32 (4 * k) := by
    have left := loop.left
    rw [none] at left
    exact (BitVec.sub_eq_iff_eq_add.mp left.symm).trans (BitVec.zero_add _)
  have small : k < 2 ^ 30 := by
    by_contra wrapped
    apply loop.more (k - 2 ^ 30) (by omega)
    rw [len_eq]
    apply BitVec.eq_of_toNat_eq
    simp only [BitVec.toNat_ofNat]
    omega
  rw [len_eq, BitVec.toNat_ofNat]
  omega

/-- A range of whole words is not left behind. -/
theorem within {n : ℕ} (loop : Loop ch base len k s) (words : len.toNat = 4 * n) : k ≤ n := by
  by_contra beyond
  apply loop.more n (by omega)
  rw [← words]
  exact (BitVec.ofNat_toNat 32 len).symm ▸ (BitVec.setWidth_eq len).symm

/-- A wait is one of the loop's channel. -/
theorem channel {ch' : Channel} (loop : Loop ch base len k s) (phase : s.state = ch'.wait) :
    ch' = ch := by
  rcases loop.phase with fill | ⟨wait, -⟩
  · exact absurd (phase.symm.trans fill) Channel.wait_ne_fill
  · exact Channel.wait_inj.mp (phase.symm.trans wait)

/-- A fill begins with no word in. -/
theorem begin (phase : s.state = ch.fill) (addr : s.currAddr = base) (left : s.bytesLeft = len) :
    Loop ch base len 0 s where
  phase := .inl phase
  addr := addr.trans (wordAddr_zero base).symm
  left := left.trans (BitVec.sub_zero len).symm
  more := fun j before => absurd before (Nat.not_lt_zero j)

/-- **One edge in the loop**: the words that are in are those that went down the stream. -/
theorem step (loop : Loop ch base len k s) (noAbort : i.abortI = false)
    (left : s.state = ch.fill → s.bytesLeft ≠ 0) :
    Loop ch base len (k + (ch.beat (AxiStreamDma.step s i)).toList.length)
        (AxiStreamDma.step s i) ∧
      ∀ ch' : Channel, ch'.done (AxiStreamDma.step s i) = ch'.done s := by
  have beat := beat_step (s := s) (i := i) noAbort ch
  rcases loop.phase with phase | ⟨phase, open_⟩
  · have silent : ch.beat (AxiStreamDma.step s i) = none := by
      rw [beat, if_neg]
      rintro ⟨wait, -⟩
      exact Channel.fill_ne_wait (phase.symm.trans wait)
    have engine := step_fill (i := i) noAbort phase (left phase)
    rw [silent, Option.toList_none, List.length_nil, Nat.add_zero]
    refine ⟨⟨?_, ?_, ?_, loop.more⟩, fun ch' => ?_⟩
    · cases grant : i.mGntI with
      | false => exact .inl (by simp [engine, request, grant, phase])
      | true => exact .inr (by simpa [engine, request, grant, defaults] using left phase)
    · rw [engine]
      exact loop.addr
    · rw [engine]
      exact loop.left
    · rw [engine]
      cases ch' <;> rfl
  · cases valid : i.mRvalidI with
    | false =>
        have silent : ch.beat (AxiStreamDma.step s i) = none := by
          rw [beat, valid, if_neg]
          rintro ⟨-, contra⟩
          cases contra
        have engine := step_stall noAbort phase valid
        rw [silent, Option.toList_none, List.length_nil, Nat.add_zero, engine]
        exact ⟨⟨.inr ⟨phase, open_⟩, loop.addr, loop.left, loop.more⟩,
          fun ch' => by cases ch' <;> rfl⟩
    | true =>
        rw [if_pos ⟨phase, valid⟩] at beat
        have engine := step_wait noAbort phase valid
        rw [beat, Option.toList_some, List.length_singleton]
        refine ⟨⟨?_, ?_, ?_, ?_⟩, fun ch' => ?_⟩
        · rw [engine]
          exact .inl rfl
        · rw [engine, wordAddr_succ, ← loop.addr]
        · rw [engine, Nat.mul_succ, BitVec.ofNat_add, ← BitVec.sub_sub, ← loop.left]
          rfl
        · intro j before same
          rcases Nat.lt_succ_iff_lt_or_eq.mp before with earlier | rfl
          · exact loop.more j earlier same
          · apply open_
            rw [loop.left, same]
            exact BitVec.sub_self _
        · rw [engine]
          cases ch <;> cases ch' <;> rfl

end Loop

/-! ## What a stream carries -/

/-- The words a channel streams after cycle `a`, up to cycle `t`. -/
def beats (dma : ℕ → State) (ch : Channel) (a t : ℕ) : List (BitVec 32) :=
  Clocked.window (fun u => ch.beat (dma u)) (a + 1) (t - a)

theorem beats_succ (dma : ℕ → State) (ch : Channel) {a t : ℕ} (upto : a ≤ t) :
    beats dma ch a (t + 1) = beats dma ch a t ++ (ch.beat (dma (t + 1))).toList := by
  rw [beats, Nat.sub_add_comm upto, Clocked.window_succ, show a + 1 + (t - a) = t + 1 by omega]
  rfl

/-- Each word is the answer to a granted read of its place in the range from `base`, and
was asked for after cycle `a`. -/
def Fetched (latency : ℕ) (dma : ℕ → State) (ins : ℕ → Inputs) (a : ℕ) (base : BitVec 32)
    (words : List (BitVec 32)) : Prop :=
  ∀ k word, words[k]? = some word → ∃ g, a < g ∧ readTaken (dma g) (ins g) = true ∧
    (dma g).mAddrO = wordAddr base k ∧ (ins (g + latency)).mRdataI = word

/-- What a job streams: where the range of each channel begins, and its bytes. -/
structure Job where
  base : Channel → BitVec 32
  len : Channel → BitVec 32

/-- The job starts in cycle `a`, its activation range is the one configured when its
weights are in, and no other job has started before `t`. -/
structure Job.Over (x : Job) (dma : ℕ → State) (ins : ℕ → Inputs) (a t : ℕ) : Prop where
  later : a < t
  idle : (dma a).state = .idle
  start : (ins a).startI = true
  wgtBase : (ins a).wgtBaseI = x.base .wgt
  lenWgt : (ins a).dmaLenWgtI = x.len .wgt
  actBase : ∀ u, a < u → u < t → (dma u).state = .fillWgt → (dma u).bytesLeft = 0 →
    (ins u).actBaseI = x.base .act
  lenAct : ∀ u, a < u → u < t → (dma u).state = .fillWgt → (dma u).bytesLeft = 0 →
    (ins u).dmaLenActI = x.len .act
  noStart : ∀ u, a < u → u < t → (dma u).state = .idle → (ins u).startI = false

/-- Where a job that started in cycle `a` is in cycle `t`. -/
inductive Stage (x : Job) (dma : ℕ → State) (a t : ℕ) : Prop
  | wgt (loop : Loop .wgt (x.base .wgt) (x.len .wgt) (beats dma .wgt a t).length (dma t))
      (notDone : ∀ ch : Channel, ch.done (dma t) = false) (silent : beats dma .act a t = [])
  | act (loop : Loop .act (x.base .act) (x.len .act) (beats dma .act a t).length (dma t))
      (notDone : Channel.act.done (dma t) = false)
      (whole : 4 * (beats dma .wgt a t).length = (x.len .wgt).toNat)
  | past (phase : (dma t).state.fills = false)
      (whole : ∀ ch, 4 * (beats dma ch a t).length = (x.len ch).toNat)

namespace Stage

variable {x : Job} {dma : ℕ → State} {a t : ℕ} (stage : Stage x dma a t)

include stage

/-- A channel that is done has streamed its whole range. -/
theorem whole_of_done (ch : Channel) (done : ch.done (dma t) = true) :
    4 * (beats dma ch a t).length = (x.len ch).toNat := by
  cases stage with
  | wgt _ notDone _ =>
      rw [notDone ch] at done
      cases done
  | act _ notDone whole =>
      cases ch with
      | wgt => exact whole
      | act =>
          rw [notDone] at done
          cases done
  | past _ whole => exact whole ch

/-- No channel streams more than its range. -/
theorem length_le (ch : Channel) (n : ℕ) (words : (x.len ch).toNat = 4 * n) :
    (beats dma ch a t).length ≤ n := by
  cases stage with
  | wgt loop _ silent =>
      cases ch with
      | wgt => exact loop.within words
      | act =>
          rw [silent]
          exact Nat.zero_le n
  | act loop _ whole =>
      cases ch with
      | wgt => omega
      | act => exact loop.within words
  | past _ whole =>
      have := whole ch
      omega

/-- The activations come after the last weight. -/
theorem in_order (begun : beats dma .act a t ≠ []) :
    4 * (beats dma .wgt a t).length = (x.len .wgt).toNat := by
  cases stage with
  | wgt _ _ silent => exact absurd silent begun
  | act _ _ whole => exact whole
  | past _ whole => exact whole .wgt

/-- The loop that is under way tells the address of the next word. -/
theorem currAddr {ch : Channel} (phase : (dma t).state = ch.wait) :
    (dma t).currAddr = wordAddr (x.base ch) (beats dma ch a t).length := by
  cases stage with
  | wgt loop _ _ =>
      obtain rfl := loop.channel phase
      exact loop.addr
  | act loop _ _ =>
      obtain rfl := loop.channel phase
      exact loop.addr
  | past past _ => simp [phase] at past

end Stage

/-! ## A job from its start -/

/-- The engine runs without an abort. -/
structure Steady (dma : ℕ → State) (ins : ℕ → Inputs) : Prop where
  next : ∀ t, dma (t + 1) = step (dma t) (ins t)
  noAbort : ∀ t, (ins t).abortI = false

section Steady

variable {dma : ℕ → State} {ins : ℕ → Inputs} (steady : Steady dma ins)

include steady

/-- A channel that does not wait has no word. -/
theorem Steady.silent {t : ℕ} {ch : Channel} (other : (dma t).state ≠ ch.wait) :
    ch.beat (dma (t + 1)) = none := by
  rw [steady.next, beat_step (steady.noAbort t), if_neg fun both => other both.1]

theorem Steady.beats_silent {a t : ℕ} {ch : Channel} (upto : a ≤ t)
    (other : (dma t).state ≠ ch.wait) : beats dma ch a (t + 1) = beats dma ch a t := by
  rw [beats_succ dma ch upto, steady.silent other, Option.toList_none, List.append_nil]

/-- The loop of a channel goes on. -/
theorem Steady.loop_next {a t : ℕ} {ch : Channel} {base len : BitVec 32} (upto : a ≤ t)
    (loop : Loop ch base len (beats dma ch a t).length (dma t))
    (left : (dma t).state = ch.fill → (dma t).bytesLeft ≠ 0) :
    Loop ch base len (beats dma ch a (t + 1)).length (dma (t + 1)) ∧
      ∀ ch' : Channel, ch'.done (dma (t + 1)) = ch'.done (dma t) := by
  have next := loop.step (steady.noAbort t) left
  rw [← steady.next] at next
  rw [beats_succ dma ch upto, List.length_append]
  exact next

variable {x : Job}

/-- The cycle of a start is followed by no beat. -/
theorem Steady.beats_start {a : ℕ} (idle : (dma a).state = .idle) (ch : Channel) :
    beats dma ch a (a + 1) = [] := by
  rw [steady.beats_silent (le_refl a) (idle ▸ Channel.idle_ne_wait), beats, Nat.sub_self,
    Clocked.window_zero]

/-- The start opens the weight channel. -/
theorem Steady.stage_start {a t : ℕ} (spans : x.Over dma ins a t) : Stage x dma a (a + 1) := by
  have engine := (steady.next a).trans (step_start (steady.noAbort a) spans.idle spans.start)
  refine .wgt ?_ ?_ (steady.beats_start spans.idle .act)
  · rw [steady.beats_start spans.idle]
    apply Loop.begin
    · rw [engine]
      rfl
    · rw [engine]
      exact spans.wgtBase
    · rw [engine]
      exact spans.lenWgt
  · intro ch
    rw [engine]
    cases ch <;> rfl

/-- The weight channel goes on, or hands over to the activation channel. -/
theorem Steady.stage_wgt {a t : ℕ} (spans : x.Over dma ins a (t + 1)) (later : a < t)
    (loop : Loop .wgt (x.base .wgt) (x.len .wgt) (beats dma .wgt a t).length (dma t))
    (notDone : ∀ ch : Channel, ch.done (dma t) = false) (silent : beats dma .act a t = []) :
    Stage x dma a (t + 1) := by
  have other : (dma t).state ≠ Channel.act.wait := by
    rcases loop.phase with phase | ⟨phase, -⟩ <;> simp [phase, Channel.wait, Channel.fill]
  have silent' : beats dma .act a (t + 1) = [] :=
    (steady.beats_silent (by omega) other).trans silent
  by_cases ends : (dma t).state = Channel.wgt.fill ∧ (dma t).bytesLeft = 0
  · obtain ⟨phase, none⟩ := ends
    have engine := (steady.next t).trans (step_wgtDone (steady.noAbort t) phase none)
    refine .act ?_ ?_ ?_
    · rw [silent']
      apply Loop.begin
      · rw [engine]
        rfl
      · rw [engine]
        exact spans.actBase t later (Nat.lt_succ_self t) phase none
      · rw [engine]
        exact spans.lenAct t later (Nat.lt_succ_self t) phase none
    · rw [engine]
      exact notDone .act
    · rw [steady.beats_silent (by omega) (by rw [phase]; decide)]
      exact loop.whole none
  · obtain ⟨loop', flags⟩ :=
      steady.loop_next (by omega) loop fun phase none => ends ⟨phase, none⟩
    exact .wgt loop' (fun ch => (flags ch).trans (notDone ch)) silent'

/-- The activation channel goes on, or the inputs are in. -/
theorem Steady.stage_act {a t : ℕ} (later : a < t)
    (loop : Loop .act (x.base .act) (x.len .act) (beats dma .act a t).length (dma t))
    (notDone : Channel.act.done (dma t) = false)
    (whole : 4 * (beats dma .wgt a t).length = (x.len .wgt).toNat) : Stage x dma a (t + 1) := by
  have other : (dma t).state ≠ Channel.wgt.wait := by
    rcases loop.phase with phase | ⟨phase, -⟩ <;> simp [phase, Channel.wait, Channel.fill]
  have whole' : 4 * (beats dma .wgt a (t + 1)).length = (x.len .wgt).toNat := by
    rw [steady.beats_silent (by omega) other]
    exact whole
  by_cases ends : (dma t).state = Channel.act.fill ∧ (dma t).bytesLeft = 0
  · obtain ⟨phase, none⟩ := ends
    have engine := (steady.next t).trans (step_actDone (steady.noAbort t) phase none)
    refine .past (by rw [engine]; rfl) ?_
    intro ch
    cases ch with
    | wgt => exact whole'
    | act =>
        rw [steady.beats_silent (by omega) (by rw [phase]; decide)]
        exact loop.whole none
  · obtain ⟨loop', flags⟩ :=
      steady.loop_next (by omega) loop fun phase none => ends ⟨phase, none⟩
    exact .act loop' ((flags .act).trans notDone) whole'

/-- With the inputs in, the streams are silent. -/
theorem Steady.stage_past {a t : ℕ} (spans : x.Over dma ins a (t + 1)) (later : a < t)
    (phase : (dma t).state.fills = false)
    (whole : ∀ ch, 4 * (beats dma ch a t).length = (x.len ch).toNat) : Stage x dma a (t + 1) := by
  refine .past ?_ fun ch => ?_
  · rw [steady.next]
    exact step_stays phase (steady.noAbort t) (spans.noStart t later (Nat.lt_succ_self t))
  · have other : (dma t).state ≠ ch.wait := by
      intro wait
      simp [wait] at phase
    rw [steady.beats_silent (by omega) other]
    exact whole ch

omit steady in
/-- A job over a longer span is one over a shorter. -/
theorem Job.Over.earlier {a t u : ℕ} (spans : x.Over dma ins a t) (later : a < u) (upto : u ≤ t) :
    x.Over dma ins a u where
  later := later
  idle := spans.idle
  start := spans.start
  wgtBase := spans.wgtBase
  lenWgt := spans.lenWgt
  actBase v low high := spans.actBase v low (by omega)
  lenAct v low high := spans.lenAct v low (by omega)
  noStart v low high := spans.noStart v low (by omega)

theorem Steady.stage_next {a t : ℕ} (spans : x.Over dma ins a (t + 1)) (later : a < t)
    (stage : Stage x dma a t) : Stage x dma a (t + 1) := by
  cases stage with
  | wgt loop notDone silent => exact steady.stage_wgt spans later loop notDone silent
  | act loop notDone whole => exact steady.stage_act later loop notDone whole
  | past phase whole => exact steady.stage_past spans later phase whole

theorem Steady.job_stage {a t : ℕ} (spans : x.Over dma ins a t) : Stage x dma a t := by
  have later := spans.later
  revert spans
  induction t, later using Nat.le_induction with
  | base =>
      intro spans
      exact steady.stage_start spans
  | succ t later ih =>
      intro spans
      exact steady.stage_next spans later (ih (spans.earlier later (Nat.le_succ t)))
end Steady

/-! ## The answers it takes -/

section Served

variable {latency : ℕ} {dma : ℕ → State} {ins : ℕ → Inputs} {x : Job}
variable (served : Served latency dma ins)

include served

theorem Served.steady : Steady dma ins := ⟨served.next, served.noAbort⟩

/-- **Where a word comes from**: the answer, a latency before, to a granted read of its
place, asked for after the start. -/
theorem Served.beat_fetched {a t : ℕ} (spans : x.Over dma ins a t) {ch : Channel}
    {word : BitVec 32} (beat : ch.beat (dma (t + 1)) = some word) :
    ∃ g, t = g + latency ∧ a < g ∧ (dma g).state = ch.fill ∧
      readTaken (dma g) (ins g) = true ∧
      (dma g).mAddrO = wordAddr (x.base ch) (beats dma ch a t).length ∧
      (ins t).mRdataI = word := by
  rw [served.next, beat_step (served.noAbort t)] at beat
  by_cases taken : (dma t).state = ch.wait ∧ (ins t).mRvalidI = true
  · rw [if_pos taken] at beat
    obtain ⟨g, answer, granted, asked, place, waits⟩ := served.answer taken.1 taken.2
    refine ⟨g, answer, ?_, asked, granted, ?_, Option.some.inj beat⟩
    · -- the grant is one of this job: the start was in the idle phase
      have idle := spans.idle
      have later := spans.later
      rcases Nat.lt_trichotomy a g with after | rfl | before
      · exact after
      · exact absurd (idle.symm.trans asked) Channel.idle_ne_fill
      · exact absurd (idle.symm.trans (waits a before (by omega))) Channel.idle_ne_wait
    · rw [place]
      exact (served.steady.job_stage spans).currAddr taken.1
  · rw [if_neg taken] at beat
    cases beat

/-- One more cycle fetches the next word, or none. -/
theorem Served.fetched_next {a t : ℕ} (spans : x.Over dma ins a t) (ch : Channel)
    (fetched : Fetched latency dma ins a (x.base ch) (beats dma ch a t)) :
    Fetched latency dma ins a (x.base ch) (beats dma ch a (t + 1)) := by
  have later := spans.later
  rw [beats_succ dma ch (by omega)]
  cases beat : ch.beat (dma (t + 1)) with
  | none =>
      rw [Option.toList_none, List.append_nil]
      exact fetched
  | some word =>
      obtain ⟨g, answer, own, -, granted, place, data⟩ := served.beat_fetched spans beat
      rw [Option.toList_some]
      intro k word' position
      rcases Nat.lt_or_ge k (beats dma ch a t).length with earlier | last
      · rw [List.getElem?_append_left earlier] at position
        exact fetched k word' position
      · rw [List.getElem?_append_right last] at position
        obtain ⟨inside, rfl⟩ := List.getElem?_eq_some_iff.mp position
        have here : k = (beats dma ch a t).length := by
          rw [List.length_singleton] at inside
          omega
        refine ⟨g, own, granted, ?_, ?_⟩
        · rw [here]
          exact place
        · rw [List.getElem_singleton, ← answer]
          exact data

theorem Served.fetched {a t : ℕ} (spans : x.Over dma ins a t) (ch : Channel) :
    Fetched latency dma ins a (x.base ch) (beats dma ch a t) := by
  have later := spans.later
  revert spans
  induction t, later using Nat.le_induction with
  | base =>
      intro spans
      rw [served.steady.beats_start spans.idle]
      intro k word position
      cases position
  | succ t later ih =>
      intro spans
      have before := spans.earlier later (Nat.le_succ t)
      exact served.fetched_next before ch (ih before)

/-- **A job streams the words of its own ranges**: each is the answer to a granted read
of its place, once and in order; a channel that is done has streamed all of them, and
no activation comes before the last weight. -/
theorem Served.streams {a t : ℕ} (spans : x.Over dma ins a t) :
    (∀ ch, Fetched latency dma ins a (x.base ch) (beats dma ch a t)) ∧
      (∀ ch : Channel, ch.done (dma t) = true →
        4 * (beats dma ch a t).length = (x.len ch).toNat) ∧
      (∀ ch n, (x.len ch).toNat = 4 * n → (beats dma ch a t).length ≤ n) ∧
      (beats dma .act a t ≠ [] → 4 * (beats dma .wgt a t).length = (x.len .wgt).toNat) := by
  have stage := served.steady.job_stage spans
  exact ⟨fun ch => served.fetched spans ch, stage.whole_of_done, stage.length_le, stage.in_order⟩

end Served

end MiniMac.Accel.AxiStreamDma
