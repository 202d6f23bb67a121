/-
# Accel.ResultSink -- the drain and a source of any kind

The engine captures a word in its drain state whether or not its ready is up, and
its ready is up in the cycle after, so a beat is transferred in the cycle of its
capture or one later.  It asks whether the word was the last when memory grants the
write, which is later still, and then looks at what the source shows by then.

A source that follows the handshake may show the next beat in the cycle after a
transfer, and anything at all when it has none.  The words written are the beats
transferred exactly when no beat follows at once one that was captured with ready
up, and the source shows at the grant the `tlast` it showed at the capture
(`result_sink_iff`).
-/
import MiniMac.Accel.AxiStreamDma
import MiniMac.Theory.Handshake
import MiniMac.Theory.WordAddress

namespace MiniMac.Accel.AxiStreamDma

open MiniMac.Theory

set_option autoImplicit false

/-! ## One edge -/

section Edge

variable {s : State} {i : Inputs}

theorem step_ready (noAbort : i.abortI = false) :
    (step s i).sAxisResTready = (s.state == .drainRes) := by
  cases phase : s.state <;> simp [step, noAbort, fsm, phase, defaults, request] <;>
    (repeat' split) <;> simp_all

/-- The result-done flag is up in the idle phase only. -/
def DoneWhenIdle (s : State) : Prop := s.state ≠ .idle → s.resDoneO = false

theorem DoneWhenIdle.step (down : DoneWhenIdle s) : DoneWhenIdle (step s i) := by
  unfold DoneWhenIdle at down ⊢
  unfold AxiStreamDma.step
  split
  · exact fun busy => absurd rfl busy
  · cases phase : s.state <;> rw [phase] at down <;> simp [fsm, phase, defaults, request] <;>
      (repeat' split) <;> simp_all

/-- A write request that is up while the engine holds a word is for that word. -/
def AsksForWord (s : State) : Prop :=
  s.state = .resWrite → s.mReqO = true →
    s.mWeO = true ∧ s.mAddrO = s.currAddr ∧ s.mWdataO = s.wdataBuf

theorem asksForWord_step (s : State) (i : Inputs) : AsksForWord (step s i) := by
  unfold AsksForWord step
  split
  · intro phase
    cases phase
  · cases phase : s.state <;> simp [fsm, phase, defaults, request] <;>
      (repeat' split) <;> simp_all

end Edge

/-! ## Runs -/

section Runs

variable (s₀ : State) (ins : ℕ → Inputs)

/-- The engine after `t` cycles from reset. -/
def after (t : ℕ) : State := Clocked.run step (reset s₀) ins t

theorem after_succ (t : ℕ) : after s₀ ins (t + 1) = step (after s₀ ins t) (ins t) := rfl

/-- The beat the source shows, with its `tlast`. -/
def offer (t : ℕ) : Option (BitVec 32 × Bool) :=
  if (ins t).sAxisResTvalid then some ((ins t).sAxisResTdata, (ins t).sAxisResTlast) else none

def ready (t : ℕ) : Bool := (after s₀ ins t).sAxisResTready

/-- The beat transferred in the cycle. -/
def transfer (t : ℕ) : Option (BitVec 32 × Bool) :=
  if ready s₀ ins t then offer ins t else none

/-- A write the memory takes. -/
def memWrite (t : ℕ) : Option (BitVec 32 × BitVec 32) :=
  if (ins t).mGntI && (after s₀ ins t).mWeO then
    some ((after s₀ ins t).mAddrO, (after s₀ ins t).mWdataO)
  else none

/-- A write whose grant the engine acts on. -/
def wordWrite (t : ℕ) : Option (BitVec 32 × BitVec 32) :=
  if (after s₀ ins t).state = .resWrite then memWrite s₀ ins t else none

/-- The result phase entered in cycle `e`, up to cycle `T`, with a source that follows the
handshake and a memory that grants what is asked for. -/
structure Drain (e T : ℕ) : Prop where
  waits : (after s₀ ins e).state = .runArray
  enters : (ins e).sAxisResTvalid = true
  noAbort : ∀ t, e ≤ t → t < T → (ins t).abortI = false
  busy : ∀ t, e < t → t < T → (after s₀ ins t).state ≠ .idle
  source : Handshake.Held (offer ins) (ready s₀ ins) e T
  memory : ∀ t, e ≤ t → t ≤ T → (ins t).mGntI = true → (after s₀ ins t).mReqO = true

/-- The beats transferred since the drain began. -/
def transferred (e t : ℕ) : List (BitVec 32 × Bool) :=
  Clocked.span (transfer s₀ ins) (e + 1) t

def wordWrites (e t : ℕ) : List (BitVec 32 × BitVec 32) :=
  Clocked.span (wordWrite s₀ ins) (e + 1) t

/-- The writes of the beats' words, one after another from the base. -/
def placed (base : BitVec 32) (beats : List (BitVec 32 × Bool)) : List (BitVec 32 × BitVec 32) :=
  beats.mapIdx fun k beat => (wordAddr base k, beat.1)

/-- The engine stores what is transferred, and its end is the last beat's. -/
structure Stores (e T : ℕ) : Prop where
  /-- Whenever no word is held, the words written are the beats transferred. -/
  words : ∀ t, e < t → t ≤ T → (after s₀ ins t).state ≠ .resWrite →
    wordWrites s₀ ins e t = placed (ins e).resBaseI (transferred s₀ ins e t)
  /-- Another write repeats the one in the cycle before. -/
  only : ∀ t w, e < t → t ≤ T → memWrite s₀ ins t = some w →
    wordWrite s₀ ins t = some w ∨ ∃ u, u + 1 = t ∧ wordWrite s₀ ins u = some w
  /-- The write of a word sets the flag exactly when its beat carried `tlast`. -/
  done : ∀ t, e < t → t < T → wordWrite s₀ ins t ≠ none →
    ((after s₀ ins (t + 1)).resDoneO = true ↔
      ∃ data, (transferred s₀ ins e (t + 1))[(wordWrites s₀ ins e t).length]? = some (data, true))

/-- The engine holds the word it captured in cycle `c`. -/
structure Holding (e c t : ℕ) : Prop where
  later : e < c
  before : c < t
  phase : (after s₀ ins c).state = .drainRes
  valid : (ins c).sAxisResTvalid = true
  writes : ∀ u, c < u → u ≤ t → (after s₀ ins u).state = .resWrite
  waits : ∀ u, c < u → u < t → (ins u).mGntI = false

/-- The word captured in cycle `c` is granted in cycle `g`. -/
structure Captured (e T c g : ℕ) : Prop where
  holding : Holding s₀ ins e c g
  grant : (ins g).mGntI = true
  within : g < T

/-- No beat comes right after one captured with ready up, and the source shows the beat's
`tlast` in the cycle of the grant. -/
def Unhurried (e T : ℕ) : Prop :=
  ∀ c g, Captured s₀ ins e T c g →
    (ready s₀ ins c = true → (ins (c + 1)).sAxisResTvalid = false) ∧
      (ins g).sAxisResTlast = (ins c).sAxisResTlast

section

variable {s₀ ins}

theorem doneWhenIdle (t : ℕ) : DoneWhenIdle (after s₀ ins t) :=
  Clocked.invariant (P := DoneWhenIdle) (fun _ => rfl) (fun _ _ down => down.step) t

theorem asksForWord (t : ℕ) : AsksForWord (after s₀ ins t) := by
  cases t with
  | zero =>
      intro phase
      cases phase
  | succ t => exact asksForWord_step _ _

/-- Between a capture and its grant nothing is written. -/
theorem Holding.wordWrites_eq {e c t : ℕ} (holding : Holding s₀ ins e c t) :
    wordWrites s₀ ins e t = wordWrites s₀ ins e c := by
  have quiet : Clocked.span (wordWrite s₀ ins) c t = [] := by
    apply Clocked.span_none
    intro u low high
    rcases Nat.eq_or_lt_of_le low with rfl | later
    · rw [wordWrite, if_neg (by rw [holding.phase]; decide)]
    · rw [wordWrite, memWrite, holding.waits u later high, Bool.false_and]
      simp
  have low := holding.later
  rw [wordWrites, Clocked.span_append low (le_of_lt holding.before), quiet, List.append_nil]
  rfl

namespace Drain

variable {e T c g t : ℕ} (drain : Drain s₀ ins e T)

include drain

theorem ready_succ (low : e ≤ t) (high : t < T) :
    ready s₀ ins (t + 1) = ((after s₀ ins t).state == .drainRes) :=
  step_ready (drain.noAbort t low high)

/-- In the first cycle of the drain the engine waits for a word for the base. -/
theorem first (some_ : e < T) : (after s₀ ins (e + 1)).state = .drainRes ∧
    (after s₀ ins (e + 1)).currAddr = (ins e).resBaseI ∧ ready s₀ ins (e + 1) = false := by
  have edge := step_runArray (drain.noAbort e (le_refl e) some_) drain.waits
  rw [if_pos drain.enters] at edge
  refine ⟨?_, ?_, ?_⟩
  · rw [after_succ, edge]
  · rw [after_succ, edge]
  · rw [drain.ready_succ (le_refl e) some_, drain.waits]
    rfl

theorem step_drain (low : e < t) (high : t < T) (phase : (after s₀ ins t).state = .drainRes) :
    after s₀ ins (t + 1) =
      { defaults (after s₀ ins t) with
        sAxisResTready := true
        wdataBuf :=
          if (ins t).sAxisResTvalid then (ins t).sAxisResTdata else (after s₀ ins t).wdataBuf
        state := if (ins t).sAxisResTvalid then .resWrite else .drainRes } :=
  step_drainRes (drain.noAbort t (le_of_lt low) high) phase

theorem step_write (low : e < t) (high : t < T) (phase : (after s₀ ins t).state = .resWrite) :
    after s₀ ins (t + 1) =
      { defaults (after s₀ ins t) with
        mReqO := true
        mWeO := true
        mAddrO := (after s₀ ins t).currAddr
        mWdataO := (after s₀ ins t).wdataBuf
        currAddr := if (ins t).mGntI then (after s₀ ins t).currAddr + 4
          else (after s₀ ins t).currAddr
        resDoneO := if (ins t).mGntI && (ins t).sAxisResTlast then true
          else (after s₀ ins t).resDoneO
        busyO := if (ins t).mGntI && (ins t).sAxisResTlast then false
          else (after s₀ ins t).busyO
        state := if (ins t).mGntI then if (ins t).sAxisResTlast then .idle else .drainRes
          else .resWrite } :=
  step_resWrite (drain.noAbort t (le_of_lt low) high) phase

/-! ### From a capture to its grant -/

/-- The word and its place are kept until the grant. -/
theorem held (holding : Holding s₀ ins e c t) (within : t ≤ T) :
    (after s₀ ins t).wdataBuf = (ins c).sAxisResTdata ∧
      (after s₀ ins t).currAddr = (after s₀ ins c).currAddr := by
  have kept : ∀ u, c + 1 ≤ u → u ≤ t → (after s₀ ins u).wdataBuf = (ins c).sAxisResTdata ∧
      (after s₀ ins u).currAddr = (after s₀ ins c).currAddr := by
    intro u low
    induction u, low using Nat.le_induction with
    | base =>
        intro high
        have edge := drain.step_drain holding.later (by omega) holding.phase
        rw [if_pos holding.valid, if_pos holding.valid] at edge
        rw [edge]
        exact ⟨rfl, rfl⟩
    | succ u low ih =>
        intro high
        obtain ⟨word, place⟩ := ih (by omega)
        have late := holding.later
        have edge := drain.step_write (by omega) (by omega) (holding.writes u (by omega) (by omega))
        rw [holding.waits u (by omega) (by omega)] at edge
        rw [edge]
        exact ⟨word, place⟩
  exact kept t holding.before (le_refl t)

/-- No request is up in the cycle after a capture, so no grant comes in it. -/
theorem grant_late (captured : Captured s₀ ins e T c g) : c + 1 < g := by
  have holding := captured.holding
  have order := holding.before
  have within := captured.within
  by_contra early
  obtain rfl : g = c + 1 := by omega
  have asks := drain.memory (c + 1) (by have := holding.later; omega) (by omega) captured.grant
  rw [drain.step_drain holding.later (by omega) holding.phase] at asks
  cases asks

/-- The write of the captured word. -/
theorem wordWrite_grant (captured : Captured s₀ ins e T c g) :
    wordWrite s₀ ins g = some ((after s₀ ins c).currAddr, (ins c).sAxisResTdata) := by
  have holding := captured.holding
  have phase := holding.writes g holding.before (le_refl g)
  have low := holding.later
  have order := holding.before
  have within := captured.within
  have asks := drain.memory g (by omega) (by omega) captured.grant
  obtain ⟨we, addr, word⟩ := asksForWord g phase asks
  obtain ⟨data, place⟩ := drain.held holding (by omega)
  rw [wordWrite, if_pos phase, memWrite, captured.grant, we, addr, word, data, place]
  rfl

/-- A captured word is the next one written. -/
theorem wordWrites_captured (captured : Captured s₀ ins e T c g) :
    wordWrites s₀ ins e (g + 1) =
      wordWrites s₀ ins e c ++ [((after s₀ ins c).currAddr, (ins c).sAxisResTdata)] := by
  have holding := captured.holding
  have low := holding.later
  have order := holding.before
  have here : wordWrites s₀ ins e (g + 1) =
      wordWrites s₀ ins e g ++ (wordWrite s₀ ins g).toList := Clocked.span_succ (by omega)
  rw [here, drain.wordWrite_grant captured, holding.wordWrites_eq]
  rfl

/-- The beats transferred up to the grant: one in the cycle of the capture if ready is up, and
one in the cycle after it. -/
theorem transferred_captured (captured : Captured s₀ ins e T c g) :
    transferred s₀ ins e (g + 1) =
      transferred s₀ ins e c ++ (transfer s₀ ins c).toList ++ (offer ins (c + 1)).toList := by
  have holding := captured.holding
  have low := holding.later
  have late := drain.grant_late captured
  have within := captured.within
  have ready₁ : ready s₀ ins (c + 1) = true := by
    rw [drain.ready_succ (by omega) (by omega), holding.phase]
    rfl
  have after₁ : transfer s₀ ins (c + 1) = offer ins (c + 1) := if_pos ready₁
  have quiet : Clocked.span (transfer s₀ ins) (c + 2) (g + 1) = [] := by
    apply Clocked.span_none
    intro u low' high
    obtain ⟨v, rfl⟩ : ∃ v, u = v + 1 := ⟨u - 1, by omega⟩
    have phase := holding.writes v (by omega) (by omega)
    have down : ready s₀ ins (v + 1) = false := by
      rw [drain.ready_succ (by omega) (by omega), phase]
      rfl
    rw [transfer, down, if_neg Bool.false_ne_true]
  rw [transferred, Clocked.span_append (b := c + 2) (by omega) (by omega), quiet,
    List.append_nil, Clocked.span_succ (by omega), Clocked.span_succ (by omega), after₁]
  rfl

/-- The engine after the grant. -/
theorem step_grant (captured : Captured s₀ ins e T c g) :
    (after s₀ ins (g + 1)).state = (if (ins g).sAxisResTlast then .idle else .drainRes) ∧
      (after s₀ ins (g + 1)).currAddr = (after s₀ ins c).currAddr + 4 ∧
      (after s₀ ins (g + 1)).resDoneO = (ins g).sAxisResTlast := by
  have holding := captured.holding
  have phase := holding.writes g holding.before (le_refl g)
  have low := holding.later
  have order := holding.before
  have within := captured.within
  have down : (after s₀ ins g).resDoneO = false := doneWhenIdle g (by rw [phase]; decide)
  have edge := drain.step_write (by omega) within phase
  rw [captured.grant] at edge
  rw [edge]
  refine ⟨rfl, ?_, ?_⟩
  · exact congrArg (· + 4) (drain.held holding (by omega)).2
  · cases last : (ins g).sAxisResTlast with
    | false => exact down
    | true => rfl

/-- Where no beat is lost, the beat captured is the next one transferred. -/
theorem transferred_next (captured : Captured s₀ ins e T c g)
    (alone : ready s₀ ins c = true → (ins (c + 1)).sAxisResTvalid = false) :
    transferred s₀ ins e (g + 1) =
      transferred s₀ ins e c ++ [((ins c).sAxisResTdata, (ins c).sAxisResTlast)] := by
  have low := captured.holding.later
  have order := captured.holding.before
  have within := captured.within
  have here : offer ins c = some ((ins c).sAxisResTdata, (ins c).sAxisResTlast) :=
    if_pos captured.holding.valid
  rw [drain.transferred_captured captured, List.append_assoc]
  congr 1
  cases up : ready s₀ ins c with
  | true =>
      have none_ : offer ins (c + 1) = none := if_neg (by rw [alone up]; exact Bool.false_ne_true)
      rw [transfer, up, if_pos rfl, here, none_]
      rfl
  | false =>
      have again := drain.source c (by omega) (by omega) _ here up
      rw [transfer, up, if_neg Bool.false_ne_true, again]
      rfl

/-! ### The run of the drain -/

/-- The words written are the beats transferred, and the next place is the next word's. -/
def Settled (s₀ : State) (ins : ℕ → Inputs) (e t : ℕ) : Prop :=
  wordWrites s₀ ins e t = placed (ins e).resBaseI (transferred s₀ ins e t) ∧
    (after s₀ ins t).currAddr = wordAddr (ins e).resBaseI (transferred s₀ ins e t).length

omit drain in
theorem placed_snoc (base : BitVec 32) (beats : List (BitVec 32 × Bool)) (beat : BitVec 32 × Bool) :
    placed base (beats ++ [beat]) = placed base beats ++ [(wordAddr base beats.length, beat.1)] :=
  List.mapIdx_concat

/-- A captured word that loses no beat settles again at its grant. -/
theorem settled_captured (captured : Captured s₀ ins e T c g) (settled : Settled s₀ ins e c)
    (alone : ready s₀ ins c = true → (ins (c + 1)).sAxisResTvalid = false) :
    Settled s₀ ins e (g + 1) := by
  obtain ⟨words, place⟩ := settled
  rw [Settled, drain.wordWrites_captured captured, drain.transferred_next captured alone,
    placed_snoc, words, (drain.step_grant captured).2.1, place, List.length_append,
    List.length_singleton, wordAddr_succ]
  exact ⟨rfl, rfl⟩

/-- In every cycle of the drain the engine holds a word it captured, or none. -/
theorem stage (t : ℕ) (low : e + 1 ≤ t) (high : t ≤ T) :
    (after s₀ ins t).state = .drainRes ∨ (∃ c, Holding s₀ ins e c t) ∨
      (after s₀ ins t).state = .idle := by
  induction t, low using Nat.le_induction with
  | base => exact .inl (drain.first (by omega)).1
  | succ t low ih =>
      rcases ih (by omega) with phase | ⟨c, holding⟩ | idle
      · have edge := drain.step_drain low (by omega) phase
        cases valid : (ins t).sAxisResTvalid with
        | false =>
            rw [valid] at edge
            exact .inl (by rw [edge]; rfl)
        | true =>
            rw [valid] at edge
            refine .inr (.inl ⟨t, low, by omega, phase, valid, ?_, fun u low' high' => by omega⟩)
            intro u low' high'
            obtain rfl : u = t + 1 := by omega
            rw [edge]
            rfl
      · have phase := holding.writes t holding.before (le_refl t)
        cases grant : (ins t).mGntI with
        | true =>
            have next := (drain.step_grant ⟨holding, grant, by omega⟩).1
            rw [next]
            cases (ins t).sAxisResTlast with
            | true => exact .inr (.inr rfl)
            | false => exact .inl rfl
        | false =>
            have edge := drain.step_write low (by omega) phase
            rw [grant] at edge
            have order := holding.before
            refine .inr (.inl ⟨c, holding.later, by omega, holding.phase, holding.valid, ?_, ?_⟩)
            · intro u low' high'
              by_cases last : u = t + 1
              · rw [last, edge]
                rfl
              · exact holding.writes u low' (by omega)
            · intro u low' high'
              by_cases last : u = t
              · rw [last, grant]
              · exact holding.waits u low' (by omega)
      · exact absurd idle (drain.busy t low (by omega))

/-- Over a cycle in which no word comes everything stays as it is. -/
theorem settled_idle (low : e < t) (high : t < T) (phase : (after s₀ ins t).state = .drainRes)
    (silent : (ins t).sAxisResTvalid = false) (settled : Settled s₀ ins e t) :
    Settled s₀ ins e (t + 1) := by
  have edge := drain.step_drain low high phase
  have noWrite : wordWrite s₀ ins t = none := if_neg (by rw [phase]; decide)
  have noBeat : transfer s₀ ins t = none := by
    rw [transfer, offer, silent]
    simp
  have words : wordWrites s₀ ins e (t + 1) = wordWrites s₀ ins e t := by
    rw [wordWrites, Clocked.span_succ low, noWrite]
    exact List.append_nil _
  have beats : transferred s₀ ins e (t + 1) = transferred s₀ ins e t := by
    rw [transferred, Clocked.span_succ low, noBeat]
    exact List.append_nil _
  rw [Settled, words, beats, edge]
  exact settled

/-- **An unhurried source settles**: whenever no word is held, what is transferred is written. -/
theorem settled (unhurried : Unhurried s₀ ins e T) (t : ℕ) (low : e < t) (high : t ≤ T)
    (free : (after s₀ ins t).state ≠ .resWrite) : Settled s₀ ins e t := by
  induction t using Nat.strong_induction_on with
  | _ t ih =>
      obtain ⟨u, rfl⟩ : ∃ u, t = u + 1 := ⟨t - 1, by omega⟩
      rcases Nat.eq_or_lt_of_le (Nat.le_of_lt_succ low) with rfl | later
      · refine ⟨?_, ?_⟩
        · rw [wordWrites, transferred, Clocked.span_self, Clocked.span_self]
          rfl
        · rw [transferred, Clocked.span_self, (drain.first high).2.1]
          exact (wordAddr_zero _).symm
      · rcases drain.stage u later (by omega) with phase | ⟨c, holding⟩ | idle
        · have before := ih u (by omega) later (by omega) (by rw [phase]; decide)
          have edge := drain.step_drain later high phase
          cases valid : (ins u).sAxisResTvalid with
          | false => exact drain.settled_idle later high phase valid before
          | true =>
              rw [edge, valid] at free
              exact absurd rfl free
        · have order := holding.before
          have phase := holding.writes u order (le_refl u)
          have edge := drain.step_write later high phase
          cases grant : (ins u).mGntI with
          | false =>
              rw [edge, grant] at free
              exact absurd rfl free
          | true =>
              have captured : Captured s₀ ins e T c u := ⟨holding, grant, high⟩
              have before := ih c (by omega) holding.later (by omega)
                (by rw [holding.phase]; decide)
              exact drain.settled_captured captured before (unhurried c u captured).1
        · exact absurd idle (drain.busy u later high)

/-- The beat of the word written at the grant is the captured one. -/
theorem marked_iff (captured : Captured s₀ ins e T c g)
    (alone : ready s₀ ins c = true → (ins (c + 1)).sAxisResTvalid = false)
    (words : wordWrites s₀ ins e c = placed (ins e).resBaseI (transferred s₀ ins e c)) :
    (∃ data, (transferred s₀ ins e (g + 1))[(wordWrites s₀ ins e g).length]? = some (data, true)) ↔
      (ins c).sAxisResTlast = true := by
  have count : (wordWrites s₀ ins e g).length = (transferred s₀ ins e c).length := by
    rw [captured.holding.wordWrites_eq, words, placed, List.length_mapIdx]
  rw [drain.transferred_next captured alone, count, List.getElem?_concat_length]
  simp

/-- A word is written at the grant of a capture. -/
theorem captured_of_wordWrite (low : e < g) (high : g < T) (writes : wordWrite s₀ ins g ≠ none) :
    ∃ c, Captured s₀ ins e T c g := by
  have phase : (after s₀ ins g).state = .resWrite := by
    by_contra other
    exact writes (if_neg other)
  have grant : (ins g).mGntI = true := by
    by_contra refused
    have refused : (ins g).mGntI = false := by simpa using refused
    apply writes
    rw [wordWrite, if_pos phase, memWrite, refused, Bool.false_and]
    rfl
  rcases drain.stage g low (le_of_lt high) with drains | ⟨c, holding⟩ | idle
  · exact absurd (drains.symm.trans phase) (by decide)
  · exact ⟨c, holding, grant, high⟩
  · exact absurd idle (drain.busy g low high)

/-- A request outside of a write repeats the write before it. -/
theorem only (t : ℕ) (w : BitVec 32 × BitVec 32) (low : e < t) (high : t ≤ T)
    (write : memWrite s₀ ins t = some w) :
    wordWrite s₀ ins t = some w ∨ ∃ u, u + 1 = t ∧ wordWrite s₀ ins u = some w := by
  by_cases phase : (after s₀ ins t).state = .resWrite
  · exact .inl ((if_pos phase).trans write)
  · obtain ⟨up, same⟩ := Option.ite_none_right_eq_some.mp write
    rw [Bool.and_eq_true] at up
    have asks := drain.memory t (by omega) high up.1
    obtain ⟨u, rfl⟩ : ∃ u, t = u + 1 := ⟨t - 1, by omega⟩
    refine .inr ⟨u, rfl, ?_⟩
    rcases Nat.eq_or_lt_of_le (Nat.le_of_lt_succ low) with rfl | later
    · have edge := step_runArray (drain.noAbort e (le_refl e) high) drain.waits
      rw [if_pos drain.enters] at edge
      rw [after_succ, edge] at asks
      cases asks
    · rcases drain.stage u later (by omega) with drains | ⟨c, holding⟩ | idle
      · rw [drain.step_drain later high drains] at asks
        cases asks
      · have writes := holding.writes u holding.before (le_refl u)
        have edge := drain.step_write later high writes
        cases grant : (ins u).mGntI with
        | false =>
            rw [edge, grant] at phase
            exact absurd rfl phase
        | true =>
            have captured : Captured s₀ ins e T c u := ⟨holding, grant, high⟩
            obtain ⟨data, place⟩ := drain.held holding (by omega)
            rw [drain.wordWrite_grant captured, ← same, edge, data, place]
      · exact absurd idle (drain.busy u later high)

theorem unhurried_of_stores (stores : Stores s₀ ins e T) : Unhurried s₀ ins e T := by
  intro c g captured
  have low := captured.holding.later
  have order := captured.holding.before
  have within := captured.within
  have before := stores.words c low (by omega) (by rw [captured.holding.phase]; decide)
  have behind := stores.words (g + 1) (by omega) within
    (by rw [(drain.step_grant captured).1]; split <;> decide)
  have alone : ready s₀ ins c = true → (ins (c + 1)).sAxisResTvalid = false := by
    intro up
    by_contra another
    -- two beats are transferred, and one word is written
    have here : transfer s₀ ins c = some ((ins c).sAxisResTdata, (ins c).sAxisResTlast) := by
      rw [transfer, if_pos up]
      exact if_pos captured.holding.valid
    have more : offer ins (c + 1) =
        some ((ins (c + 1)).sAxisResTdata, (ins (c + 1)).sAxisResTlast) :=
      if_pos (by simpa using another)
    have counts := congrArg List.length behind
    rw [drain.wordWrites_captured captured, drain.transferred_captured captured, here, more,
      before] at counts
    simp [placed] at counts
  refine ⟨alone, ?_⟩
  have flag := stores.done g (by omega) within
    (by rw [drain.wordWrite_grant captured]; exact Option.some_ne_none _)
  rw [(drain.step_grant captured).2.2, drain.marked_iff captured alone before] at flag
  exact Bool.eq_iff_iff.mpr flag

theorem stores_of_unhurried (unhurried : Unhurried s₀ ins e T) : Stores s₀ ins e T where
  words t low high free := (drain.settled unhurried t low high free).1
  only := drain.only
  done g low high writes := by
    obtain ⟨c, captured⟩ := drain.captured_of_wordWrite low high writes
    obtain ⟨alone, last⟩ := unhurried c g captured
    have order := captured.holding.before
    have before := drain.settled unhurried c captured.holding.later (by omega)
      (by rw [captured.holding.phase]; decide)
    rw [(drain.step_grant captured).2.2, drain.marked_iff captured alone before.1, last]

end Drain

end

/-- **The engine stores what is transferred exactly when** no beat follows at once one that was
captured with ready up, and the source shows at each grant the `tlast` it showed at the capture. -/
theorem result_sink_iff (e T : ℕ) (drain : Drain s₀ ins e T) :
    Stores s₀ ins e T ↔ Unhurried s₀ ins e T := by
  constructor
  · exact drain.unhurried_of_stores
  · exact drain.stores_of_unhurried

end Runs

/-! ## Two beats and one -/

/-- An engine at rest. -/
def still : State where
  busyO := false
  wgtDoneO := false
  actDoneO := false
  resDoneO := false
  mReqO := false
  mAddrO := 0
  mWeO := false
  mWdataO := 0
  mAxisWgtTdata := 0
  mAxisWgtTvalid := false
  mAxisActTdata := 0
  mAxisActTvalid := false
  sAxisResTready := false
  state := .idle
  currAddr := 0
  bytesLeft := 0
  wdataBuf := 0

/-- A job without operands, started in cycle 0, and two results.  The source shows the first from
cycle 3 until it is transferred in cycle 5, the second in cycle 8 alone, and the second's `tlast`
up to its grant in cycle 11. -/
def twoBeats (t : ℕ) : Inputs where
  startI := decide (t = 0)
  abortI := false
  wgtBaseI := 0
  actBaseI := 0
  resBaseI := 0x10002000
  dmaLenWgtI := 0
  dmaLenActI := 0
  mGntI := decide (t = 6 ∨ t = 11)
  mRvalidI := false
  mRdataI := 0
  sAxisResTdata := if t < 7 then 7 else 9
  sAxisResTvalid := decide (3 ≤ t ∧ t ≤ 5 ∨ t = 8)
  sAxisResTlast := decide (8 ≤ t ∧ t ≤ 11)

theorem twoBeats_drain : Drain still twoBeats 3 12 where
  waits := rfl
  enters := rfl
  noAbort _ _ _ := rfl
  busy := by
    show ∀ t, 4 ≤ t → t < 12 → (after still twoBeats t).state ≠ .idle
    decide
  source := by
    intro t low high x here stalled
    by_cases shown : 3 ≤ t ∧ t ≤ 5 ∨ t = 8
    · obtain rfl | rfl | rfl | rfl : t = 3 ∨ t = 4 ∨ t = 5 ∨ t = 8 := by omega
      · exact here
      · exact here
      · cases stalled
      · cases stalled
    · have none : (twoBeats t).sAxisResTvalid = false := decide_eq_false shown
      rw [offer, none] at here
      cases here
  memory := by
    have asks : ∀ t < 13, (twoBeats t).mGntI = true → (after still twoBeats t).mReqO = true := by
      decide
    exact fun t _ upto => asks t (Nat.lt_succ_of_le upto)

/-- A source that shows `tlast` up to the grant. -/
theorem result_sink_longer : Stores still twoBeats 3 12 := by
  refine (result_sink_iff still twoBeats 3 12 twoBeats_drain).mpr ?_
  intro c g captured
  have order := captured.holding.before
  have within := captured.within
  have later := captured.holding.later
  have grant : g = 6 ∨ g = 11 := of_decide_eq_true captured.grant
  have shown : 3 ≤ c ∧ c ≤ 5 ∨ c = 8 := of_decide_eq_true captured.holding.valid
  obtain rfl | rfl | rfl : c = 4 ∨ c = 5 ∨ c = 8 := by omega
  · -- a word that was granted in cycle 6 does not wait for cycle 11
    have first : g = 6 := by
      by_contra other
      exact absurd (captured.holding.waits 6 (by decide) (by omega)) (by decide)
    subst first
    exact ⟨fun up => absurd up (by decide), rfl⟩
  · exact absurd captured.holding.phase (by decide)
  · obtain rfl : g = 11 := by omega
    exact ⟨fun _ => rfl, rfl⟩

/-- One result, which the source shows from cycle 3 until it is transferred in cycle 5, and its
`tlast` with it. -/
def oneBeat (t : ℕ) : Inputs :=
  { twoBeats t with
    mGntI := decide (t = 6)
    sAxisResTdata := 7
    sAxisResTvalid := decide (3 ≤ t ∧ t ≤ 5)
    sAxisResTlast := decide (3 ≤ t ∧ t ≤ 5) }

theorem oneBeat_drain : Drain still oneBeat 3 7 where
  waits := rfl
  enters := rfl
  noAbort _ _ _ := rfl
  busy := by
    show ∀ t, 4 ≤ t → t < 7 → (after still oneBeat t).state ≠ .idle
    decide
  source := by
    intro t low high x here stalled
    obtain rfl | rfl | rfl | rfl : t = 3 ∨ t = 4 ∨ t = 5 ∨ t = 6 := by omega
    · exact here
    · exact here
    · cases stalled
    · cases here
  memory := by
    intro t _ _ grant
    obtain rfl : t = 6 := of_decide_eq_true grant
    rfl

/-- A source that shows `tlast` with its beat: the engine waits for another beat. -/
theorem result_sink_misses :
    ¬ ∀ (s₀ : State) (ins : ℕ → Inputs) (e T : ℕ), Drain s₀ ins e T → Stores s₀ ins e T := by
  intro claim
  have flag := (claim _ _ 3 7 oneBeat_drain).done 6 (by decide) (by decide) (by decide)
  exact absurd (flag.mpr ⟨7, by decide⟩) (by decide)

end MiniMac.Accel.AxiStreamDma
