/-
# Accel.StreamSources -- the stream sources and their handshake

The result port of a core registers the word its counter points at, and the sink's
ready moves the counter on at once: what the port shows is one cycle behind, so a
stall loses a word and a late ready repeats the first one, unless the word behind it
is the same.  The two operand ports of the stream engine are valid for one cycle and
do not look at ready at all.  `stream_sources_iff` says for which sinks the ports obey
their handshakes.
-/
import MiniMac.Accel.ClosedForm
import MiniMac.Accel.FillStreams
import MiniMac.Theory.Handshake
import MiniMac.Theory.InOrder

namespace MiniMac.Accel

open MiniMac.Theory MiniMac.Theory.InOrder

set_option autoImplicit false

/-! ## The result port -/

namespace MacCoreAxi

variable {rows cols dataW : ℕ}

/-- What the result port offers: a word, and whether it is marked as the last. -/
def resOffer (s : State rows cols dataW) : Option (BitVec 32 × Bool) :=
  if s.mAxisResTvalid then some (s.mAxisResTdata, s.mAxisResTlast) else none

theorem resBeat_eq (s : State rows cols dataW) (i : Inputs) :
    resBeat s i = if i.mAxisResTready then resOffer s else none := by
  cases valid : s.mAxisResTvalid <;> cases taken : i.mAxisResTready <;>
    simp [resBeat, resOffer, valid, taken]

/-- The word that is offered. -/
def resData (s : State rows cols dataW) : Option (BitVec 32) := (resOffer s).map Prod.fst

/-- The words a stream of `N` is to transfer, with the last one marked. -/
def resWords (s : State rows cols dataW) (N : ℕ) (fits : N ≤ cols) : List (BitVec 32 × Bool) :=
  List.ofFn fun c : Fin N => (s.resBuf (c.castLE fits), decide (c.val + 1 = N))

/-- Word `k` is not the last, and the one behind it is the same. -/
def Repeats (s : State rows cols dataW) (N : ℕ) (fits : N ≤ cols) (k : ℕ) : Prop :=
  ∃ more : k + 1 < N, s.resBuf ⟨k, by omega⟩ = s.resBuf ⟨k + 1, by omega⟩

/-- Word `k`, shown behind a cycle that did or did not take it, stands for word `j`. -/
def StandsFor (s : State rows cols dataW) (N : ℕ) (fits : N ≤ cols) (past : Bool) (k j : ℕ)
    (within : k < N) : Prop :=
  ∃ inside : j < N, s.resBuf ⟨k, by omega⟩ = s.resBuf ⟨j, by omega⟩ ∧
    (past && decide (k + 1 = N)) = decide (j + 1 = N)

variable (s₀ : State rows cols dataW) (ins : ℕ → Inputs) (s N : ℕ)

/-- The core has streamed in every cycle from `s` up to `s + n`. -/
def StreamsFor (n : ℕ) : Prop := ∀ m < n, (after s₀ ins (s + m)).state = .streamOut

/-- A stream of `N` words begins in cycle `s`. -/
structure Streams : Prop where
  phase : (after s₀ ins s).state = .streamOut
  starts : ∀ t, s = t + 1 → (after s₀ ins t).state ≠ .streamOut
  n_pos : 0 < N
  n_lt : N < 256
  fits : N ≤ cols
  regN : ∀ n, StreamsFor s₀ ins s (n + 1) → (ins (s + n)).regNI = BitVec.ofNat 8 N

/-- The sink's ready over the stream. -/
def ready (n : ℕ) : Bool := (ins (s + n)).mAxisResTready

/-- What is transferred in the cycles from `s` up to `s + n`. -/
def resTransfers (n : ℕ) : List (BitVec 32 × Bool) := resBeats s₀ ins s (n + 1)

/-- The port obeys the handshake: offered data is held, what is transferred are the first of the
words, and all of them when the stream is over. -/
structure ResObeys (fits : N ≤ cols) : Prop where
  held : ∀ n, StreamsFor s₀ ins s n →
    Handshake.Held (fun t => resData (after s₀ ins t)) (fun t => (ins t).mAxisResTready) s
      (s + n + 1)
  order : ∀ n, StreamsFor s₀ ins s n →
    resTransfers s₀ ins s n <+: resWords (after s₀ ins s) N fits
  complete : ∀ n, StreamsFor s₀ ins s n → (after s₀ ins (s + n)).state ≠ .streamOut →
    resTransfers s₀ ins s n = resWords (after s₀ ins s) N fits

/-- No wait of the sink shows: when it was not ready in the first cycle, or is not in the next,
the port moves on to a word that is no other. -/
def Unseen (fits : N ≤ cols) : Prop :=
  ∀ n k, k < N → events (ready ins s) n = k → ready ins s n = true →
    ready ins s 0 = false ∨ ready ins s (n + 1) = false →
    Repeats (after s₀ ins s) N fits k

variable {s₀ ins s N}

/-- A stream begins behind the last of the captured words. -/
theorem step_opens {st : State rows cols dataW} {i : Inputs} (before : st.state ≠ .streamOut)
    (opens : (step st i).state = .streamOut) :
    (step st i).rCnt = 0 ∧ (step st i).mAxisResTvalid = false := by
  have only : st.state = .writeRes := by
    cases phase : st.state <;> simp [step, fsm, phase, defaults] at before opens ⊢
    all_goals split at opens <;> cases opens
  have last : isLast st.rCnt i.regNI = true := by
    simpa [step_writeRes only] using opens
  rw [step_writeRes only, last]
  exact ⟨rfl, rfl⟩

theorem StreamsFor.earlier {m n : ℕ} (streams : StreamsFor s₀ ins s n) (upto : m ≤ n) :
    StreamsFor s₀ ins s m :=
  fun k before => streams k (by omega)

namespace Streams

variable (streams : Streams s₀ ins s N)

include streams

/-- The counter starts at the first word. -/
theorem opens :
    (after s₀ ins s).rCnt = 0 ∧ (after s₀ ins s).mAxisResTvalid = false := by
  have phase := streams.phase
  cases s with
  | zero => cases phase
  | succ t =>
      have starts := streams.starts t rfl
      rw [after_succ] at phase ⊢
      exact step_opens starts phase

/-- The counter counts the cycles in which the sink was ready. -/
theorem counts (n : ℕ) :
    events (ready ins s) n < N → StreamsFor s₀ ins s (n + 1) ∧
      (after s₀ ins (s + n)).rCnt = BitVec.ofNat 8 (events (ready ins s) n) ∧
      (after s₀ ins (s + n)).resBuf = (after s₀ ins s).resBuf := by
  have n_lt := streams.n_lt
  induction n with
  | zero =>
      intro _
      refine ⟨fun m before => ?_, streams.opens.1, rfl⟩
      obtain rfl : m = 0 := by omega
      exact streams.phase
  | succ n ih =>
      intro more
      have before : events (ready ins s) n ≤ events (ready ins s) (n + 1) :=
        events_mono _ (Nat.le_succ n)
      obtain ⟨past, count, buffer⟩ := ih (by omega)
      have phase := past n (Nat.lt_succ_self n)
      have notLast : ((ins (s + n)).mAxisResTready &&
          isLast (after s₀ ins (s + n)).rCnt (ins (s + n)).regNI) = false := by
        rw [count, streams.regN n past, isLast_ofNat streams.n_pos (by omega) n_lt]
        rw [events_succ] at more
        cases taken : (ins (s + n)).mAxisResTready with
        | false => rfl
        | true =>
            rw [ready, taken, if_pos rfl] at more
            simp
            omega
      have engine := step_streamOut (i := ins (s + n)) phase
      rw [← after_succ, notLast] at engine
      refine ⟨fun m within => ?_, ?_, ?_⟩
      · rcases Nat.lt_succ_iff_lt_or_eq.mp within with earlier | rfl
        · exact past m earlier
        · rw [← Nat.add_assoc, engine]
          rfl
      · rw [← Nat.add_assoc, engine, events_succ, ready]
        dsimp only
        rw [count]
        cases (ins (s + n)).mAxisResTready with
        | false => rfl
        | true => exact (BitVec.ofNat_add _ 1).symm
      · rw [← Nat.add_assoc, after_succ, step_resBuf (by simp [phase])]
        exact buffer

/-- **What the port shows** is the word the counter pointed at in the cycle before. -/
theorem shows {n k : ℕ} (count : events (ready ins s) n = k) (within : k < N) :
    resOffer (after s₀ ins (s + n + 1)) =
        some ((after s₀ ins s).resBuf ⟨k, lt_of_lt_of_le within streams.fits⟩,
          ready ins s n && decide (k + 1 = N)) ∧
      (after s₀ ins (s + n + 1)).state =
        if ready ins s n && decide (k + 1 = N) then .idle else .streamOut := by
  subst count
  have n_lt := streams.n_lt
  have fits := streams.fits
  obtain ⟨past, count, buffer⟩ := streams.counts n within
  have inside : events (ready ins s) n < cols := by omega
  rw [after_succ, step_streamOut (past n (Nat.lt_succ_self n)), count, streams.regN n past,
    isLast_ofNat streams.n_pos (by omega) n_lt, buffer]
  simp [resOffer, ready, column, inside,
    Nat.mod_eq_of_lt (show events (ready ins s) n < 256 by omega)]

theorem data {n k : ℕ} (count : events (ready ins s) n = k) (within : k < N) :
    resData (after s₀ ins (s + n + 1)) =
      some ((after s₀ ins s).resBuf ⟨k, lt_of_lt_of_le within streams.fits⟩) := by
  rw [resData, (streams.shows count within).1]
  rfl

/-- Nothing is shown in the first cycle. -/
theorem first : resOffer (after s₀ ins s) = none := by
  simp [resOffer, streams.opens.2]

/-- The stream is over with the word that is taken last. -/
theorem counter_lt {n : ℕ} (streaming : StreamsFor s₀ ins s (n + 1)) :
    events (ready ins s) n < N := by
  induction n with
  | zero => exact streams.n_pos
  | succ n ih =>
      have within := ih (streaming.earlier (Nat.le_succ _))
      by_contra beyond
      rw [events_succ] at beyond
      have phase := streaming (n + 1) (Nat.lt_succ_self _)
      rw [← Nat.add_assoc, (streams.shows rfl within).2] at phase
      cases taken : ready ins s n with
      | false =>
          rw [taken] at beyond
          exact beyond within
      | true =>
          rw [taken, if_pos rfl] at beyond
          rw [taken, if_pos (by simp; omega)] at phase
          cases phase

/-- One more cycle transfers what is shown in it. -/
theorem transfers_next {n k : ℕ} (count : events (ready ins s) n = k) (within : k < N) :
    resTransfers s₀ ins s (n + 1) = resTransfers s₀ ins s n ++
      if ready ins s (n + 1) then
        [((after s₀ ins s).resBuf ⟨k, lt_of_lt_of_le within streams.fits⟩,
          ready ins s n && decide (k + 1 = N))]
      else [] := by
  have shown := (streams.shows count within).1
  rw [Nat.add_assoc] at shown
  have sink : (ins (s + (n + 1))).mAxisResTready = ready ins s (n + 1) := rfl
  rw [resTransfers, resBeats, Clocked.window_succ, resBeat_eq, shown, ← resBeats, ← resTransfers,
    sink]
  cases ready ins s (n + 1) <;> rfl

theorem transfers_zero : resTransfers s₀ ins s 0 = [] := by
  rw [resTransfers, resBeats, Clocked.window_succ, resBeat_eq, Nat.add_zero, streams.first,
    ite_self]
  rfl

/-- Each ready cycle but the first of the stream transfers a word. -/
theorem transfers_length {n : ℕ} (streaming : StreamsFor s₀ ins s n) :
    (resTransfers s₀ ins s n).length + (if ready ins s 0 then 1 else 0) =
      events (ready ins s) (n + 1) := by
  induction n with
  | zero =>
      rw [streams.transfers_zero, events_succ, events_zero]
      rfl
  | succ n ih =>
      have before := ih (streaming.earlier (Nat.le_succ n))
      rw [streams.transfers_next rfl (streams.counter_lt streaming), events_succ, ← before]
      cases ready ins s (n + 1) with
      | false => simp
      | true =>
          simp
          omega

/-! ### Waits that do not show -/

section Unseen

variable (unseen : Unseen s₀ ins s N streams.fits)

include unseen

/-- While the sink waits, the port shows the word that was taken last. -/
theorem behind {n k : ℕ} (within : k < N) :
    events (ready ins s) n = k + 1 → ready ins s n = false →
      Repeats (after s₀ ins s) N streams.fits k := by
  induction n with
  | zero =>
      intro count
      cases count
  | succ n ih =>
      intro count waits
      rw [events_succ] at count
      cases taken : ready ins s n with
      | false =>
          rw [taken] at count
          exact ih count taken
      | true =>
          rw [taken, if_pos rfl] at count
          exact unseen n k within (by omega) taken (.inr waits)

theorem held_of_unseen {n : ℕ} (streaming : StreamsFor s₀ ins s n) :
    Handshake.Held (fun t => resData (after s₀ ins t)) (fun t => (ins t).mAxisResTready) s
      (s + n + 1) := by
  intro t low high x offered stalled
  obtain ⟨m, rfl⟩ := Nat.exists_eq_add_of_le low
  dsimp only at offered stalled ⊢
  cases m with
  | zero =>
      rw [Nat.add_zero, resData, streams.first] at offered
      cases offered
  | succ m =>
      have within := streams.counter_lt (streaming.earlier (show m + 1 ≤ n by omega))
      rw [← Nat.add_assoc, streams.data rfl within] at offered
      rw [← offered]
      cases taken : ready ins s m with
      | false =>
          refine streams.data (n := m + 1) ?_ within
          rw [events_succ, taken]
          rfl
      | true =>
          obtain ⟨more, same⟩ := unseen m _ within rfl taken (.inr stalled)
          rw [same]
          refine streams.data (n := m + 1) ?_ more
          rw [events_succ, taken]
          rfl

/-- With a sink that was ready at the start, a wait is on the word that was taken last. -/
theorem next_word_open {n k j : ℕ} (count : events (ready ins s) n = k) (within : k < N)
    (position : j + 1 = k + if ready ins s n then 1 else 0) :
    StandsFor (after s₀ ins s) N streams.fits (ready ins s n) k j within := by
  cases before : ready ins s n with
  | true =>
      rw [before, if_pos rfl] at position
      obtain rfl : j = k := by omega
      exact ⟨within, rfl, rfl⟩
  | false =>
      rw [before] at position
      obtain rfl : k = j + 1 := by simpa using position.symm
      obtain ⟨_, same⟩ := streams.behind unseen (by omega) count before
      refine ⟨by omega, same.symm, ?_⟩
      simp
      omega

/-- With a sink that was not, each word is taken in the place of the one behind it. -/
theorem next_word_late {n k j : ℕ} (count : events (ready ins s) n = k) (within : k < N)
    (late : ready ins s 0 = false) (taken : ready ins s (n + 1) = true)
    (position : j = k + if ready ins s n then 1 else 0) :
    StandsFor (after s₀ ins s) N streams.fits (ready ins s n) k j within := by
  have now : events (ready ins s) (n + 1) = j := by rw [events_succ, count, position]
  cases before : ready ins s n with
  | true =>
      rw [before] at position
      obtain rfl : j = k + 1 := by simpa using position
      obtain ⟨more, same⟩ := unseen n k within count before (.inl late)
      obtain ⟨more', -⟩ := unseen (n + 1) (k + 1) more now taken (.inl late)
      refine ⟨more, same, ?_⟩
      simp
      omega
  | false =>
      rw [before] at position
      obtain rfl : j = k := by simpa using position
      obtain ⟨more, -⟩ := unseen (n + 1) j within now taken (.inl late)
      refine ⟨within, rfl, ?_⟩
      simp
      omega

/-- What a cycle transfers is the next of the words. -/
theorem next_word {n k j : ℕ} (count : events (ready ins s) n = k) (within : k < N)
    (taken : ready ins s (n + 1) = true)
    (position : j + (if ready ins s 0 then 1 else 0) = events (ready ins s) (n + 1)) :
    StandsFor (after s₀ ins s) N streams.fits (ready ins s n) k j within := by
  rw [events_succ, count] at position
  cases first : ready ins s 0 with
  | true =>
      rw [first, if_pos rfl] at position
      exact streams.next_word_open unseen count within position
  | false =>
      rw [first] at position
      exact streams.next_word_late unseen count within first taken position

/-- The transfers are the first of the words. -/
theorem transfers_take {n : ℕ} (streaming : StreamsFor s₀ ins s n) :
    resTransfers s₀ ins s n =
      (resWords (after s₀ ins s) N streams.fits).take (resTransfers s₀ ins s n).length := by
  induction n with
  | zero => simp [streams.transfers_zero]
  | succ n ih =>
      have earlier := streaming.earlier (Nat.le_succ n)
      have within := streams.counter_lt streaming
      have before := ih earlier
      have length := streams.transfers_length earlier
      rw [streams.transfers_next rfl within]
      cases taken : ready ins s (n + 1) with
      | false => simpa using before
      | true =>
          obtain ⟨inside, same, mark⟩ := streams.next_word unseen rfl within taken length
          rw [if_pos rfl, List.length_append, List.length_singleton, List.take_add_one, ← before,
            same, mark]
          congr 1
          simp [resWords, inside]

theorem obeys_of_unseen : ResObeys s₀ ins s N streams.fits where
  held _ streaming := streams.held_of_unseen unseen streaming
  order n streaming := by
    rw [streams.transfers_take unseen streaming]
    exact List.take_prefix _ _
  complete n streaming past := by
    rw [streams.transfers_take unseen streaming]
    refine List.take_of_length_le ?_
    have length := streams.transfers_length streaming
    cases n with
    | zero => exact absurd streams.phase past
    | succ m =>
        have within := streams.counter_lt streaming
        rw [← Nat.add_assoc, (streams.shows rfl within).2] at past
        obtain ⟨taken, last⟩ : ready ins s m = true ∧ events (ready ins s) m + 1 = N := by
          simpa using past
        have opened : ready ins s 0 = true := by
          by_contra closed
          obtain ⟨more, -⟩ := unseen m _ within rfl taken (.inl (by simpa using closed))
          omega
        have again : ready ins s (m + 1) = true := by
          by_contra waits
          obtain ⟨more, -⟩ := unseen m _ within rfl taken (.inr (by simpa using waits))
          omega
        rw [opened, events_succ, events_succ, taken, again, if_pos rfl] at length
        simp only [resWords, List.length_ofFn]
        omega

end Unseen

/-! ### Waits that show -/

section Obeys

variable (obeys : ResObeys s₀ ins s N streams.fits)

include obeys

/-- The word of a stalled beat is replaced by the next one, or withdrawn. -/
theorem same_of_held {n k : ℕ} (count : events (ready ins s) n = k) (within : k < N)
    (taken : ready ins s n = true) (waits : ready ins s (n + 1) = false) :
    Repeats (after s₀ ins s) N streams.fits k := by
  obtain ⟨streaming, -, -⟩ := streams.counts n (by omega)
  have again := obeys.held (n + 1) streaming (s + n + 1) (by omega) (by omega) _
    (streams.data count within) waits
  dsimp only at again
  rcases Nat.lt_or_ge (k + 1) N with more | last
  · have next := streams.data (n := n + 1) (by rw [events_succ, count, taken, if_pos rfl]) more
    rw [← Nat.add_assoc, again] at next
    exact ⟨more, Option.some.inj next⟩
  · have phase := (streams.shows count within).2
    rw [taken, if_pos (by simp; omega)] at phase
    have quiet : resData (after s₀ ins (s + n + 1 + 1)) = none := by
      rw [resData, resOffer, after_succ, step_tvalid, phase]
      rfl
    rw [quiet] at again
    cases again

/-- With a late start, the word that is taken comes after as many as were taken. -/
theorem same_of_order {n k : ℕ} (count : events (ready ins s) n = k) (within : k < N)
    (closed : ready ins s 0 = false) (taken : ready ins s n = true)
    (again : ready ins s (n + 1) = true) : Repeats (after s₀ ins s) N streams.fits k := by
  obtain ⟨streaming, -, -⟩ := streams.counts n (by omega)
  have length := streams.transfers_length (streaming.earlier (Nat.le_succ n))
  rw [closed, events_succ, count, taken, if_pos rfl] at length
  have place : (resTransfers s₀ ins s n).length = k + 1 := by simpa using length
  obtain ⟨rest, whole⟩ := obeys.order (n + 1) streaming
  rw [streams.transfers_next count within, again, if_pos rfl] at whole
  have here := congrArg (fun l => l[k + 1]?) whole
  rw [List.append_assoc] at here
  simp only [← place, List.getElem?_append_right (le_refl _), Nat.sub_self, List.cons_append,
    List.getElem?_cons_zero, resWords, List.getElem?_ofFn] at here
  split at here
  · next more =>
      rw [Option.some.injEq, Prod.mk.injEq] at here
      refine ⟨by omega, here.1.trans ?_⟩
      simp [place]
  · cases here

theorem unseen_of_obeys : Unseen s₀ ins s N streams.fits := by
  intro n k within count taken wait
  cases again : ready ins s (n + 1) with
  | false => exact streams.same_of_held obeys count within taken again
  | true =>
      have closed : ready ins s 0 = false := by
        rcases wait with closed | waits
        · exact closed
        · exact absurd (again.symm.trans waits) Bool.noConfusion
      exact streams.same_of_order obeys count within closed taken again

end Obeys

/-- **The result port obeys its handshake exactly for a sink whose waits do not show.** -/
theorem obeys_iff : ResObeys s₀ ins s N streams.fits ↔ Unseen s₀ ins s N streams.fits :=
  ⟨streams.unseen_of_obeys, streams.obeys_of_unseen⟩

end Streams

/-- A job streams its words when its dimension is held. -/
theorem JobAt.streams {M : ℕ} (job : JobAt s₀ ins s M N)
    (regN : ∀ n, StreamsFor s₀ ins (s + 2 + (M + N + N)) (n + 1) →
      (ins (s + 2 + (M + N + N) + n)).regNI = BitVec.ofNat 8 N) :
    Streams s₀ ins (s + 2 + (M + N + N)) N where
  phase := job.scheduled.streamOut_phase.1
  starts t before := job.scheduled.not_streaming t (by omega) (by omega)
  n_pos := job.n_pos
  n_lt := job.n_lt
  fits := job.n_le
  regN := regN

end MacCoreAxi

/-! ## The operand ports -/

namespace AxiStreamDma

variable (mem : ℕ → BitVec 32 → BitVec 32) (x : Job) (dma : ℕ → State) (ins : ℕ → Inputs)

variable (ready : ℕ → Bool) (ch : Channel) (a t : ℕ)

/-- What a sink takes from a channel after cycle `a`, up to cycle `t`. -/
def taken : List (BitVec 32) :=
  Handshake.transfers (fun u => ch.beat (dma u)) ready (a + 1) (t - a)

/-- The port of a channel obeys the handshake up to cycle `t` of the job that started in cycle
`a`: offered data is held, what is transferred are the words of the range, and all of them when
the channel is done. -/
structure PortObeys : Prop where
  held : Handshake.Held (fun u => ch.beat (dma u)) ready (a + 1) t
  word : ∀ k word, (taken dma ready ch a t)[k]? = some word →
    ∃ g, a < g ∧ readTaken (dma g) (ins g) = true ∧ (dma g).mAddrO = wordAddr (x.base ch) k ∧
      word = mem g (wordAddr (x.base ch) k)
  complete : ch.done (dma t) = true → 4 * (taken dma ready ch a t).length = (x.len ch).toNat

/-- The sink is ready behind each answer that the channel waited for. -/
def Met : Prop :=
  ∀ u, a ≤ u → u + 1 < t → (dma u).state = ch.wait → (ins u).mRvalidI = true →
    ready (u + 1) = true

variable {mem x dma ins ready ch a t} {latency : ℕ}

/-- The sink meets the beats when it is ready behind the answers. -/
theorem Steady.met_iff (steady : Steady dma ins) :
    Met dma ins ready ch a t ↔
      ∀ u, a + 1 ≤ u → u < t → ch.beat (dma u) ≠ none → ready u = true := by
  constructor
  · intro met u low high beat
    obtain ⟨v, rfl⟩ : ∃ v, u = v + 1 := ⟨u - 1, by omega⟩
    rw [steady.next, beat_step (steady.noAbort v)] at beat
    by_cases answered : (dma v).state = ch.wait ∧ (ins v).mRvalidI = true
    · exact met v (by omega) high answered.1 answered.2
    · exact absurd (if_neg answered) beat
  · intro met u low high wait answer
    refine met (u + 1) (by omega) high ?_
    rw [steady.next, beat_step (steady.noAbort u), if_pos ⟨wait, answer⟩]
    simp

/-- **An operand port obeys its handshake exactly for a sink that never lets it wait.** -/
theorem Stored.portObeys_iff (stored : Stored latency mem dma ins) (spans : x.Over dma ins a t) :
    PortObeys mem x dma ins ready ch a t ↔ Met dma ins ready ch a t := by
  have steady := stored.toServed.steady
  have later := spans.later
  obtain ⟨n, rfl⟩ := Nat.exists_eq_add_of_lt later
  have pulse : ∀ u, a + 1 ≤ u → u < a + n + 1 → ch.beat (dma u) ≠ none →
      ch.beat (dma (u + 1)) = none := by
    intro u low _ beat
    obtain ⟨v, rfl⟩ : ∃ v, u = v + 1 := ⟨u - 1, by omega⟩
    exact steady.pulse beat ch
  rw [steady.met_iff, ← Handshake.held_iff_of_pulse pulse]
  constructor
  · intro obeys
    exact obeys.held
  · intro held
    have met := (Handshake.held_iff_of_pulse pulse).mp held
    have met' : ∀ u, a + 1 ≤ u → u < a + 1 + n → ch.beat (dma u) ≠ none → ready u = true :=
      fun u low high => met u low (by omega)
    have span : a + n + 1 - a = n + 1 := by omega
    refine ⟨held, ?_, ?_⟩
    · intro k word position
      rw [taken, span] at position
      obtain ⟨inside, rfl⟩ := List.getElem?_eq_some_iff.mp position
      refine stored.word spans ?_
      rw [beats, span]
      exact List.prefix_iff_getElem?.mp (Handshake.transfers_prefix met') k inside
    · intro done
      have quiet := steady.silent_of_done spans done
      rw [taken, span, Handshake.transfers_of_met, ← span, ← beats]
      · exact (stored.toServed.streams spans).2.1 ch done
      · intro u low high beat
        rcases Nat.lt_or_ge u (a + n + 1) with before | last
        · exact met u low before beat
        · obtain rfl : u = a + n + 1 := by omega
          exact absurd quiet beat

end AxiStreamDma

/-! ## Both -/

open MacCoreAxi AxiStreamDma

/-- **The stream sources obey their handshakes exactly when** no wait of the result sink shows,
and the operand sinks never let a port wait. -/
theorem stream_sources_iff (rows cols dataW latency : ℕ) :
    (∀ (s₀ : MacCoreAxi.State rows cols dataW) (ins : ℕ → MacCoreAxi.Inputs) (s N : ℕ)
        (streams : Streams s₀ ins s N),
      ResObeys s₀ ins s N streams.fits ↔ Unseen s₀ ins s N streams.fits) ∧
    ∀ (mem : ℕ → BitVec 32 → BitVec 32) (dma : ℕ → AxiStreamDma.State)
        (ins : ℕ → AxiStreamDma.Inputs) (x : Job) (a t : ℕ) (sink : ℕ → Bool) (ch : Channel),
      Stored latency mem dma ins → x.Over dma ins a t →
      (PortObeys mem x dma ins sink ch a t ↔ Met dma ins sink ch a t) := by
  constructor
  · intro s₀ ins s N streams
    exact streams.obeys_iff
  · intro mem dma ins x a t sink ch stored spans
    exact stored.portObeys_iff spans

/-- A core of one cell that is started in cycle 0 and streams from cycle 5 on. -/
def oneWord (sink : ℕ → Bool) (t : ℕ) : MacCoreAxi.Inputs where
  sAxisWgtTdata := 0
  sAxisWgtTvalid := false
  sAxisActTdata := 0
  sAxisActTvalid := false
  mAxisResTready := sink t
  coreStartI := t == 0
  regMI := 1
  regNI := 1
  unknown := 0

theorem oneWord_streams (sink : ℕ → Bool) : Streams (blank : State 1 1 8) (oneWord sink) 5 1 := by
  have job : JobAt (blank : State 1 1 8) (oneWord sink) 0 1 1 := by
    refine ⟨rfl, rfl, by decide, by decide, by decide, by decide, le_refl 1, ?_, ?_, ?_⟩
    · intro _ _ _
      exact ⟨rfl, rfl⟩
    · intro _ _ _
      exact ⟨rfl, rfl⟩
    · intro t before
      cases before
  exact job.streams fun _ _ => rfl

theorem smallJob_spans {t : ℕ} (later : 0 < t) :
    smallJob.Over (Bench.dmaAt id (Bench.jobInputs 0x100 0x200 8 4))
      (Bench.inputsAt id (Bench.jobInputs 0x100 0x200 8 4)) 0 t where
  later := later
  idle := rfl
  start := rfl
  wgtBase := rfl
  lenWgt := rfl
  actBase _ _ _ _ _ := rfl
  lenAct _ _ _ _ _ := rfl
  noStart u low _ _ := by
    show (u == 0) = false
    simp
    omega

/-- Two weights 3 and an activation 5, then a job of two columns, which streams from cycle 10
on. -/
def twoWords (sink : ℕ → Bool) (t : ℕ) : MacCoreAxi.Inputs where
  sAxisWgtTdata := 3
  sAxisWgtTvalid := decide (t < 2)
  sAxisActTdata := 5
  sAxisActTvalid := decide (t < 1)
  mAxisResTready := sink t
  coreStartI := decide (t = 2)
  regMI := 2
  regNI := 2
  unknown := 0

theorem twoWords_streams (sink : ℕ → Bool) :
    Streams (blank : State 1 2 8) (twoWords sink) 10 2 := by
  have idle : ∀ t ≤ 2, (after (blank : State 1 2 8) (twoWords sink) t).state = .idle := by
    intro t upto
    obtain rfl | rfl | rfl : t = 0 ∨ t = 1 ∨ t = 2 := by omega
    · rfl
    · rfl
    · rfl
  have job : JobAt (blank : State 1 2 8) (twoWords sink) 2 2 2 := by
    refine ⟨idle 2 (le_refl 2), rfl, by decide, by decide, by decide, by decide, le_refl 2, ?_, ?_,
      ?_⟩
    · intro _ _ _
      exact ⟨rfl, rfl⟩
    · intro t low _
      exact ⟨decide_eq_false (by omega), decide_eq_false (by omega)⟩
    · intro t before _
      rw [idle t before.le]
      decide
  exact job.streams fun _ _ => rfl

/-- A sink that stalls between two words that are the same, and one that is ready only where
the engine shows a weight. -/
theorem stream_sources_ready :
    ResObeys (blank : State 1 2 8) (twoWords fun t => t != 11) 10 2 (le_refl 2) ∧
      PortObeys (fun _ addr => addr) smallJob
        (Bench.dmaAt id (Bench.jobInputs 0x100 0x200 8 4))
        (Bench.inputsAt id (Bench.jobInputs 0x100 0x200 8 4)) (fun u => u == 4 || u == 7) .wgt 0
        12 := by
  constructor
  · refine ((stream_sources_iff 1 2 8 1).1 _ _ 10 2 (twoWords_streams _)).mpr ?_
    intro n k within count _ wait
    have stall : n = 0 := by
      rcases wait with first | next
      · exact absurd first (by decide)
      · have here : 10 + (n + 1) = 11 := by simpa [MacCoreAxi.ready, twoWords] using next
        omega
    subst stall
    obtain rfl : k = 0 := count.symm
    exact ⟨by decide, by decide +kernel⟩
  · refine ((stream_sources_iff 1 2 8 1).2 _ _ _ smallJob 0 12 _ .wgt Bench.stored
      (smallJob_spans (by decide))).mpr ?_
    have behind : ∀ u < 11, (Bench.dmaAt id (Bench.jobInputs 0x100 0x200 8 4) u).state =
        Channel.wgt.wait → (Bench.inputsAt id (Bench.jobInputs 0x100 0x200 8 4) u).mRvalidI = true →
          (u + 1 == 4 || u + 1 == 7) = true := by
      decide
    exact fun u _ before => behind u (by omega)

/-- A sink that is not ready in the one cycle loses the word. -/
theorem stream_sources_lose :
    (¬ ∀ {rows cols dataW : ℕ} (s₀ : MacCoreAxi.State rows cols dataW)
        (ins : ℕ → MacCoreAxi.Inputs) (s N : ℕ) (streams : Streams s₀ ins s N),
      ResObeys s₀ ins s N streams.fits) ∧
    ¬ ∀ (latency : ℕ) (mem : ℕ → BitVec 32 → BitVec 32) (dma : ℕ → AxiStreamDma.State)
        (ins : ℕ → AxiStreamDma.Inputs) (x : Job) (a t : ℕ) (sink : ℕ → Bool) (ch : Channel),
      Stored latency mem dma ins → x.Over dma ins a t →
      PortObeys mem x dma ins sink ch a t := by
  constructor
  · intro claim
    have streams := oneWord_streams fun t => t != 6
    obtain ⟨more, -⟩ := streams.unseen_of_obeys (claim _ _ 5 1 streams) 0 0 Nat.one_pos rfl rfl
      (.inr rfl)
    exact absurd more (by decide)
  · intro claim
    have obeys := claim 1 _ _ _ smallJob 0 5 (fun _ => false) .wgt Bench.stored
      (smallJob_spans (by decide))
    have met := (Bench.stored.portObeys_iff (smallJob_spans (by decide))).mp obeys
    exact Bool.false_ne_true (met 3 (by decide) (by decide) rfl rfl)

end MiniMac.Accel
