/-
# Core.CopyTransfer -- a transfer of the copy engine over a memory

The engine with a memory that holds `mem t` in cycle `t` and answers a read, a fixed time
after its grant, with what it held at the grant.  An accepted start moves the words of
its length one by one, the length 0 as one word, and is signalled done with memory as
the forward copy leaves it.  The ranges may overlap, and so may the cells of two addresses.
-/
import MiniMac.Core.CopyPort
import MiniMac.Theory.LeadsTo
import MiniMac.Theory.WordAddress
import MiniMac.Theory.WriteLog

namespace MiniMac.Core.DmaMaster

open MiniMac.Theory

set_option autoImplicit false

variable {Cell : Type} [DecidableEq Cell]

/-- A write that is granted. -/
def writeTaken (s : State) (i : Inputs) : Option (BitVec 32 × BitVec 32) :=
  if i.gntI && s.weO then some (s.addrO, s.wdataO) else none

/-- The engine has been at work since the start of cycle `s`. -/
def Working (dma : ℕ → State) (s t : ℕ) : Prop :=
  ∀ u, s < u → u ≤ t → (dma u).state ≠ .idle ∧ (dma u).doneO = false

/-- While the engine works on the start of cycle `s`, it runs on a memory.  At the addresses
inside the memory answers a granted read with what it held at the grant and grants what keeps
being asked for; it takes no writes but the engine's. -/
structure OnMemory (latency : ℕ) (inside : BitVec 32 → Prop) (cell : BitVec 32 → Cell)
    (mem : ℕ → Cell → BitVec 32) (dma : ℕ → State) (ins : ℕ → Inputs) (s : ℕ) : Prop where
  served : Served latency dma ins
  granted : ∀ t, s < t → (∀ u, t ≤ u → Working dma s u ∧ (dma u).reqO = true ∧
    inside (dma u).addrO) → ∃ u, t ≤ u ∧ (ins u).gntI = true
  contents : ∀ g, s < g → Working dma s (g + 1) → readTaken (dma g) (ins g) = true →
    inside (dma g).addrO → (ins (g + latency)).rdataI = mem g (cell (dma g).addrO)
  stores : ∀ t, s < t → Working dma s t →
    (∀ w, writeTaken (dma t) (ins t) = some w → inside w.1) →
    mem (t + 1) = replay (mem t)
      ((writeTaken (dma t) (ins t)).map fun w => Write.store (cell w.1) w.2).toList

/-- What a start asks for. -/
structure Transfer where
  src : BitVec 32
  dst : BitVec 32
  length : BitVec 16

namespace Transfer

/-- The words that are moved: the bytes rounded up, and one for none. -/
def words (x : Transfer) : ℕ := max 1 ((x.length.toNat + 3) / 4)

/-- Memory after the first `k` words. -/
def copied (x : Transfer) (cell : BitVec 32 → Cell) (m : Cell → BitVec 32) (k : ℕ) :
    Cell → BitVec 32 :=
  copyWords m (fun j => cell (wordAddr x.src j)) (fun j => cell (wordAddr x.dst j)) k

/-- The word that is moved. -/
def word (x : Transfer) (cell : BitVec 32 → Cell) (m : Cell → BitVec 32) (k : ℕ) : BitVec 32 :=
  x.copied cell m k (cell (wordAddr x.src k))

theorem copied_succ (x : Transfer) (cell : BitVec 32 → Cell) (m : Cell → BitVec 32) (k : ℕ) :
    x.copied cell m (k + 1) =
      Function.update (x.copied cell m k) (cell (wordAddr x.dst k)) (x.word cell m k) := rfl

/-- The engine's test for the last word. -/
theorem last_iff (x : Transfer) {k : ℕ} {left : BitVec 16} (within : k < x.words)
    (bytes : left.toNat = x.length.toNat - 4 * k) : left ≤ 4 ↔ k + 1 = x.words := by
  rw [BitVec.le_def, bytes, words] at *
  simp only [BitVec.reduceToNat]
  omega

end Transfer

/-- The start of cycle `s` is accepted, and asks for words inside. -/
structure Accepted (inside : BitVec 32 → Prop) (dma : ℕ → State) (ins : ℕ → Inputs)
    (x : Transfer) (s : ℕ) : Prop where
  accepts : accepts (dma s) (ins s) = true
  src : (ins s).srcAddrI = x.src
  dst : (ins s).dstAddrI = x.dst
  length : (ins s).lengthI = x.length
  inside : ∀ k < x.words, inside (wordAddr x.src k) ∧ inside (wordAddr x.dst k)

section Transfers

variable {latency : ℕ} {inside : BitVec 32 → Prop} {cell : BitVec 32 → Cell}
variable {mem : ℕ → Cell → BitVec 32} {dma : ℕ → State} {ins : ℕ → Inputs}
variable {s : ℕ} (memory : OnMemory latency inside cell mem dma ins s) {x : Transfer}

theorem Working.succ {t : ℕ} (working : Working dma s t)
    (next : (dma (t + 1)).state ≠ .idle ∧ (dma (t + 1)).doneO = false) : Working dma s (t + 1) := by
  intro u low high
  rcases Nat.le_succ_iff.mp high with before | rfl
  · exact working u low before
  · exact next

/-- The engine is about to move word `k`. -/
structure AtWord (cell : BitVec 32 → Cell) (mem : ℕ → Cell → BitVec 32) (dma : ℕ → State)
    (x : Transfer) (s k t : ℕ) : Prop where
  later : s < t
  within : k < x.words
  working : Working dma s t
  src : (dma t).currSrc = wordAddr x.src k
  dst : (dma t).currDst = wordAddr x.dst k
  left : (dma t).bytesLeft.toNat = x.length.toNat - 4 * k
  mem : mem t = x.copied cell (mem (s + 1)) k

/-- The words are moved, and the end is about to be signalled. -/
structure Moved (cell : BitVec 32 → Cell) (mem : ℕ → Cell → BitVec 32) (dma : ℕ → State)
    (x : Transfer) (s t : ℕ) : Prop where
  later : s < t
  working : Working dma s t
  phase : (dma t).state = .done
  mem : mem t = x.copied cell (mem (s + 1)) x.words

include memory

/-- A cycle that leaves the registers of the transfer alone and writes nothing. -/
theorem AtWord.still {k t : ℕ} (at_ : AtWord cell mem dma x s k t)
    (silent : writeTaken (dma t) (ins t) = none)
    (registers : (dma (t + 1)).currSrc = (dma t).currSrc ∧ (dma (t + 1)).currDst = (dma t).currDst ∧
      (dma (t + 1)).bytesLeft = (dma t).bytesLeft ∧ (dma (t + 1)).doneO = (dma t).doneO)
    (busy : (dma (t + 1)).state ≠ .idle) : AtWord cell mem dma x s k (t + 1) := by
  obtain ⟨src, dst, left, done⟩ := registers
  have low := (at_.working t at_.later (le_refl t)).2
  have still := memory.stores t at_.later at_.working (by simp [silent])
  rw [silent] at still
  exact {
    later := Nat.lt_succ_of_lt at_.later
    within := at_.within
    working := at_.working.succ ⟨busy, done.trans low⟩
    src := src.trans at_.src
    dst := dst.trans at_.dst
    left := left ▸ at_.left
    mem := still.trans at_.mem }

/-- The read of a word is granted. -/
theorem AtWord.fetched {k t : ℕ} (at_ : AtWord cell mem dma x s k t)
    (accepted : Accepted inside dma ins x s) (phase : (dma t).state = .fetch) :
    ∃ g, t ≤ g ∧ AtWord cell mem dma x s k g ∧ readTaken (dma g) (ins g) = true := by
  have served := memory.served
  obtain ⟨g, later, grant, lasts⟩ := LeadsTo.wait
    (fun u => AtWord cell mem dma x s k u ∧ (dma u).state = .fetch)
    (fun u => (ins u).gntI = true) ⟨at_, phase⟩ (by
      rintro u - ⟨at_, phase⟩ refused
      have engine := (served.next u).trans (step_fetch phase)
      have stays : (dma (u + 1)).state = .fetch := by simp [engine, refused]
      refine ⟨at_.still memory (by simp [writeTaken, refused]) ?_ (by simp [stays]), stays⟩
      rw [engine]
      exact ⟨rfl, rfl, rfl, rfl⟩) (by
      intro always
      by_contra never
      push Not at never
      have later := at_.later
      obtain ⟨u, late, grant⟩ := memory.granted (t + 1) (by omega) fun u late => by
        obtain ⟨v, rfl⟩ : ∃ v, u = v + 1 := ⟨u - 1, by omega⟩
        obtain ⟨at_, phase⟩ := always v (by omega)
        have engine := (served.next v).trans (step_fetch phase)
        have within := (accepted.inside k at_.within).1
        rw [← at_.src] at within
        refine ⟨(always (v + 1) (by omega)).1.working, ?_, ?_⟩
        · simp [engine, never v (by omega)]
        · rw [engine]
          exact within
      exact never u (by omega) grant)
  obtain ⟨at_, phase⟩ := lasts g later (le_refl g)
  refine ⟨g, later, at_, ?_⟩
  cases served.line g with
  | down low => exact absurd (low.symm.trans (served.grants g grant)) Bool.false_ne_true
  | read _ reads _ => simp [readTaken, grant, reads]
  | write store _ _ _ => cases store.symm.trans phase

/-- A cycle in which nothing is granted but the registers of the transfer stay. -/
theorem AtWord.waits {k t : ℕ} (at_ : AtWord cell mem dma x s k t) (phase : (dma t).state = .waitR)
    (silent : (ins t).rvalidI = false) : AtWord cell mem dma x s k (t + 1) := by
  have served := memory.served
  have engine := (served.next t).trans (step_waitR phase silent)
  have refused : (ins t).gntI = false := served.refused (by simp [phase]) (by simp [phase])
  refine at_.still memory (by simp [writeTaken, refused]) ?_ (by simp [engine, phase])
  rw [engine]
  exact ⟨rfl, rfl, rfl, rfl⟩

/-- The word comes in. -/
theorem AtWord.answered {k g : ℕ} (at_ : AtWord cell mem dma x s k g)
    (accepted : Accepted inside dma ins x s) (taken : readTaken (dma g) (ins g) = true) :
    AtWord cell mem dma x s k (g + latency + 1) ∧ (dma (g + latency + 1)).state = .store ∧
      (dma (g + latency + 1)).dataBuffer = x.word cell (mem (s + 1)) k := by
  have served := memory.served
  have positive := served.positive
  obtain ⟨fetch, grant, place⟩ := served.fetches taken
  have waits : ∀ n, n < latency → AtWord cell mem dma x s k (g + 1 + n) := by
    intro n
    induction n with
    | zero =>
        intro _
        have engine := (served.next g).trans (step_fetch fetch)
        have reads : (dma g).weO = false := by
          simpa [readTaken, grant] using taken
        refine at_.still memory (by simp [writeTaken, reads]) ?_ (by simp [engine, grant])
        rw [engine]
        exact ⟨rfl, rfl, rfl, rfl⟩
    | succ n ih =>
        intro within
        have phase := served.waits taken (t := g + 1 + n) (by omega) (by omega)
        have next := served.waits taken (t := g + 1 + n + 1) (by omega) (by omega)
        refine (ih (by omega)).waits memory phase ?_
        by_contra valid
        rw [served.next, step_response phase (Bool.eq_true_of_not_eq_false valid)] at next
        cases next
  have first := waits 0 positive
  have last := waits (latency - 1) (by omega)
  rw [show g + 1 + (latency - 1) = g + latency by omega] at last
  have phase := served.waits taken (t := g + latency) (by omega) (le_refl _)
  have engine := served.answered taken
  have refused : (ins (g + latency)).gntI = false :=
    served.refused (by simp [phase]) (by simp [phase])
  have word : (ins (g + latency)).rdataI = x.word cell (mem (s + 1)) k := by
    have within := (accepted.inside k at_.within).1
    rw [memory.contents g at_.later first.working taken (by rw [place, at_.src]; exact within),
      place, at_.src, at_.mem]
    rfl
  refine ⟨last.still memory (by simp [writeTaken, refused]) ?_ (by simp [engine]), ?_, ?_⟩
  · rw [engine]
    exact ⟨rfl, rfl, rfl, rfl⟩
  · rw [engine]
  · rw [engine]
    exact word

/-- The word is written, and it was the last one or the next is fetched. -/
theorem AtWord.written {k h : ℕ} (at_ : AtWord cell mem dma x s k h)
    (accepted : Accepted inside dma ins x s) (phase : (dma h).state = .store)
    (grant : (ins h).gntI = true) (buffer : (dma h).dataBuffer = x.word cell (mem (s + 1)) k) :
    AtWord cell mem dma x s (k + 1) (h + 1) ∧ (dma (h + 1)).state = .fetch ∨
      k + 1 = x.words ∧ Moved cell mem dma x s (h + 1) := by
  have served := memory.served
  have engine := (served.next h).trans (step_stored phase grant)
  have written : writeTaken (dma h) (ins h) =
      some (wordAddr x.dst k, x.word cell (mem (s + 1)) k) := by
    cases served.line h with
    | down low => exact absurd (low.symm.trans (served.grants h grant)) Bool.false_ne_true
    | read fetch _ _ => cases fetch.symm.trans phase
    | write _ writes place word =>
        simp [writeTaken, grant, writes, place, word, at_.dst, buffer]
  have low := (at_.working h at_.later (le_refl h)).2
  have stores := memory.stores h at_.later at_.working fun w taken => by
    rw [written, Option.some.injEq] at taken
    rw [← taken]
    exact (accepted.inside k at_.within).2
  have moved : mem (h + 1) = x.copied cell (mem (s + 1)) (k + 1) := by
    rw [stores, written, x.copied_succ, ← at_.mem]
    rfl
  have last := x.last_iff at_.within at_.left
  by_cases done : (dma h).bytesLeft ≤ 4
  · right
    have state : (dma (h + 1)).state = .done := by
      rw [engine]
      exact if_pos done
    refine ⟨last.mp done, Nat.lt_succ_of_lt at_.later, at_.working.succ ⟨?_, ?_⟩, state, ?_⟩
    · rw [state]
      exact Phase.noConfusion
    · rw [engine]
      exact low
    · rw [moved, last.mp done]
  · left
    have more : k + 1 ≠ x.words := fun top => done (last.mpr top)
    have state : (dma (h + 1)).state = .fetch := by
      rw [engine]
      exact if_neg done
    refine ⟨⟨Nat.lt_succ_of_lt at_.later, ?_, at_.working.succ ⟨?_, ?_⟩, ?_, ?_, ?_, moved⟩, state⟩
    · have within := at_.within
      omega
    · rw [state]
      exact Phase.noConfusion
    · rw [engine]
      exact low
    · rw [engine, wordAddr_succ, ← at_.src]
    · rw [engine, wordAddr_succ, ← at_.dst]
    · rw [engine]
      refine (congrArg BitVec.toNat (if_neg done)).trans ?_
      have left := at_.left
      rw [BitVec.not_le, BitVec.lt_def] at done
      rw [BitVec.toNat_sub_of_le (BitVec.le_of_lt done), left]
      simp only [BitVec.reduceToNat]
      omega

/-- The word is stored, sooner or later. -/
theorem AtWord.stored {k t : ℕ} (at_ : AtWord cell mem dma x s k t)
    (accepted : Accepted inside dma ins x s) (phase : (dma t).state = .store)
    (buffer : (dma t).dataBuffer = x.word cell (mem (s + 1)) k) :
    ∃ v, t ≤ v ∧ (AtWord cell mem dma x s (k + 1) v ∧ (dma v).state = .fetch ∨
      k + 1 = x.words ∧ Moved cell mem dma x s v) := by
  have served := memory.served
  obtain ⟨h, later, grant, lasts⟩ := LeadsTo.wait
    (fun u => AtWord cell mem dma x s k u ∧ (dma u).state = .store ∧
      (dma u).dataBuffer = x.word cell (mem (s + 1)) k)
    (fun u => (ins u).gntI = true) ⟨at_, phase, buffer⟩ (by
      rintro u - ⟨at_, phase, buffer⟩ refused
      rw [Bool.not_eq_true] at refused
      have engine := (served.next u).trans (step_store phase refused)
      have state : (dma (u + 1)).state = .store := by rw [engine, phase]
      refine ⟨at_.still memory (by simp [writeTaken, refused]) ?_ (by simp [state]), state, ?_⟩
      · rw [engine]
        exact ⟨rfl, rfl, rfl, rfl⟩
      · rw [engine]
        exact buffer) (by
      intro always
      by_contra never
      push Not at never
      have later := at_.later
      obtain ⟨u, late, grant⟩ := memory.granted (t + 1) (by omega) fun u late => by
        obtain ⟨v, rfl⟩ : ∃ v, u = v + 1 := ⟨u - 1, by omega⟩
        obtain ⟨at_, phase, -⟩ := always v (by omega)
        have refused := Bool.eq_false_iff.mpr (never v (by omega))
        have engine := (served.next v).trans (step_store phase refused)
        have within := (accepted.inside k at_.within).2
        rw [← at_.dst] at within
        refine ⟨(always (v + 1) (by omega)).1.working, ?_, ?_⟩
        · rw [engine]
        · rw [engine]
          exact within
      exact never u (by omega) grant)
  obtain ⟨at_, phase, buffer⟩ := lasts h later (le_refl h)
  exact ⟨h + 1, by omega, at_.written memory accepted phase grant buffer⟩

/-- From each word the engine gets to the next, and from the last to the end. -/
theorem AtWord.next {k t : ℕ} (at_ : AtWord cell mem dma x s k t)
    (accepted : Accepted inside dma ins x s) (phase : (dma t).state = .fetch) :
    ∃ v, t ≤ v ∧ (AtWord cell mem dma x s (k + 1) v ∧ (dma v).state = .fetch ∨
      k + 1 = x.words ∧ Moved cell mem dma x s v) := by
  obtain ⟨g, later, fetching, taken⟩ := at_.fetched memory accepted phase
  obtain ⟨storing, store, buffer⟩ := fetching.answered memory accepted taken
  obtain ⟨v, after, next⟩ := storing.stored memory accepted store buffer
  exact ⟨v, by omega, next⟩

/-- A start begins at word 0. -/
theorem OnMemory.begins (accepted : Accepted inside dma ins x s) :
    AtWord cell mem dma x s 0 (s + 1) ∧ (dma (s + 1)).state = .fetch := by
  have engine := (memory.served.next s).trans (step_accepts accepted.accepts)
  have state : (dma (s + 1)).state = .fetch := by rw [engine]
  refine ⟨⟨Nat.lt_succ_self s, ?_, ?_, ?_, ?_, ?_, rfl⟩, state⟩
  · exact lt_of_lt_of_le Nat.zero_lt_one (le_max_left 1 _)
  · intro u low high
    obtain rfl : u = s + 1 := by omega
    rw [engine]
    exact ⟨Phase.noConfusion, rfl⟩
  · rw [engine, wordAddr_zero]
    exact accepted.src
  · rw [engine, wordAddr_zero]
    exact accepted.dst
  · rw [engine]
    exact congrArg BitVec.toNat accepted.length

/-- **A transfer is carried out.**  After an accepted start the engine works until it signals
the end, and memory is then what the forward copy makes of the memory of the start. -/
theorem OnMemory.transfer (accepted : Accepted inside dma ins x s) :
    ∃ d, s < d ∧ Working dma s d ∧ (dma (d + 1)).state = .idle ∧ (dma (d + 1)).doneO = true ∧
      mem (d + 1) = x.copied cell (mem (s + 1)) x.words := by
  obtain ⟨start, fetch⟩ := memory.begins accepted
  have positive := start.within
  obtain ⟨t, -, rung⟩ := LeadsTo.climb
    (fun k t => k < x.words ∧ AtWord cell mem dma x s k t ∧ (dma t).state = .fetch ∨
      k = x.words ∧ Moved cell mem dma x s t)
    (n := x.words) (.inl ⟨positive, start, fetch⟩) (by
      rintro k u within - (⟨-, at_, phase⟩ | ⟨top, -⟩)
      · obtain ⟨v, later, ⟨next, fetch⟩ | ⟨top, moved⟩⟩ := at_.next memory accepted phase
        · exact ⟨v, later, .inl ⟨next.within, next, fetch⟩⟩
        · exact ⟨v, later, .inr ⟨top, moved⟩⟩
      · omega)
  obtain ⟨beyond, -⟩ | ⟨-, moved⟩ := rung
  · exact absurd beyond (lt_irrefl _)
  have served := memory.served
  have engine := (served.next t).trans (step_done moved.phase)
  have refused : (ins t).gntI = false :=
    served.refused (by simp [moved.phase]) (by simp [moved.phase])
  have silent : writeTaken (dma t) (ins t) = none := by simp [writeTaken, refused]
  have still := memory.stores t moved.later moved.working (by simp [silent])
  rw [silent] at still
  refine ⟨t, moved.later, moved.working, ?_, ?_, still.trans moved.mem⟩
  · rw [engine]
  · rw [engine]

end Transfers

end MiniMac.Core.DmaMaster
