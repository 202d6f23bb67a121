/-
# Core.CopyPort -- the copy engine on a path of fixed latency

The engine's port in a run of its own: grants come when they like, and every granted
read is answered a fixed number of cycles later.  The engine has one read open at most,
so the answer it takes is that of its last read (`PortStage`).
-/
import MiniMac.Core.DmaMaster
import MiniMac.Theory.InOrder

namespace MiniMac.Core.DmaMaster

open MiniMac.Theory MiniMac.Theory.InOrder

set_option autoImplicit false

/-- A read is granted. -/
def readTaken (s : State) (i : Inputs) : Bool := i.gntI && !s.weO

/-- The engine runs on a path that grants what it asks for and answers every granted read
`latency` cycles after its grant. -/
structure Served (latency : ℕ) (dma : ℕ → State) (ins : ℕ → Inputs) : Prop where
  positive : 0 < latency
  next : ∀ t, dma (t + 1) = step (dma t) (ins t)
  grants : ∀ t, (ins t).gntI = true → (dma t).reqO = true
  answers : Delayed latency (fun t => readTaken (dma t) (ins t)) fun t => (ins t).rvalidI
  idle : (dma 0).state = .idle
  down : (dma 0).reqO = false

/-- What the request line can carry in each phase. -/
inductive Line (s : State) : Prop
  | down (low : s.reqO = false)
  | read (phase : s.state = .fetch) (reads : s.weO = false) (place : s.addrO = s.currSrc)
  | write (phase : s.state = .store) (writes : s.weO = true) (place : s.addrO = s.currDst)
      (word : s.wdataO = s.dataBuffer)

/-- Only the fetch and the store put a request up. -/
theorem Line.low {s : State} (line : Line s) (notFetch : s.state ≠ .fetch)
    (notStore : s.state ≠ .store) : s.reqO = false := by
  cases line with
  | down low => exact low
  | read phase _ _ => exact absurd phase notFetch
  | write phase _ _ _ => exact absurd phase notStore

theorem Line.step {s : State} (line : Line s) (i : Inputs) : Line (step s i) := by
  cases phase : s.state with
  | idle =>
      have low := line.low (by simp [phase]) (by simp [phase])
      cases accepted : accepts s i with
      | true => exact .down (by rw [step_accepts accepted]; exact low)
      | false => exact .down ((step_idle phase accepted).2.1.trans low)
  | fetch =>
      rw [step_fetch phase]
      cases grant : i.gntI with
      | true => exact .down rfl
      | false => exact .read rfl rfl rfl
  | waitR =>
      have low := line.low (by simp [phase]) (by simp [phase])
      cases valid : i.rvalidI with
      | true => exact .down (by rw [step_response phase valid]; exact low)
      | false => exact .down (by rw [step_waitR phase valid]; exact low)
  | store =>
      cases grant : i.gntI with
      | true => exact .down (by rw [step_stored phase grant])
      | false =>
          rw [step_store phase grant]
          exact .write phase rfl rfl rfl
  | done =>
      have low := line.low (by simp [phase]) (by simp [phase])
      exact .down (by rw [step_done phase]; exact low)

/-! ## The open read -/

section Port

variable {latency : ℕ} {dma : ℕ → State} {ins : ℕ → Inputs}

/-- The reads granted before cycle `t` are answered before it, or there is one that the
engine waits for. -/
inductive PortStage (latency : ℕ) (dma : ℕ → State) (ins : ℕ → Inputs) (t : ℕ) : Prop
  | closed (phase : (dma t).state ≠ .waitR)
      (answered : ∀ g < t, readTaken (dma g) (ins g) = true → g + latency < t)
  | waiting (g : ℕ) (phase : (dma t).state = .waitR)
      (taken : readTaken (dma g) (ins g) = true) (later : g < t) (within : t ≤ g + latency)
      (only : ∀ u < t, readTaken (dma u) (ins u) = true → u + latency < t ∨ u = g)

namespace Served

variable (served : Served latency dma ins)

include served

theorem line (t : ℕ) : Line (dma t) := by
  induction t with
  | zero => exact .down served.down
  | succ t ih =>
      rw [served.next]
      exact ih.step (ins t)

/-- Nothing is granted but in the fetch and the store. -/
theorem refused {t : ℕ} (notFetch : (dma t).state ≠ .fetch) (notStore : (dma t).state ≠ .store) :
    (ins t).gntI = false := by
  have low := (served.line t).low notFetch notStore
  by_contra grant
  rw [served.grants t (Bool.eq_true_of_not_eq_false grant)] at low
  cases low

/-- A granted read is one of the fetch. -/
theorem fetches {t : ℕ} (taken : readTaken (dma t) (ins t) = true) :
    (dma t).state = .fetch ∧ (ins t).gntI = true ∧ (dma t).addrO = (dma t).currSrc := by
  obtain ⟨grant, reads⟩ := Bool.and_eq_true_iff.mp taken
  have up := served.grants t grant
  cases served.line t with
  | down low => exact absurd (low.symm.trans up) Bool.false_ne_true
  | read phase _ place => exact ⟨phase, grant, place⟩
  | write _ writes _ _ => simp [writes] at reads

/-- What the engine waits for is the answer to its read. -/
theorem rvalid_iff {t g : ℕ} (taken : readTaken (dma g) (ins g) = true)
    (only : ∀ u < t, readTaken (dma u) (ins u) = true → u + latency < t ∨ u = g) :
    (ins t).rvalidI = true ↔ t = g + latency := by
  have positive := served.positive
  constructor
  · intro valid
    obtain ⟨u, rfl, read⟩ := served.answers.request valid
    rcases only u (by omega) read with early | rfl
    · omega
    · rfl
  · rintro rfl
    exact (served.answers.delayed g).trans taken

/-- Without a read granted no wait begins. -/
theorem notWaiting {t : ℕ} (phase : (dma t).state ≠ .waitR)
    (notTaken : readTaken (dma t) (ins t) = false) : (dma (t + 1)).state ≠ .waitR := by
  rw [served.next]
  cases now : (dma t).state with
  | idle =>
      cases accepted : accepts (dma t) (ins t) with
      | true => simp [step_accepts accepted]
      | false => simp [(step_idle now accepted).1]
  | fetch =>
      rw [step_fetch now]
      cases grant : (ins t).gntI with
      | false => simp
      | true =>
          have up := served.grants t grant
          cases served.line t with
          | down low => exact absurd (low.symm.trans up) Bool.false_ne_true
          | read _ reads _ => simp [readTaken, grant, reads] at notTaken
          | write store _ _ _ => cases store.symm.trans now
  | waitR => exact absurd now phase
  | store =>
      cases grant : (ins t).gntI with
      | true =>
          rw [step_stored now grant]
          dsimp only
          split <;> simp
      | false => simp [step_store now grant, now]
  | done => simp [step_done now]

theorem stage (t : ℕ) : PortStage latency dma ins t := by
  have positive := served.positive
  induction t with
  | zero =>
      refine .closed ?_ fun g before => absurd before (Nat.not_lt_zero g)
      rw [served.idle]
      decide
  | succ t ih =>
      cases ih with
      | closed phase answered =>
          cases taken : readTaken (dma t) (ins t) with
          | true =>
              obtain ⟨fetch, grant, -⟩ := served.fetches taken
              refine .waiting t ?_ taken (Nat.lt_succ_self t) (by omega) fun u before read => ?_
              · rw [served.next, step_fetch fetch, grant]
                rfl
              · rcases Nat.lt_succ_iff_lt_or_eq.mp before with earlier | same
                · exact .inl (Nat.lt_succ_of_lt (answered u earlier read))
                · exact .inr same
          | false =>
              refine .closed ?_ fun g before read => ?_
              · exact served.notWaiting phase taken
              · rcases Nat.lt_succ_iff_lt_or_eq.mp before with earlier | rfl
                · exact Nat.lt_succ_of_lt (answered g earlier read)
                · rw [taken] at read
                  cases read
      | waiting g phase taken later within only =>
          have rvalid := served.rvalid_iff taken only
          have notTaken : readTaken (dma t) (ins t) = false := by
            by_contra read
            have fetch := (served.fetches (Bool.eq_true_of_not_eq_false read)).1
            cases fetch.symm.trans phase
          have before (u : ℕ) (low : u < t + 1) (read : readTaken (dma u) (ins u) = true) :
              u + latency < t ∨ u = g := by
            rcases Nat.lt_succ_iff_lt_or_eq.mp low with earlier | rfl
            · exact only u earlier read
            · rw [notTaken] at read
              cases read
          cases valid : (ins t).rvalidI with
          | true =>
              obtain rfl := rvalid.mp valid
              refine .closed ?_ fun u low read => ?_
              · rw [served.next, step_response phase valid]
                exact Phase.noConfusion
              · rcases before u low read with early | rfl
                · omega
                · omega
          | false =>
              have notYet : t ≠ g + latency := fun now => by
                rw [rvalid.mpr now] at valid
                cases valid
              refine .waiting g ?_ taken (by omega) (by omega) fun u low read => ?_
              · rw [served.next, step_waitR phase valid]
                exact phase
              · rcases before u low read with early | same
                · exact .inl (Nat.lt_succ_of_lt early)
                · exact .inr same

/-- After a granted read the engine waits, until the answer comes. -/
theorem waits {g : ℕ} (taken : readTaken (dma g) (ins g) = true) {t : ℕ} (later : g < t) :
    t ≤ g + latency → (dma t).state = .waitR := by
  induction t, later using Nat.le_induction with
  | base =>
      intro _
      obtain ⟨fetch, grant, -⟩ := served.fetches taken
      rw [Nat.succ_eq_add_one, served.next, step_fetch fetch, grant]
      rfl
  | succ t later ih =>
      intro within
      have phase := ih (by omega)
      have silent : (ins t).rvalidI = false := by
        cases served.stage t with
        | closed phase' _ => exact absurd phase phase'
        | waiting g' _ taken' _ _ only =>
            rcases only g later taken with early | rfl
            · omega
            · by_contra valid
              have now := (served.rvalid_iff taken' only).mp (by simpa using valid)
              omega
      rw [served.next, step_waitR phase silent]
      exact phase

/-- The answer is taken up with the phase that stores it. -/
theorem answered {g : ℕ} (taken : readTaken (dma g) (ins g) = true) :
    dma (g + latency + 1) =
      { dma (g + latency) with
        dataBuffer := (ins (g + latency)).rdataI
        state := .store } := by
  have positive := served.positive
  have phase := served.waits taken (t := g + latency) (by omega) (le_refl _)
  rw [served.next, step_response phase ((served.answers.delayed g).trans taken)]

end Served

end Port

end MiniMac.Core.DmaMaster
