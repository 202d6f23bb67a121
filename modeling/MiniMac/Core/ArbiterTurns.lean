/-
# Core.ArbiterTurns -- the engines take turns

The turn register remembers which client the latest grant went to, whatever was
asked, withdrawn or held back in between.  A client that is granted while the other
one asks was therefore not the latest to be granted, and the first of such grants
from reset goes to the copy engine.

The grants of the clients follow `mem_gnt_i` alone, but the turn passes only where the
port asks too.  So this is a promise to a memory that grants nothing that was not asked
for (`clients_alternate`); with another memory a client whose reads are held back is
granted again and again (`heldBack_not_alternates`).
-/
import MiniMac.Core.ReadOwners
import MiniMac.Theory.Latest

namespace MiniMac.Core.DmaArbiter

open MiniMac.Theory

set_option autoImplicit false

/-- The client a client contends with. -/
def Client.other : Client → Client
  | .stream => .copy
  | .copy => .stream

@[simp] theorem Client.other_other (c : Client) : c.other.other = c := by
  cases c <;> rfl

variable (ins : ℕ → Inputs)

def asks (t : ℕ) (c : Client) : Bool := (ins t).req c

/-- The client the turn points at. -/
def turn (t : ℕ) : Client := client (after ins t).nextStreamQ

/-- The grant of a client is up. -/
def granted (t : ℕ) (c : Client) : Bool := gnt (after ins t) (ins t) c

def anyGranted (t : ℕ) : Bool := granted ins t .stream || granted ins t .copy

/-- Memory grants only what the port asks for. -/
def GrantsAsked : Prop :=
  ∀ t, (ins t).memGntI = true → memReqO (after ins t) (ins t) = true

/-- What the turns promise to two clients. -/
structure Alternates : Prop where
  /-- A contended grant does not go to the client that was granted last. -/
  turn : ∀ t u c, granted ins t c = true → asks ins t c.other = true →
    Latest (anyGranted ins) t u → granted ins u c.other = true
  /-- A contended grant before all others goes to the copy engine. -/
  first : ∀ t c, granted ins t c = true → asks ins t c.other = true →
    (∀ u < t, anyGranted ins u = false) → c = .copy
  /-- A client that keeps asking is passed over once. -/
  once : ∀ a b c, (∀ t, a ≤ t → t < b → asks ins t c = true ∧ granted ins t c = false) →
    ∀ t t', a ≤ t → t < t' → t' < b → granted ins t c.other = true →
      granted ins t' c.other = false

section Turns

variable {ins}

/-- A granted client asks. -/
theorem asks_of_granted {t : ℕ} {c : Client} (grant : granted ins t c = true) :
    asks ins t c = true := req_of_gnt grant

theorem anyGranted_iff (t : ℕ) : anyGranted ins t = true ↔ ∃ c, granted ins t c = true := by
  rw [anyGranted, Bool.or_eq_true]
  constructor
  · rintro (stream | copy)
    · exact ⟨.stream, stream⟩
    · exact ⟨.copy, copy⟩
  · rintro ⟨c, grant⟩
    cases c with
    | stream => exact .inl grant
    | copy => exact .inr grant

theorem client_not (isStream : Bool) : client (!isStream) = (client isStream).other := by
  cases isStream <;> rfl

/-- Where both clients ask the turn decides. -/
theorem selected_contended {t : ℕ} {c : Client} (here : asks ins t c = true)
    (there : asks ins t c.other = true) :
    selected (after ins t) (ins t) = turn ins t := by
  have both : (ins t).streamReqI = true ∧ (ins t).copyReqI = true := by
    cases c with
    | stream => exact ⟨here, there⟩
    | copy => exact ⟨there, here⟩
  rw [selected, selectStream, both.1, both.2]
  rfl

variable (asked : GrantsAsked ins)

include asked

theorem granted_iff (t : ℕ) (c : Client) : granted ins t c = true ↔
    (ins t).memGntI = true ∧ c = selected (after ins t) (ins t) := by
  cases grant : (ins t).memGntI with
  | false => simp [granted, gnt_of_refused grant]
  | true =>
      rw [granted, gnt_iff (asked t grant), grant]

/-- A grant of memory reaches a client. -/
theorem anyGranted_eq (t : ℕ) : anyGranted ins t = (ins t).memGntI := by
  rw [Bool.eq_iff_iff, anyGranted_iff]
  constructor
  · rintro ⟨c, grant⟩
    exact ((granted_iff asked t c).mp grant).1
  · intro grant
    exact ⟨_, (granted_iff asked t _).mpr ⟨grant, rfl⟩⟩

theorem turn_succ (t : ℕ) :
    turn ins (t + 1) =
      if anyGranted ins t then (selected (after ins t) (ins t)).other else turn ins t := by
  have next : (after ins (t + 1)).nextStreamQ =
      if memReqO (after ins t) (ins t) && (ins t).memGntI then
        !selectStream (after ins t) (ins t) else (after ins t).nextStreamQ :=
    step_nextStreamQ _ _
  rw [turn, next, anyGranted_eq asked]
  cases grant : (ins t).memGntI with
  | false =>
      rw [Bool.and_false]
      rfl
  | true =>
      rw [asked t grant]
      exact client_not _

/-- A contended grant goes where the turn points. -/
theorem turn_of_granted {t : ℕ} {c : Client} (grant : granted ins t c = true)
    (contended : asks ins t c.other = true) : c = turn ins t :=
  ((granted_iff asked t c).mp grant).2.trans
    (selected_contended (asks_of_granted grant) contended)

/-- The turn points away from the client granted last. -/
theorem granted_other_turn {t u : ℕ} (latest : Latest (anyGranted ins) t u) :
    granted ins u (turn ins t).other = true := by
  have loaded : turn ins t = (selected (after ins u) (ins u)).other :=
    register_latest (turn_succ asked) latest
  have grant := latest.happens
  rw [anyGranted_eq asked] at grant
  rw [granted_iff asked, loaded, Client.other_other]
  exact ⟨grant, rfl⟩

end Turns

/-! ## A memory that grants what nobody asks for -/

/-- Both clients read, memory grants in every cycle and answers in none. -/
def heldBack (_ : ℕ) : Inputs where
  streamReqI := true
  streamAddrI := 0x10000000
  streamWeI := false
  streamWdataI := 0
  copyReqI := true
  copyAddrI := 0x10000040
  copyWeI := false
  copyWdataI := 0
  memGntI := true
  memRvalidI := false

/-- The copy engine is granted in cycle 2 and again in cycle 3. -/
theorem heldBack_not_alternates : ¬ Alternates heldBack := by
  intro alternates
  have latest : Latest (anyGranted heldBack) 3 2 := Latest.succ rfl
  have stream := alternates.turn 3 2 .copy rfl rfl latest
  exact absurd stream (by decide)

/-! ## A memory that grants what is asked for -/

/-- **The clients take turns**, whatever they ask for and whenever memory grants it. -/
theorem clients_alternate (asked : GrantsAsked ins) : Alternates ins where
  turn t u c grant contended latest := by
    rw [turn_of_granted asked grant contended]
    exact granted_other_turn asked latest
  first t c grant contended quiet :=
    (turn_of_granted asked grant contended).trans (register_start (turn_succ asked) quiet)
  once a b c waits t t' low order high grant := by
    by_contra again
    rw [Bool.not_eq_false] at again
    obtain ⟨u, later, latest⟩ := Latest.exists_ge ((anyGranted_iff t).mpr ⟨_, grant⟩) order
    have before := latest.before
    have contended : asks ins t' c.other.other = true := by
      rw [Client.other_other]
      exact (waits t' (by omega) high).1
    have mine : granted ins u c.other.other = true := by
      rw [turn_of_granted asked again contended]
      exact granted_other_turn asked latest
    rw [Client.other_other] at mine
    exact absurd ((waits u (by omega) (by omega)).2.symm.trans mine) (by decide)

/-- The stream engine reads and the copy engine writes.  Memory grants in every cycle and
answers in every other one. -/
def shared (t : ℕ) : Inputs where
  streamReqI := true
  streamAddrI := 0x10000000
  streamWeI := false
  streamWdataI := 0
  copyReqI := true
  copyAddrI := 0x10000040
  copyWeI := true
  copyWdataI := 1
  memGntI := true
  memRvalidI := decide (t ≠ 0 ∧ t % 2 = 0)

/-- The stream engine has the odd cycles, and its read is open in the next one. -/
theorem shared_state (t : ℕ) : (after shared t).nextStreamQ = decide (t % 2 = 1) ∧
    (after shared t).readOwnerCountQ = if (shared t).memRvalidI then 1 else 0 := by
  induction t with
  | zero => exact ⟨rfl, rfl⟩
  | succ t ih =>
      obtain ⟨turn, count⟩ := ih
      have next : after shared (t + 1) = step (after shared t) (shared t) := rfl
      by_cases odd : t % 2 = 1
      · have silent : (shared t).memRvalidI = false := decide_eq_false (by omega)
        have answers : (shared (t + 1)).memRvalidI = true := decide_eq_true (by omega)
        have even : ¬ (t + 1) % 2 = 1 := by omega
        rw [decide_eq_true odd] at turn
        rw [silent] at count
        rw [next]
        simp [step, ownerQueue, readPush, readPop, memReqO, memWeO, selectedWe, selectStream, turn,
          count, silent, answers, even]
        simp [shared]
      · have silent : (shared (t + 1)).memRvalidI = false := decide_eq_false (by omega)
        have even : (t + 1) % 2 = 1 := by omega
        rw [decide_eq_false odd] at turn
        rw [next]
        cases answer : (shared t).memRvalidI <;> rw [answer] at count <;>
          simp [step, ownerQueue, readPush, readPop, memReqO, memWeO, selectedWe, selectStream,
            turn, count, answer, silent, even] <;> simp [shared]

theorem shared_asked : GrantsAsked shared := by
  intro t _
  have count : ((after shared t).readOwnerCountQ == 2) = false := by
    rw [(shared_state t).2]
    split
    · rfl
    · rfl
  rw [memReqO, count]
  rfl

/-- Its clients alternate, reads and writes together. -/
theorem shared_alternates : Alternates shared := clients_alternate shared shared_asked

end MiniMac.Core.DmaArbiter
