/-
# Core.ReadOwners -- every read response goes to the client that asked

Memory grants only what is requested and answers granted reads in order, each in
a later cycle of its choice (`Memory`).  The owner queue is then a queue in time
of the clients whose reads were granted, so the response at position `k` raises
`rvalid` of the client of the `k`-th granted read and of nobody else.
-/
import MiniMac.Core.DmaArbiter
import MiniMac.Theory.Fifo

namespace MiniMac.Core.DmaArbiter

open MiniMac.Theory

set_option autoImplicit false

/-- The client whose read is granted in the cycle, as its grant output tells it. -/
def readGrant (s : State) (i : Inputs) : Option Client :=
  if gnt s i .stream && !i.we .stream then some .stream
  else if gnt s i .copy && !i.we .copy then some .copy
  else none

section Runs

variable (ins : ℕ → Inputs)

/-- The arbiter after `t` cycles from reset. -/
def after (t : ℕ) : State := Clocked.run step reset ins t

/-- The clients of the reads granted before cycle `t`, in grant order. -/
def readGrants (t : ℕ) : List Client :=
  Clocked.window (fun u => readGrant (after ins u) (ins u)) 0 t

/-- The read responses of memory before cycle `t`. -/
def responses (t : ℕ) : ℕ :=
  (Clocked.window (fun u => if (ins u).memRvalidI then some () else none) 0 t).length

/-- Memory grants requests only, and answers one granted read at a time. -/
structure Memory : Prop where
  grants : ∀ t, (ins t).memGntI = true → memReqO (after ins t) (ins t) = true
  answers : ∀ t, (ins t).memRvalidI = true → responses ins t < (readGrants ins t).length

variable {ins}

/-- The queue takes in the clients of the granted reads. -/
theorem readGrant_eq {s : State} {i : Inputs} (grants : i.memGntI = true → memReqO s i = true) :
    readGrant s i = entering s i := by
  unfold readGrant entering
  cases grant : i.memGntI with
  | false =>
      have push : readPush s i = false := by simp [readPush, grant]
      rw [gnt_of_refused grant, gnt_of_refused grant, push]
      rfl
  | true =>
      have asks := grants grant
      have we : memWeO s i = i.we (selected s i) := (port_eq s i).2.1
      have push : readPush s i = !i.we (selected s i) := by
        rw [readPush, asks, grant, we]
        rfl
      rw [push]
      cases select : selected s i with
      | stream =>
          have stream := (gnt_iff asks .stream).mpr ⟨grant, select.symm⟩
          have copy : gnt s i .copy = false := by
            by_contra other
            have := ((gnt_iff asks .copy).mp (by simpa using other)).2
            simp [select] at this
          simp [stream, copy]
      | copy =>
          have copy := (gnt_iff asks .copy).mpr ⟨grant, select.symm⟩
          have stream : gnt s i .stream = false := by
            by_contra other
            have := ((gnt_iff asks .stream).mp (by simpa using other)).2
            simp [select] at this
          simp [stream, copy]

/-- A cycle grants a read when memory grants and the port does not write. -/
theorem readGrant_isSome {s : State} {i : Inputs}
    (grants : i.memGntI = true → memReqO s i = true) :
    (readGrant s i).isSome = (i.memGntI && !memWeO s i) := by
  have push : readPush s i = (i.memGntI && !memWeO s i) := by
    rw [readPush]
    cases grant : i.memGntI with
    | false => rw [Bool.and_false]
    | true => rw [grants grant, Bool.and_true]
  rw [readGrant_eq grants, entering, push]
  cases i.memGntI && !memWeO s i <;> rfl

/-- The counter in range, and as many owners as there are open reads. -/
structure Accounts (ins : ℕ → Inputs) (t : ℕ) : Prop where
  range : CountInRange (after ins t)
  opened : (readGrants ins t).length = responses ins t + (owners (after ins t)).length

theorem Accounts.answered {t : ℕ} (accounts : Accounts ins t) (memory : Memory ins)
    (answer : (ins t).memRvalidI = true) : owners (after ins t) ≠ [] := by
  have fewer := memory.answers t answer
  have := accounts.opened
  intro none
  rw [none, List.length_nil] at this
  omega

theorem responses_succ (t : ℕ) :
    responses ins (t + 1) = responses ins t + if (ins t).memRvalidI then 1 else 0 := by
  unfold responses
  rw [Clocked.window_succ, List.length_append, Nat.zero_add]
  cases (ins t).memRvalidI <;> rfl

theorem readGrants_succ (memory : Memory ins) (t : ℕ) :
    readGrants ins (t + 1) = readGrants ins t ++ (entering (after ins t) (ins t)).toList := by
  rw [readGrants, Clocked.window_succ, Nat.zero_add, readGrant_eq (memory.grants t)]
  rfl

theorem Accounts.next {t : ℕ} (accounts : Accounts ins t) (memory : Memory ins) :
    Accounts ins (t + 1) := by
  obtain ⟨range, rest, before, behind⟩ := step_owners accounts.range (accounts.answered memory)
  refine ⟨range, ?_⟩
  have left : (leaving (after ins t) (ins t)).toList.length =
      if (ins t).memRvalidI then 1 else 0 := by
    unfold leaving readPop
    cases answer : (ins t).memRvalidI with
    | false => rfl
    | true =>
        obtain ⟨c, others, queue⟩ := List.exists_cons_of_ne_nil (accounts.answered memory answer)
        rw [queue]
        rfl
  have opened := accounts.opened
  rw [before, List.length_append, left] at opened
  have queue : owners (after ins (t + 1)) = rest ++ (entering (after ins t) (ins t)).toList :=
    behind
  rw [readGrants_succ memory, responses_succ, queue, List.length_append, List.length_append]
  omega

theorem Memory.accounts (memory : Memory ins) (t : ℕ) : Accounts ins t := by
  induction t with
  | zero => exact ⟨by simp [CountInRange, after, reset], rfl⟩
  | succ t ih => exact ih.next memory

/-- The owner queue holds the clients of the granted reads that are still open. -/
theorem Memory.fifo (memory : Memory ins) :
    Fifo (fun t => readGrant (after ins t) (ins t)) (fun t => leaving (after ins t) (ins t))
      fun t => owners (after ins t) := by
  refine ⟨rfl, ?_⟩
  intro t
  have accounts := memory.accounts t
  obtain ⟨-, queue⟩ := step_owners accounts.range (accounts.answered memory)
  rw [readGrant_eq (memory.grants t)]
  exact queue

/-- As many owners have left as responses have come. -/
theorem Memory.left_length (memory : Memory ins) (t : ℕ) :
    (Clocked.window (fun u => leaving (after ins u) (ins u)) 0 t).length = responses ins t := by
  have conserved := memory.fifo.length_eq t
  have opened := (memory.accounts t).opened
  rw [readGrants] at opened
  omega

/-- A response raises `rvalid` of the client at its position, and of no other. -/
theorem Memory.rvalid_iff (memory : Memory ins) {t : ℕ} (answer : (ins t).memRvalidI = true) :
    ∃ c, (readGrants ins t)[responses ins t]? = some c ∧
      ∀ c', rvalid (after ins t) (ins t) c' = true ↔ c' = c := by
  have accounts := memory.accounts t
  obtain ⟨c, others, queue⟩ := List.exists_cons_of_ne_nil (accounts.answered memory answer)
  have left : leaving (after ins t) (ins t) = some c := by
    rw [leaving, readPop, answer, if_pos rfl, queue]
    rfl
  refine ⟨c, ?_, ?_⟩
  · rw [← memory.left_length t]
    exact memory.fifo.left_eq left
  · intro c'
    rw [DmaArbiter.rvalid_iff accounts.range, left, Option.some.injEq]
    exact eq_comm

/-- Without a response no client sees one. -/
theorem rvalid_of_silent {s : State} {i : Inputs} (silent : i.memRvalidI = false) (c : Client) :
    rvalid s i c = false := by
  cases c <;> simp [rvalid, streamRvalidO, copyRvalidO, silent]

end Runs

section Latency

open InOrder

variable {ins : ℕ → Inputs} {latency : ℕ}

/-- A client's read is granted exactly if it is granted and does not write. -/
theorem readGrant_iff {s : State} {i : Inputs} (c : Client) :
    readGrant s i = some c ↔ gnt s i c = true ∧ i.we c = false := by
  have apart : gnt s i .stream = true → gnt s i .copy = false := by
    simp only [gnt, streamGntO, copyGntO, Bool.and_eq_true, and_imp]
    intro grant select
    rw [grant, select]
    rfl
  unfold readGrant
  cases stream : gnt s i .stream <;> cases c <;> simp_all

/-- A memory that answers every granted read a fixed number of cycles after its grant. -/
structure FixedLatency (latency : ℕ) (ins : ℕ → Inputs) : Prop where
  positive : 0 < latency
  grants : ∀ t, (ins t).memGntI = true → memReqO (after ins t) (ins t) = true
  path : Delayed latency (fun t => (readGrant (after ins t) (ins t)).isSome)
    fun t => (ins t).memRvalidI

namespace FixedLatency

variable (fixed : FixedLatency latency ins)

include fixed

/-- The reads granted up to a latency ago are answered. -/
theorem responses_eq (s : ℕ) : responses ins (s + latency) =
    events (fun t => (readGrant (after ins t) (ins t)).isSome) s := by
  rw [← fixed.path.events_eq, responses, window_length]
  congr 1
  funext u
  cases (ins u).memRvalidI <;> rfl

theorem memory : Memory ins where
  grants := fixed.grants
  answers := by
    intro t answer
    obtain ⟨s, rfl, granted⟩ := fixed.path.request answer
    rw [fixed.responses_eq, readGrants, window_length]
    exact Nat.count_strict_mono granted (Nat.lt_add_of_pos_right fixed.positive)

/-- With no read granted for the time of an answer the queue is empty. -/
theorem owners_nil {t : ℕ}
    (quiet : ∀ u, t ≤ u → u < t + latency → readGrant (after ins u) (ins u) = none) :
    owners (after ins (t + latency)) = [] := by
  have opened := (fixed.memory.accounts (t + latency)).opened
  have silent := events_quiet (b := fun u => (readGrant (after ins u) (ins u)).isSome) (t := t)
    (n := latency) fun u low high => by simp [quiet u low high]
  rw [fixed.responses_eq, readGrants, window_length, silent] at opened
  exact List.eq_nil_of_length_eq_zero (by omega)

/-- **The owner queue is a delay line**: every owner leaves with its answer. -/
theorem leaving_eq (t : ℕ) :
    leaving (after ins (t + latency)) (ins (t + latency)) = readGrant (after ins t) (ins t) := by
  have head (u : ℕ) : leaving (after ins u) (ins u) =
      if (ins u).memRvalidI then (owners (after ins u)).head? else none := rfl
  exact fixed.memory.fifo.delay head fixed.positive fixed.path t

/-- Each client has its answers a fixed number of cycles after its own grants. -/
theorem client_path (c : Client) :
    Delayed latency
      (fun t => gnt (after ins t) (ins t) c && !(ins t).we c)
      fun t => rvalid (after ins t) (ins t) c where
  early := by
    intro t soon
    exact rvalid_of_silent (fixed.path.early t soon) c
  delayed := by
    intro t
    have range := (fixed.memory.accounts (t + latency)).range
    rw [Bool.eq_iff_iff, rvalid_iff range, fixed.leaving_eq, readGrant_iff, Bool.and_eq_true,
      Bool.not_eq_true']

end FixedLatency

end Latency

/-- **Every response goes to the client that asked**: to the client of the read
granted in its position and to no other; the counter is the number of unanswered
reads, at most two; and a grant goes to the client whose access memory sees. -/
theorem responses_routed (ins : ℕ → Inputs) (memory : Memory ins) :
    (∀ t, (ins t).memRvalidI = true →
      ∃ c, (readGrants ins t)[responses ins t]? = some c ∧
        ∀ c', rvalid (after ins t) (ins t) c' = true ↔ c' = c) ∧
    (∀ t, (ins t).memRvalidI = false → ∀ c, rvalid (after ins t) (ins t) c = false) ∧
    (∀ t, (readGrants ins t).length = responses ins t + (after ins t).readOwnerCountQ.toNat ∧
      (after ins t).readOwnerCountQ.toNat ≤ 2) ∧
    (∀ t, (ins t).memGntI = true →
      ∃ c, (∀ c', gnt (after ins t) (ins t) c' = true ↔ c' = c) ∧ (ins t).req c = true ∧
        memAddrO (after ins t) (ins t) = (ins t).addr c ∧
        memWeO (after ins t) (ins t) = (ins t).we c ∧
        memWdataO (after ins t) (ins t) = (ins t).wdata c) ∧
    ∀ t, (ins t).memGntI = false → ∀ c, gnt (after ins t) (ins t) c = false := by
  refine ⟨?_, ?_, ?_, ?_, ?_⟩
  · intro t answer
    exact memory.rvalid_iff answer
  · intro t silent
    exact rvalid_of_silent silent
  · intro t
    have accounts := memory.accounts t
    rw [← owners_length accounts.range]
    refine ⟨accounts.opened, ?_⟩
    rw [owners_length accounts.range]
    exact accounts.range
  · intro t grant
    have asks := memory.grants t grant
    refine ⟨selected (after ins t) (ins t), ?_, selected_asks asks, port_eq _ _⟩
    intro c'
    rw [gnt_iff asks]
    exact and_iff_right grant
  · intro t refused
    exact gnt_of_refused refused

/-- Both clients read in the first cycles and are answered from cycle two on. -/
def overlapping (t : ℕ) : Inputs where
  streamReqI := decide (t < 2)
  streamAddrI := 0x10001000
  streamWeI := false
  streamWdataI := 0
  copyReqI := decide (t = 0)
  copyAddrI := 0x10000000
  copyWeI := false
  copyWdataI := 0
  memGntI := decide (t < 2)
  memRvalidI := decide (t = 2 ∨ t = 3)

theorem overlapping_memory : Memory overlapping := by
  constructor
  · intro t grant
    have early : t < 2 := by simpa [overlapping] using grant
    obtain rfl | rfl : t = 0 ∨ t = 1 := by omega
    · decide
    · decide
  · intro t answer
    have late : t = 2 ∨ t = 3 := by simpa [overlapping] using answer
    rcases late with rfl | rfl
    · decide
    · decide

/-- The copy engine was granted first, so it is answered first. -/
theorem responses_routed_overlapping :
    rvalid (after overlapping 2) (overlapping 2) .copy = true ∧
      rvalid (after overlapping 3) (overlapping 3) .stream = true := by
  obtain ⟨routed, -⟩ := responses_routed overlapping overlapping_memory
  obtain ⟨first, position, only⟩ := routed 2 rfl
  obtain ⟨second, position', only'⟩ := routed 3 rfl
  obtain rfl : Client.copy = first := Option.some.inj position
  obtain rfl : Client.stream = second := Option.some.inj position'
  exact ⟨(only _).mpr rfl, (only' _).mpr rfl⟩

end MiniMac.Core.DmaArbiter
