/-
# System.BoardRefines -- the chip does what its software's board does

Each instruction of the processor on the chip is one step of the board, whatever the timing
(`Boundary.advance`), and a copy that is polled again and again is seen to end.  So a run of
the chip with a disciplined program is a run of the board, stretched in time
(`runs_board`).
-/
import MiniMac.System.BoardLine
import MiniMac.System.Computer

namespace MiniMac.System.Computer

open MiniMac.Theory MiniMac.Theory.Rv32i MiniMac.Core MiniMac.Soc
open MiniMac.Soc.SocTop (ram)

set_option autoImplicit false

section Steps

variable (rom : BitVec 10 → BitVec 32) (s₀ : SocTop.State) (regs : BitVec 5 → BitVec 32)
  (env : ℕ → Env)

/-- The state of the board in a cycle, and the copy behind it. -/
structure Point where
  board : Board
  time : ℕ
  copy : Option (DmaMaster.Transfer × ℕ)

/-- The chip shows the board between two instructions. -/
def Point.Shown (p : Point) : Prop := Boundary rom s₀ regs env p.board p.time p.copy

/-- The chip goes on by one instruction.  Until then the processor's registers stay, and the RAM
outside of a copy is that of the board before or after it. -/
structure Advance (p p' : Point) : Prop where
  later : p.time < p'.time
  step : Board.Step (fetchRom rom) p.board p'.board
  machine : ∀ u, p.time ≤ u → u < p'.time →
    (coreAt rom s₀ regs env u).machine = p.board.machine
  mem : p.board.device.copying = false → p'.board.device.copying = false →
    ∀ u, p.time ≤ u → u < p'.time → ram rom s₀ (insAt rom s₀ regs env) u = p.board.device.ram ∨
      ram rom s₀ (insAt rom s₀ regs env) u = p'.board.device.ram
  kept : ∀ c c', p.copy = some c → p'.copy = some c' → c' = c
  polled : p.board.polls (fetchRom rom) = true → p'.board.device.copying = true →
    ∃ a, p.time ≤ a ∧ a < p'.time ∧
      (copyRegs rom s₀ (insAt rom s₀ regs env) a).doneSticky = false

end Steps

variable {rom : BitVec 10 → BitVec 32} {s₀ : SocTop.State} {regs : BitVec 5 → BitVec 32}
  {env : ℕ → Env} {b : Board} {t : ℕ} {copy : Option (DmaMaster.Transfer × ℕ)}

/-! ## One instruction -/

section Instruction

variable (boundary : Boundary rom s₀ regs env b t copy)

include boundary

/-- An instruction that is done in a cycle. -/
theorem Boundary.inner {b' : Board} (boundary' : Boundary rom s₀ regs env b' (t + 1) copy)
    (step : Board.Step (fetchRom rom) b b')
    (none : b.next (fetchRom rom) = none) :
    Advance rom s₀ regs env ⟨b, t, copy⟩ ⟨b', t + 1, copy⟩ := by
  refine ⟨Nat.lt_succ_self t, step, ?_, ?_, ?_, ?_⟩
  · intro u low high
    obtain rfl : u = t := by dsimp only at low high; omega
    rw [boundary.core]
  · intro free _ u low high
    obtain rfl : u = t := by dsimp only at low high; omega
    exact .inl (boundary.ram_eq free)
  · intro c c' same same'
    exact Option.some.inj (same'.symm.trans same)
  · intro polls
    rw [Board.polls_eq none] at polls
    cases polls

variable {i : Instr} {a : Access}

/-- An access of the RAM. -/
theorem Boundary.memory_advance (go : (env t).go = true)
    (here : fetchRom rom b.machine.pc = some i) (asks : access b.machine i = some a)
    (inside : MemSubsystem.inRam a.addr = true) (free : b.device.copying = false)
    (mem : BitVec 11 → BitVec 32) (stored : mem = if a.write then
      Function.update b.device.ram (MemSubsystem.ramIndex a.addr) a.data else b.device.ram)
    (step : ∀ word, Board.Step (fetchRom rom) b
      ⟨retire b.machine i word, { b.device with ram := mem }⟩) :
    ∃ p', p'.Shown rom s₀ regs env ∧ Advance rom s₀ regs env ⟨b, t, copy⟩ p' := by
  obtain ⟨calm, waits, word, boundary'⟩ := boundary.memory go here asks inside free stored
  refine ⟨⟨⟨retire b.machine i word, { b.device with ram := mem }⟩, t + 2, none⟩, boundary', ?_,
    step word, ?_, ?_, ?_, ?_⟩
  · exact Nat.lt_add_of_pos_right Nat.two_pos
  · intro u low high
    dsimp only at low high
    obtain rfl | rfl : u = t ∨ u = t + 1 := by omega
    · rw [boundary.core]
    · rw [waits]
  · intro _ _ u low high
    dsimp only at low high
    obtain rfl | rfl : u = t ∨ u = t + 1 := by omega
    · exact .inl (boundary.ram_eq free)
    · exact .inr (calm.ram_eq free)
  · intro c c' _ none
    cases none
  · intro _ copying
    exact absurd (free.symm.trans copying) Bool.false_ne_true

/-- What an access of a register has in common, whatever it does to the board. -/
theorem Boundary.register_advance (flight : Flight rom s₀ regs env b i a t copy)
    (b' : Board) (copy' : Option (DmaMaster.Transfer × ℕ))
    (boundary' : Boundary rom s₀ regs env b' (t + 4) copy')
    (last : b.device.copying = false → b'.device.copying = false →
      ram rom s₀ (insAt rom s₀ regs env) (t + 3) = b'.device.ram)
    (step : Board.Step (fetchRom rom) b b')
    (kept : ∀ c c', copy = some c → copy' = some c' → c' = c)
    (polled : b.polls (fetchRom rom) = true → b'.device.copying = true →
      (copyRegs rom s₀ (insAt rom s₀ regs env) (t + 2)).doneSticky = false) :
    ∃ p', p'.Shown rom s₀ regs env ∧ Advance rom s₀ regs env ⟨b, t, copy⟩ p' := by
  refine ⟨⟨b', t + 4, copy'⟩, boundary', ?_, step, ?_, ?_, kept, ?_⟩
  · exact Nat.lt_add_of_pos_right (by decide)
  · intro u low high
    dsimp only at low high
    rcases Nat.eq_or_lt_of_le low with rfl | later
    · rw [boundary.core]
    · obtain ⟨n, rfl⟩ : ∃ n, u = t + 1 + n := ⟨u - (t + 1), by omega⟩
      rw [flight.waits n (by omega)]
  · intro free free' u low high
    dsimp only at low high
    obtain rfl | rfl | rfl | rfl : u = t ∨ u = t + 1 ∨ u = t + 2 ∨ u = t + 3 := by omega
    · exact .inl (boundary.ram_eq free)
    · exact .inl (flight.setup.ram_eq free)
    · exact .inl (flight.access.ram_eq free)
    · exact .inr (last free free')
  · intro polls copying
    exact ⟨t + 2, Nat.le_add_right t 2, Nat.add_lt_add_left (by decide) t, polled polls copying⟩

/-- A store. -/
theorem Boundary.store (go : (env t).go = true) (here : fetchRom rom b.machine.pc = some i)
    (asks : access b.machine i = some a) (write : a.write = true) {dev : Device}
    (stored : b.device.store a.addr a.data = some dev) :
    ∃ p', p'.Shown rom s₀ regs env ∧ Advance rom s₀ regs env ⟨b, t, copy⟩ p' := by
  have next : b.next (fetchRom rom) = some a := by simp [Board.next, here, asks]
  have step := Board.Step.store here asks write stored
  unfold Device.store at stored
  split at stored
  · split at stored
    · next inside =>
        split at stored
        · cases stored
        · next free =>
            obtain rfl := Option.some.inj stored
            refine boundary.memory_advance go here asks inside
              (Bool.eq_false_of_not_eq_true free) _
              (by rw [if_pos write]) fun word => ?_
            rw [retire_write asks write word 0]
            exact step
    · split at stored
      · next reg =>
          have flight := boundary.register go here asks reg
          have bus := flight.bus
          rw [write] at bus
          obtain ⟨copy', calm, kept⟩ := flight.access.write
            (by simp [SocTop.cpuIsMem, flight.silent]) bus (isCopyReg_page reg).2 stored
          refine boundary.register_advance flight ⟨retire b.machine i 0, dev⟩ copy'
            ⟨flight.response _ _ calm, ?_, flight.bridge⟩ (fun _ => calm.ram_eq) step ?_ ?_
          · rw [flight.core, retire_write asks write _ 0]
          · intro c c' same same'
            exact Option.some.inj (same'.symm.trans (kept c same))
          · intro polls
            rw [Board.polls_eq next] at polls
            simp [write] at polls
      · cases stored
  · cases stored

/-- A load. -/
theorem Boundary.load (go : (env t).go = true) (here : fetchRom rom b.machine.pc = some i)
    (asks : access b.machine i = some a) (read : a.write = false)
    (allowed : b.device.Loadable a.addr) :
    ∃ p', p'.Shown rom s₀ regs env ∧ Advance rom s₀ regs env ⟨b, t, copy⟩ p' := by
  have next : b.next (fetchRom rom) = some a := by simp [Board.next, here, asks]
  obtain ⟨whole, ⟨inside, free⟩ | reg⟩ := allowed
  · refine boundary.memory_advance go here asks inside free b.device.ram (by simp [read])
      fun word => ?_
    exact .load here asks read whole (.ram word inside free)
  · have flight := boundary.register go here asks reg
    have page := (isCopyReg_page reg).2
    have unwritten : DmaRegs.writes (copyRegsAt rom s₀ (insAt rom s₀ regs env) (t + 2)) = false :=
      (flight.bus.writes page).trans read
    have calm : Calm rom s₀ (insAt rom s₀ regs env) b.device (t + 3) copy :=
      flight.access.quiet (by simp [SocTop.cpuIsMem, flight.silent]) unwritten
        (flight.bus.mac_quiet page)
    obtain ⟨dev, copy', loads, calm', same, polled, free⟩ :=
      flight.access.load (flight.response _ _ calm) flight.bridge reg flight.bus.offset
    have word := flight.bus.prdata page (i := insAt rom s₀ regs env (t + 2))
    refine boundary.register_advance flight ⟨retire b.machine i _, dev⟩ copy'
      ⟨calm', ?_, flight.bridge⟩ ?_
      (.load here asks read whole loads) ?_ ?_
    · rw [flight.core, word]
      rfl
    · intro free'
      dsimp only
      rw [free free']
      exact fun _ => calm.ram_eq free'
    · intro c c' was now
      exact Option.some.inj ((same c' now).symm.trans was)
    · intro polls copying
      rw [Board.polls_eq next] at polls
      simp only [Option.any_some, read, Bool.not_false, Bool.true_and] at polls
      exact polled polls copying

/-- **One instruction of the chip is one step of the board.** -/
theorem Boundary.advance (go : (env t).go = true) (safe : b.Safe (fetchRom rom)) :
    ∃ p', p'.Shown rom s₀ regs env ∧ Advance rom s₀ regs env ⟨b, t, copy⟩ p' := by
  cases here : fetchRom rom b.machine.pc with
  | none =>
      have decoded := safe.decoded
      rw [here] at decoded
      cases decoded
  | some i =>
      cases asks : access b.machine i with
      | none =>
          have boundary' := boundary.compute go here asks
          exact ⟨⟨⟨retire b.machine i 0, b.device⟩, t + 1, copy⟩, boundary',
            boundary.inner boundary' (.compute here asks) (by simp [Board.next, here, asks])⟩
      | some a =>
          have next : b.next (fetchRom rom) = some a := by simp [Board.next, here, asks]
          have allowed := safe.allowed a next
          have polls := Board.polls_eq next
          cases write : a.write with
          | true =>
              rw [write, if_pos rfl] at allowed
              obtain ⟨b₁, stored⟩ := Option.isSome_iff_exists.mp allowed
              exact boundary.store go here asks write stored
          | false =>
              rw [write, if_neg Bool.false_ne_true] at allowed
              exact boundary.load go here asks write allowed

end Instruction

/-! ## A whole run -/

/-- A processor that waits first. -/
theorem Advance.waited {p' : Point} {u : ℕ} (later : t ≤ u)
    (lasts : ∀ v, t ≤ v → v ≤ u → Boundary rom s₀ regs env b v copy)
    (advance : Advance rom s₀ regs env ⟨b, u, copy⟩ p') :
    Advance rom s₀ regs env ⟨b, t, copy⟩ p' := by
  refine ⟨lt_of_le_of_lt later advance.later, advance.step, ?_, ?_, advance.kept, ?_⟩
  · intro v low high
    rcases Nat.lt_or_ge v u with before | after
    · rw [(lasts v low before.le).core]
    · exact advance.machine v after high
  · intro free free' v low high
    rcases Nat.lt_or_ge v u with before | after
    · exact .inl ((lasts v low before.le).ram_eq free)
    · exact advance.mem free free' v after high
  · intro polls copying
    obtain ⟨a, low, high, flag⟩ := advance.polled polls copying
    exact ⟨a, later.trans low, high, flag⟩

/-- A processor that goes on again and again executes the next instruction. -/
theorem Point.Shown.advance {p : Point} (shown : p.Shown rom s₀ regs env)
    (fair : ∀ t, ∃ u, t ≤ u ∧ (env u).go = true) (safe : p.board.Safe (fetchRom rom)) :
    ∃ p', p'.Shown rom s₀ regs env ∧ Advance rom s₀ regs env p p' := by
  obtain ⟨u, later, go, lasts⟩ := LeadsTo.wait
    (fun v => Boundary rom s₀ regs env p.board v p.copy) (fun v => (env v).go = true) shown
    (fun v _ boundary rests => boundary.rest (Bool.eq_false_of_not_eq_true rests))
    fun _ => fair p.time
  obtain ⟨p', shown', advance⟩ := (lasts u later (le_refl u)).advance go safe
  exact ⟨p', shown', advance.waited later lasts⟩

theorem boundary_reset (rom : BitVec 10 → BitVec 32) (s₀ : SocTop.State)
    (regs : BitVec 5 → BitVec 32) (env : ℕ → Env) :
    Boundary rom s₀ regs env (.reset s₀.mem.ram.mem regs) 0 none where
  stream := ⟨rfl, rfl, rfl⟩
  registers := ⟨rfl, rfl, rfl⟩
  engine := .rests ⟨rfl, rfl, rfl, rfl, rfl, rfl, rfl⟩
  core := rfl
  bridge := ⟨rfl, rfl, rfl⟩

/-- A run of points, each the next of the one before. -/
structure Points (rom : BitVec 10 → BitVec 32) (s₀ : SocTop.State) (regs : BitVec 5 → BitVec 32)
    (env : ℕ → Env) (p : ℕ → Point) : Prop where
  shown : ∀ k, (p k).Shown rom s₀ regs env
  advance : ∀ k, Advance rom s₀ regs env (p k) (p (k + 1))

namespace Points

variable {p : ℕ → Point} (points : Points rom s₀ regs env p)

include points

theorem strictMono : StrictMono fun k => (p k).time :=
  strictMono_nat_of_lt_succ fun k => (points.advance k).later

/-- Every later cycle falls between two points. -/
theorem covers {k₀ t : ℕ} (later : (p k₀).time ≤ t) :
    ∃ k, k₀ ≤ k ∧ (p k).time ≤ t ∧ t < (p (k + 1)).time := by
  induction t, later using Nat.le_induction with
  | base => exact ⟨k₀, le_refl k₀, le_refl _, (points.advance k₀).later⟩
  | succ t later ih =>
      obtain ⟨k, low, here, before⟩ := ih
      rcases Nat.lt_or_ge (t + 1) (p (k + 1)).time with inside | next
      · exact ⟨k, low, Nat.le_succ_of_le here, inside⟩
      · exact ⟨k + 1, Nat.le_succ_of_le low, next,
          lt_of_le_of_lt before (points.advance (k + 1)).later⟩

/-- A copy that is never seen to end is one and the same all along. -/
theorem same_copy {k : ℕ} (copying : ∀ i, k ≤ i → (p i).board.device.copying = true) :
    ∃ x w, ∀ i, k ≤ i →
      CopyRuns rom s₀ (insAt rom s₀ regs env) (p i).board.device x w (p i).time := by
  obtain ⟨x, w, here, -⟩ := (points.shown k).engine.some_of_copying (copying k (le_refl k))
  have all : ∀ i, k ≤ i → (p i).copy = some (x, w) := by
    intro i low
    induction i, low using Nat.le_induction with
    | base => exact here
    | succ i low ih =>
        obtain ⟨x', w', now, -⟩ :=
          (points.shown (i + 1)).engine.some_of_copying (copying (i + 1) (by omega))
        rw [now, (points.advance i).kept _ _ ih now]
  refine ⟨x, w, fun i low => ?_⟩
  obtain ⟨x', w', now, runs⟩ := (points.shown i).engine.some_of_copying (copying i low)
  obtain ⟨rfl, rfl⟩ := Prod.mk.inj (Option.some.inj ((all i low).symm.trans now))
  exact runs

/-- **A copy that is polled again and again is seen to end.** -/
theorem poll_succeeds (k : ℕ) : ∃ n, ∀ j, n ≤ j →
    (∀ i, k ≤ i → i ≤ j → (p i).board.device.copying = true) →
    (p j).board.polls (fetchRom rom) = true → (p (j + 1)).board.device.copying = false := by
  by_cases copying : ∀ i, k ≤ i → (p i).board.device.copying = true
  · obtain ⟨x, w, runs⟩ := points.same_copy copying
    have beyond (u : ℕ) : u < (p (k + u + 1)).time :=
      lt_of_lt_of_le (by omega) (points.strictMono.le_apply (x := k + u + 1))
    obtain ⟨d, complete⟩ := copy_carried_out rom s₀ (insAt rom s₀ regs env)
      (runs k (le_refl k)).start fun u low _ =>
        (runs (k + u + 1) (by omega)).alone u (by omega) (beyond u)
    refine ⟨k + d + 1, fun j late _ polls => ?_⟩
    by_contra unseen
    obtain ⟨a, low, -, flag⟩ := (points.advance j).polled polls (by simpa using unseen)
    have first := (runs j (by omega)).later
    have behind : d < a :=
      lt_of_lt_of_le (by omega) ((points.strictMono.le_apply (x := j)).trans low)
    have up := (complete.flag a (by omega) fun v low' high' =>
      (runs (k + v + 1) (by omega)).uncleared v low' (beyond v)).mpr behind
    exact absurd (flag.symm.trans up) Bool.false_ne_true
  · push Not at copying
    obtain ⟨i, low, free⟩ := copying
    exact ⟨i, fun j late all _ => absurd (all i low late) free⟩

/-- The boards of the points are a run of the board. -/
theorem run : Board.Run (fetchRom rom) fun k => (p k).board where
  next k := (points.advance k).step
  ends := points.poll_succeeds

end Points

/-- From cycle `t` up to cycle `t'` the chip executes the instruction that takes the board `b`
to `b'`: the registers are those of `b`, at first with no access open, and outside of a copy the
RAM is that of `b` at first and that of `b` or `b'` later on. -/
structure Executes (rom : BitVec 10 → BitVec 32) (s₀ : SocTop.State) (regs : BitVec 5 → BitVec 32)
    (env : ℕ → Env) (b b' : Board) (t t' : ℕ) : Prop where
  begins : coreAt rom s₀ regs env t = ⟨b.machine, false⟩
  registers : Registers rom s₀ (insAt rom s₀ regs env) b.device t
  contents : b.device.copying = false → ram rom s₀ (insAt rom s₀ regs env) t = b.device.ram
  machine : ∀ u, t ≤ u → u < t' → (coreAt rom s₀ regs env u).machine = b.machine
  mem : b.device.copying = false → b'.device.copying = false → ∀ u, t ≤ u → u < t' →
    ram rom s₀ (insAt rom s₀ regs env) u = b.device.ram ∨
      ram rom s₀ (insAt rom s₀ regs env) u = b'.device.ram

/-- A disciplined program takes the chip from point to point. -/
theorem exists_points (rom : BitVec 10 → BitVec 32) (s₀ : SocTop.State)
    (regs : BitVec 5 → BitVec 32) (env : ℕ → Env) (fair : ∀ t, ∃ u, t ≤ u ∧ (env u).go = true)
    (disciplined : (Board.reset s₀.mem.ram.mem regs).Disciplined (fetchRom rom)) :
    ∃ p, p 0 = ⟨.reset s₀.mem.ram.mem regs, 0, none⟩ ∧ Points rom s₀ regs env p := by
  obtain ⟨p, start, all⟩ := LeadsTo.chain
    (fun p : Point => p.Shown rom s₀ regs env ∧ Relation.ReflTransGen
      (Board.Step (fetchRom rom)) (.reset s₀.mem.ram.mem regs) p.board)
    (Advance rom s₀ regs env) (a := ⟨.reset s₀.mem.ram.mem regs, 0, none⟩)
    ⟨boundary_reset rom s₀ regs env, .refl⟩ (by
      rintro p ⟨shown, reached⟩
      obtain ⟨p', shown', advance⟩ := shown.advance fair (disciplined _ reached)
      exact ⟨p', ⟨shown', reached.tail advance.step⟩, advance⟩)
  exact ⟨p, start, fun k => (all k).1.1, fun k => (all k).2⟩

/-- **What the chip does with a disciplined program is a run of the board**, stretched in
time. -/
theorem runs_board (rom : BitVec 10 → BitVec 32) (s₀ : SocTop.State)
    (regs : BitVec 5 → BitVec 32) (env : ℕ → Env) (fair : ∀ t, ∃ u, t ≤ u ∧ (env u).go = true)
    (disciplined : (Board.reset s₀.mem.ram.mem regs).Disciplined (fetchRom rom)) :
    ∃ (b : ℕ → Board) (τ : ℕ → ℕ), b 0 = .reset s₀.mem.ram.mem regs ∧ τ 0 = 0 ∧ StrictMono τ ∧
      Board.Run (fetchRom rom) b ∧
      ∀ k, Executes rom s₀ regs env (b k) (b (k + 1)) (τ k) (τ (k + 1)) := by
  obtain ⟨p, start, points⟩ := exists_points rom s₀ regs env fair disciplined
  refine ⟨fun k => (p k).board, fun k => (p k).time, ?_, ?_, points.strictMono, points.run, ?_⟩
  · exact congrArg Point.board start
  · exact congrArg Point.time start
  · intro k
    exact {
      begins := (points.shown k).core
      registers := (points.shown k).registers
      contents := (points.shown k).ram_eq
      machine := (points.advance k).machine
      mem := (points.advance k).mem }

end MiniMac.System.Computer
