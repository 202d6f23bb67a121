/-
# System.BoardState -- the copy engine behind a board

What the registers, the copy engine and the RAM of the chip are like when software sees a
given board.  The engine rests and the RAM is the board's, or it works on a copy that the
board has behind it (`CopyRuns`), until the done flag goes up: then the RAM is the board's
again (`CopyRuns.ended`).  A cycle keeps this, whatever part of an access falls in it.
-/
import MiniMac.System.Board
import MiniMac.System.ChipCopy

namespace MiniMac.System

open MiniMac.Theory MiniMac.Theory.Rv32i MiniMac.Core MiniMac.Accel MiniMac.Soc
open MiniMac.Soc.SocTop (ram)

set_option autoImplicit false

section States

variable (rom : BitVec 10 → BitVec 32) (s₀ : SocTop.State) (ins : ℕ → SocTop.Inputs)

/-- The registers hold the board's values. -/
structure Registers (dev : Device) (t : ℕ) : Prop where
  src : (copyRegs rom s₀ ins t).srcAddrO = dev.src
  dst : (copyRegs rom s₀ ins t).dstAddrO = dev.dst
  length : (copyRegs rom s₀ ins t).lengthO = dev.len

/-- The copy engine is idle, and no start is on its way to it. -/
structure CopyRests (dev : Device) (t : ℕ) : Prop where
  free : dev.copying = false
  idle : (copyDma rom s₀ ins t).state = .idle
  down : (copyDma rom s₀ ins t).reqO = false
  quiet : (copyDma rom s₀ ins t).doneO = false
  unstarted : (copyRegs rom s₀ ins t).startO = false
  flag : (copyRegs rom s₀ ins t).doneSticky = dev.done
  contents : ram rom s₀ ins t = dev.ram

/-- A copy was started in cycle `w`, and its end was not seen. -/
structure CopyRuns (dev : Device) (x : DmaMaster.Transfer) (w t : ℕ) : Prop where
  copying : dev.copying = true
  later : w < t
  start : CopyStart rom s₀ ins x w
  alone : ∀ u, w < u → u < t → SocTop.Sole .copy (SocTop.after rom s₀ ins u) (ins u)
  uncleared : ∀ u, w < u → u < t → DmaRegs.clearsDone (copyRegsAt rom s₀ ins u) = false
  contents : dev.ram = x.copied MemSubsystem.ramIndex (ram rom s₀ ins (w + 1)) x.words

/-- The copy, if there is one. -/
inductive Engine (dev : Device) (t : ℕ) : Option (DmaMaster.Transfer × ℕ) → Prop
  | rests (rests : CopyRests rom s₀ ins dev t) : Engine dev t none
  | runs {x : DmaMaster.Transfer} {w : ℕ} (runs : CopyRuns rom s₀ ins dev x w t) :
      Engine dev t (some (x, w))

end States

variable {rom : BitVec 10 → BitVec 32} {s₀ : SocTop.State} {ins : ℕ → SocTop.Inputs}
variable {dev dev' : Device} {x : DmaMaster.Transfer} {w t : ℕ}

/-! ## An engine at rest -/

namespace CopyRests

variable (rests : CopyRests rom s₀ ins dev t)

include rests

/-- A cycle without a start finds it at rest again. -/
theorem next (unwritten : DmaRegs.startWrite (copyRegsAt rom s₀ ins t) = false)
    (free : dev'.copying = false)
    (flag : dev'.done = (!DmaRegs.clearsDone (copyRegsAt rom s₀ ins t) && dev.done))
    (mem : ram rom s₀ ins (t + 1) = dev'.ram) : CopyRests rom s₀ ins dev' (t + 1) := by
  have refused : DmaMaster.accepts (copyDma rom s₀ ins t) (copyDmaAt rom s₀ ins t) = false := by
    have start : (copyDmaAt rom s₀ ins t).startI = false := rests.unstarted
    simp [DmaMaster.accepts, start]
  obtain ⟨idle, down, quiet⟩ := DmaMaster.step_idle rests.idle refused
  have sticky := (copy_sticky rom s₀ ins).next t
  rw [rests.quiet, rests.flag, Bool.false_or] at sticky
  exact {
    free := free
    idle := idle
    down := down.trans rests.down
    quiet := quiet
    unstarted := (DmaRegs.step_startO _ _).trans unwritten
    flag := sticky.trans flag.symm
    contents := mem }

/-- A start write. -/
theorem starts (dev' : Device) (write : DmaRegs.startWrite (copyRegsAt rom s₀ ins t) = true)
    (registers : Registers rom s₀ ins dev t) (fits : dev.Fits) (copying : dev'.copying = true)
    (mem : ram rom s₀ ins (t + 1) = dev.ram)
    (copied : dev'.ram = dev.transfer.copied MemSubsystem.ramIndex dev.ram dev.transfer.words) :
    CopyRuns rom s₀ ins dev' dev.transfer t (t + 1) := by
  have refused : DmaMaster.accepts (copyDma rom s₀ ins t) (copyDmaAt rom s₀ ins t) = false := by
    have start : (copyDmaAt rom s₀ ins t).startI = false := rests.unstarted
    simp [DmaMaster.accepts, start]
  obtain ⟨idle, -, quiet⟩ := DmaMaster.step_idle rests.idle refused
  refine ⟨copying, Nat.lt_succ_self t, ⟨write, registers.src, registers.dst, registers.length,
    fits.1, idle, quiet, fits.2⟩, ?_, ?_, ?_⟩
  · intro u low high
    omega
  · intro u low high
    omega
  · rw [copied, mem]

end CopyRests

/-! ## An engine at work -/

namespace CopyRuns

/-- A cycle in which nobody disturbs it. -/
theorem next (runs : CopyRuns rom s₀ ins dev x w t) (copying : dev'.copying = true)
    (same : dev'.ram = dev.ram)
    (alone : SocTop.Sole .copy (SocTop.after rom s₀ ins t) (ins t))
    (uncleared : DmaRegs.clearsDone (copyRegsAt rom s₀ ins t) = false) :
    CopyRuns rom s₀ ins dev' x w (t + 1) := by
  refine ⟨copying, Nat.lt_succ_of_lt runs.later, runs.start, ?_, ?_, same.trans runs.contents⟩
  · intro u low high
    rcases Nat.lt_succ_iff_lt_or_eq.mp high with before | rfl
    · exact runs.alone u low before
    · exact alone
  · intro u low high
    rcases Nat.lt_succ_iff_lt_or_eq.mp high with before | rfl
    · exact runs.uncleared u low before
    · exact uncleared

/-- The run in which the processor rests from a cycle on. -/
def silentFrom (T : ℕ) (ins : ℕ → SocTop.Inputs) (t : ℕ) : SocTop.Inputs :=
  if t < T then ins t else { ins t with cpuReq := false }

theorem after_silentFrom {T : ℕ} (upto : t ≤ T) :
    SocTop.after rom s₀ (silentFrom T ins) t = SocTop.after rom s₀ ins t :=
  Clocked.run_congr fun _ before => if_pos (by omega)

section Ends

variable (runs : CopyRuns rom s₀ ins dev x w t)

include runs

/-- The copy of a run that the processor leaves alone from now on comes to its end. -/
theorem completes (ports : PortsIdle (SocTop.after rom s₀ ins t)) (behind : w + 2 ≤ t) :
    ∃ d, CopyComplete rom s₀ (silentFrom t ins) x w d := by
  have here := runs.later
  have start : CopyStart rom s₀ (silentFrom t ins) x w := by
    have same {u : ℕ} (upto : u ≤ t) :
        SocTop.after rom s₀ (silentFrom t ins) u = SocTop.after rom s₀ ins u :=
      after_silentFrom upto
    have at_w := same (by omega : w ≤ t)
    have at_w' := same (by omega : w + 1 ≤ t)
    constructor
    · rw [copyRegsAt, at_w]
      exact runs.start.write
    · rw [copyRegs, at_w]
      exact runs.start.src
    · rw [copyRegs, at_w]
      exact runs.start.dst
    · rw [copyRegs, at_w]
      exact runs.start.length
    · exact runs.start.aligned
    · rw [copyDma, at_w']
      exact runs.start.idle
    · rw [copyDma, at_w']
      exact runs.start.quiet
    · exact runs.start.inside
  have rests : ∀ n, PortsIdle (SocTop.after rom s₀ (silentFrom t ins) (t + n)) := by
    intro n
    induction n with
    | zero =>
        rw [Nat.add_zero, after_silentFrom (le_refl t)]
        exact ports
    | succ n ih =>
        refine ih.step ?_
        show (silentFrom t ins (t + n)).cpuReq = false
        rw [silentFrom, if_neg (by omega)]
  refine copy_carried_out rom s₀ _ start fun u low _ => ?_
  rcases Nat.lt_or_ge u t with before | after
  · have alone := runs.alone u (by omega) before
    rw [after_silentFrom (by omega), silentFrom, if_pos before]
    exact alone
  · obtain ⟨n, rfl⟩ : ∃ n, u = t + n := ⟨u - t, by omega⟩
    constructor
    · rw [silentFrom, if_neg (by omega)]
      rfl
    · exact (rests n).down

/-- **The done flag tells the end**: where it has been up, the engine rests and the RAM is the
board's. -/
theorem ended (ports : PortsIdle (SocTop.after rom s₀ ins t)) {a : ℕ} (low : w < a)
    (high : a < t) (flag : (copyRegs rom s₀ ins a).doneSticky = true) :
    CopyRests rom s₀ ins dev.ended t := by
  obtain ⟨d, complete⟩ := runs.completes ports (by omega)
  have same {u : ℕ} (upto : u ≤ t) :
      SocTop.after rom s₀ (silentFrom t ins) u = SocTop.after rom s₀ ins u :=
    after_silentFrom upto
  have dma {u : ℕ} (upto : u ≤ t) : copyDma rom s₀ (silentFrom t ins) u = copyDma rom s₀ ins u :=
    congrArg SocTop.State.dmaCore (same upto)
  have mem {u : ℕ} (upto : u ≤ t) : ram rom s₀ (silentFrom t ins) u = ram rom s₀ ins u :=
    congrArg (fun s : SocTop.State => s.mem.ram.mem) (same upto)
  -- the flag was raised by the end of the copy
  have before : d < a := by
    refine (complete.flag a low fun v low' high' => ?_).mp ?_
    · rw [copyRegsAt, same (by omega)]
      exact runs.uncleared v low' (by omega)
    · rw [copyRegs, same (by omega)]
      exact flag
  have later := complete.later
  have upto : d ≤ t := by omega
  have atRest : (copyDma rom s₀ ins d).state = .idle := dma upto ▸ complete.atRest
  have signalled : (copyDma rom s₀ ins d).doneO = true := dma upto ▸ complete.signalled
  have contents := complete.contents
  rw [mem upto, mem (by omega)] at contents
  have unstarted (u : ℕ) (low : w < u) (high : u < t) :
      DmaRegs.startWrite (copyRegsAt rom s₀ ins u) = false := by
    by_contra write
    have clears := DmaRegs.clearsDone_of_startWrite (Bool.eq_true_of_not_eq_false write)
    exact absurd (clears.symm.trans (runs.uncleared u low high)) (by decide)
  have served := copy_served rom s₀ ins
  have still {u : ℕ} (low : w < u) (high : u < t) (idle : (copyDma rom s₀ ins u).state = .idle) :
      ram rom s₀ ins (u + 1) = ram rom s₀ ins u :=
    SocTop.ram_still (runs.alone u low high).cpu (runs.alone u low high).rival
      ((served.line u).low (by simp [idle]) (by simp [idle]))
  have first : CopyRests rom s₀ ins dev.ended (d + 1) := by
    obtain ⟨v, rfl⟩ : ∃ v, d = v + 1 := ⟨d - 1, by omega⟩
    have start : (copyRegs rom s₀ ins (v + 1)).startO = false :=
      (DmaRegs.step_startO _ _).trans (unstarted v (by omega) (by omega))
    have refused : DmaMaster.accepts (copyDma rom s₀ ins (v + 1)) (copyDmaAt rom s₀ ins (v + 1)) =
        false := by
      have start : (copyDmaAt rom s₀ ins (v + 1)).startI = false := start
      simp [DmaMaster.accepts, start]
    obtain ⟨idle, down, quiet⟩ := DmaMaster.step_idle atRest refused
    have sticky := (copy_sticky rom s₀ ins).next (v + 1)
    rw [signalled, runs.uncleared (v + 1) (by omega) (by omega)] at sticky
    exact {
      free := rfl
      idle := idle
      down := down.trans ((served.line _).low (by simp [atRest]) (by simp [atRest]))
      quiet := quiet
      unstarted := (DmaRegs.step_startO _ _).trans (unstarted (v + 1) (by omega) (by omega))
      flag := sticky
      contents := by
        have begun : ram rom s₀ ins (w + 2) = ram rom s₀ ins (w + 1) :=
          still (by omega) (by omega) runs.start.idle
        rw [still (by omega) (by omega) atRest, contents, begun]
        exact runs.contents.symm }
  have rests : ∀ n, d + 1 + n ≤ t → CopyRests rom s₀ ins dev.ended (d + 1 + n) := by
    intro n
    induction n with
    | zero =>
        intro _
        exact first
    | succ n ih =>
        intro upto
        have rests := ih (by omega)
        refine rests.next (unstarted _ (by omega) (by omega)) rfl ?_ ?_
        · rw [runs.uncleared (d + 1 + n) (by omega) (by omega)]
          rfl
        · rw [still (by omega) (by omega) rests.idle]
          exact rests.contents
  have last := rests (t - (d + 1)) (by omega)
  rw [Nat.add_sub_cancel' (by omega)] at last
  exact last

end Ends

end CopyRuns

/-! ## One cycle of the chip -/

variable (rom s₀ ins) in
/-- The chip in a state that shows the board. -/
structure Calm (dev : Device) (t : ℕ) (copy : Option (DmaMaster.Transfer × ℕ)) : Prop where
  stream : StreamRests (SocTop.after rom s₀ ins t)
  registers : Registers rom s₀ ins dev t
  engine : Engine rom s₀ ins dev t copy

section Cycles

variable {copy : Option (DmaMaster.Transfer × ℕ)}

theorem Engine.none_of_free (engine : Engine rom s₀ ins dev t copy) (free : dev.copying = false) :
    copy = none := by
  cases engine with
  | rests rests => rfl
  | runs runs => exact absurd (free.symm.trans runs.copying) Bool.false_ne_true

theorem Engine.some_of_copying (engine : Engine rom s₀ ins dev t copy)
    (copying : dev.copying = true) :
    ∃ x w, copy = some (x, w) ∧ CopyRuns rom s₀ ins dev x w t := by
  cases engine with
  | rests rests => exact absurd (rests.free.symm.trans copying) Bool.false_ne_true
  | runs runs => exact ⟨_, _, rfl, runs⟩

/-- A cycle without a start and without a clear, in which the processor leaves memory alone. -/
theorem Engine.next (engine : Engine rom s₀ ins dev t copy)
    (stream : StreamRests (SocTop.after rom s₀ ins t)) (cpu : SocTop.cpuIsMem (ins t) = false)
    (unstarted : DmaRegs.startWrite (copyRegsAt rom s₀ ins t) = false)
    (uncleared : DmaRegs.clearsDone (copyRegsAt rom s₀ ins t) = false)
    (same : dev'.ram = dev.ram ∧ dev'.copying = dev.copying ∧ dev'.done = dev.done) :
    Engine rom s₀ ins dev' (t + 1) copy := by
  obtain ⟨mem, copying, done⟩ := same
  cases engine with
  | rests rests =>
      refine .rests (rests.next unstarted (copying.trans rests.free) (by simp [uncleared, done]) ?_)
      rw [mem, ← rests.contents]
      exact SocTop.ram_still cpu stream.down rests.down
  | runs runs =>
      exact .runs (runs.next (copying.trans runs.copying) mem ⟨cpu, stream.down⟩ uncleared)

/-- Outside of a copy the RAM is the board's. -/
theorem Calm.ram_eq (calm : Calm rom s₀ ins dev t copy) (free : dev.copying = false) :
    ram rom s₀ ins t = dev.ram := by
  cases calm.engine with
  | rests rests => exact rests.contents
  | runs runs => exact absurd (free.symm.trans runs.copying) Bool.false_ne_true

/-- A cycle without a write of the registers changes none. -/
theorem Registers.next (registers : Registers rom s₀ ins dev t)
    (unwritten : DmaRegs.writes (copyRegsAt rom s₀ ins t) = false) :
    Registers rom s₀ ins dev (t + 1) := by
  have step := copyRegs_succ rom s₀ ins t
  rw [DmaRegs.step, unwritten, if_neg Bool.false_ne_true] at step
  refine ⟨?_, ?_, ?_⟩
  · rw [step]
    exact registers.src
  · rw [step]
    exact registers.dst
  · rw [step]
    exact registers.length

variable (calm : Calm rom s₀ ins dev t copy)

include calm

/-- A cycle without an access. -/
theorem Calm.quiet (cpu : SocTop.cpuIsMem (ins t) = false)
    (unwritten : DmaRegs.writes (copyRegsAt rom s₀ ins t) = false)
    (noJob : MacCfgRegs.startsJob (MacMulticore.regsInputs
      (SocTop.after rom s₀ ins t).mac.multicore (MacSubsystem.multicoreInputs
        (SocTop.after rom s₀ ins t).mac (SocTop.macInputs (SocTop.after rom s₀ ins t) (ins t)))) =
      false) : Calm rom s₀ ins dev (t + 1) copy := by
  refine ⟨calm.stream.step noJob, calm.registers.next unwritten, ?_⟩
  exact calm.engine.next calm.stream cpu (by simp [DmaRegs.startWrite, unwritten])
    (by simp [DmaRegs.clearsDone, unwritten]) ⟨rfl, rfl, rfl⟩

/-- A cycle with an access of memory. -/
theorem Calm.memory (free : dev.copying = false) (memory : SocTop.cpuIsMem (ins t) = true)
    (full : (ins t).cpuBe = 0xF) (disabled : (SocTop.after rom s₀ ins t).bridge.penable = false)
    (dev' : Device)
    (same : Registers rom s₀ ins dev' t ∧ dev'.copying = false ∧ dev'.done = dev.done)
    (stored : dev'.ram = if (ins t).cpuWe && MemSubsystem.inRam (ins t).cpuAddr then
      Function.update dev.ram (MemSubsystem.ramIndex (ins t).cpuAddr) (ins t).cpuWdata
      else dev.ram) :
    Calm rom s₀ ins dev' (t + 1) none := by
  obtain ⟨registers, free', done⟩ := same
  have unwritten : DmaRegs.writes (copyRegsAt rom s₀ ins t) = false := SocTop.regs_quiet disabled
  refine ⟨calm.stream.step (SocTop.mac_quiet (.inl disabled)), registers.next unwritten, ?_⟩
  obtain rfl := calm.engine.none_of_free free
  cases calm.engine with
  | rests rests =>
      refine .rests (rests.next (by simp [DmaRegs.startWrite, unwritten]) free' ?_ ?_)
      · simp [DmaRegs.clearsDone, unwritten, done]
      · rw [stored, ← rests.contents]
        exact SocTop.ram_cpu memory full

/-- A cycle in which a register is written. -/
theorem Calm.write (cpu : SocTop.cpuIsMem (ins t) = false) {addr data : BitVec 32}
    (access : SocTop.InAccess (SocTop.after rom s₀ ins t) true addr data)
    (page : addr.extractLsb' 12 4 = 0) (stored : dev.write (addr.setWidth 8) data = some dev') :
    ∃ copy', Calm rom s₀ ins dev' (t + 1) copy' ∧ ∀ c, copy = some c → copy' = some c := by
  have stream : StreamRests (SocTop.after rom s₀ ins (t + 1)) :=
    calm.stream.step (access.mac_quiet page)
  have written : DmaRegs.writes (copyRegsAt rom s₀ ins t) = true := access.writes page
  have offset : DmaRegs.offset (copyRegsAt rom s₀ ins t) = addr.setWidth 8 := access.offset
  have word : (copyRegsAt rom s₀ ins t).pwdata = data := access.pwdata
  have registers : Registers rom s₀ ins dev' (t + 1) := by
    obtain ⟨src, dst, length⟩ :=
      DmaRegs.step_registers (copyRegs rom s₀ ins t) (copyRegsAt rom s₀ ins t)
    obtain ⟨src', dst', length'⟩ := Device.write_registers stored
    rw [written, offset, word, Bool.true_and] at src dst length
    simp only [beq_iff_eq] at src dst length
    exact ⟨by rw [copyRegs_succ, src, src', calm.registers.src],
      by rw [copyRegs_succ, dst, dst', calm.registers.dst],
      by rw [copyRegs_succ, length, length', calm.registers.length]⟩
  have mem : ∀ rests : CopyRests rom s₀ ins dev t, ram rom s₀ ins (t + 1) = dev.ram := fun rests =>
    (SocTop.ram_still cpu calm.stream.down rests.down).trans rests.contents
  rcases Device.write_cases stored with ⟨reg, bit, started⟩ | ⟨reg, bit, free, rfl⟩ | ⟨other, same⟩
  · -- a start meets an engine at rest
    have write : DmaRegs.startWrite (copyRegsAt rom s₀ ins t) = true := by
      simp [DmaRegs.startWrite, written, offset, reg, word, bit]
    unfold Device.start at started
    split at started
    · next allowed =>
        obtain rfl := Option.some.inj started
        obtain rfl := calm.engine.none_of_free allowed.1
        cases calm.engine with
        | rests rests =>
            exact ⟨_, ⟨stream, registers, .runs (rests.starts _ write calm.registers allowed.2 rfl
              (mem rests) rfl)⟩, fun _ none => by cases none⟩
    · cases started
  · obtain rfl := calm.engine.none_of_free free
    have unstarted : DmaRegs.startWrite (copyRegsAt rom s₀ ins t) = false := by
      simp [DmaRegs.startWrite, offset, reg]
    have cleared : DmaRegs.clearsDone (copyRegsAt rom s₀ ins t) = true := by
      simp [DmaRegs.clearsDone, written, offset, reg, word, bit]
    cases calm.engine with
    | rests rests =>
        exact ⟨none, ⟨stream, registers, .rests (rests.next unstarted free (by simp [cleared])
          (mem rests))⟩, fun _ none => by cases none⟩
  · have uncleared : DmaRegs.clearsDone (copyRegsAt rom s₀ ins t) = false := by
      by_contra clears
      simp only [DmaRegs.clearsDone, Bool.not_eq_false, Bool.and_eq_true, Bool.or_eq_true,
        beq_iff_eq, offset, word] at clears
      exact other ⟨clears.1.2, clears.2⟩
    have unstarted : DmaRegs.startWrite (copyRegsAt rom s₀ ins t) = false := by
      by_contra write
      have clears := DmaRegs.clearsDone_of_startWrite (Bool.eq_true_of_not_eq_false write)
      exact absurd (clears.symm.trans uncleared) (by decide)
    exact ⟨copy, ⟨stream, registers,
      calm.engine.next calm.stream cpu unstarted uncleared same⟩, fun _ kept => kept⟩

/-- What a register other than STATUS shows. -/
theorem Calm.prdata_eq {offset : BitVec 8} (reg : DmaRegs.offset (copyRegsAt rom s₀ ins t) = offset)
    (other : offset ≠ 0x10) : DmaRegs.prdata (copyRegs rom s₀ ins t) (copyRegsAt rom s₀ ins t) =
      dev.read offset := by
  obtain ⟨src, dst, length⟩ := calm.registers
  rw [DmaRegs.prdata, reg, src, dst, length]
  unfold Device.read
  split <;> simp_all

omit calm in
/-- **A load of a register**, with its access phase in cycle `t` and its end in cycle `t + 2`,
is one of the board's. -/
theorem Calm.load {addr : BitVec 32} (access : Calm rom s₀ ins dev t copy)
    (last : Calm rom s₀ ins dev (t + 2) copy)
    (bridge : SocTop.BridgeIdle (SocTop.after rom s₀ ins (t + 2)))
    (reg : isCopyReg addr = true)
    (offset : DmaRegs.offset (copyRegsAt rom s₀ ins t) = addr.setWidth 8) :
    ∃ dev' copy', Device.Loads dev addr
        (DmaRegs.prdata (copyRegs rom s₀ ins t) (copyRegsAt rom s₀ ins t)) dev' ∧
      Calm rom s₀ ins dev' (t + 2) copy' ∧ (∀ c, copy' = some c → copy = some c) ∧
      (Device.isStatus addr = true → dev'.copying = true →
        (copyRegs rom s₀ ins t).doneSticky = false) ∧
      (dev.copying = false → dev' = dev) := by
  by_cases status : (addr.setWidth 8 : BitVec 8) = 0x10
  · have isStatus : Device.isStatus addr = true := by
      simp [Device.isStatus, reg, status]
    have bit := DmaRegs.prdata_status (copyRegs rom s₀ ins t) (copyRegsAt rom s₀ ins t)
      (offset.trans status)
    cases access.engine with
    | rests rests =>
        refine ⟨dev, none, .resting _ isStatus rests.free (bit.trans rests.flag), last,
          fun _ none => none, ?_, fun _ => rfl⟩
        intro _ copying
        exact absurd (rests.free.symm.trans copying) Bool.false_ne_true
    | @runs x w runs =>
        cases flag : (copyRegs rom s₀ ins t).doneSticky with
        | false =>
            exact ⟨dev, _, .unfinished _ isStatus runs.copying (bit.trans flag), last,
              fun _ same => same, fun _ _ => rfl, fun _ => rfl⟩
        | true =>
            -- the end was signalled before the access
            obtain ⟨x', w', same, runs'⟩ := last.engine.some_of_copying runs.copying
            obtain ⟨rfl, rfl⟩ := Prod.mk.inj (Option.some.inj same)
            have rests := runs'.ended ⟨bridge, last.stream⟩ runs.later (by omega) flag
            obtain ⟨src, dst, length⟩ := last.registers
            refine ⟨dev.ended, none, .finished _ isStatus runs.copying (bit.trans flag),
              ⟨last.stream, ⟨src, dst, length⟩, .rests rests⟩, ?_, ?_, ?_⟩
            · intro _ none
              cases none
            · intro _ copying
              cases copying
            · intro free
              exact absurd (free.symm.trans runs.copying) Bool.false_ne_true
  · refine ⟨dev, copy, ?_, last, fun _ same => same, ?_, fun _ => rfl⟩
    · rw [access.prdata_eq offset status]
      exact .register reg status
    · intro isStatus
      simp only [Device.isStatus, Bool.and_eq_true, beq_iff_eq] at isStatus
      exact absurd isStatus.2 status

end Cycles

end MiniMac.System
