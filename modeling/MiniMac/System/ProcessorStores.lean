/-
# System.ProcessorStores -- what the processor's stores leave in the RAM

An access of memory is granted at once, so the RAM takes each access of a store in one cycle,
and one that waits for its grant is none of the RAM.  Behind its response a load or a store
has done to the RAM what its accesses do (`ram_after`); byte by byte that is the memory of bytes
on which the stores are executed one after the other.
-/
import MiniMac.Core.RamPort
import MiniMac.System.ProcessorPort

namespace MiniMac.System.ProcessorPort

open MiniMac.Theory MiniMac.Macros.SramWrapper MiniMac.Core MiniMac.Ibex MiniMac.Soc
open LoadStorePipeline (Stage At Quiet Placed)

set_option autoImplicit false

/-- The RAM's page. -/
def toRam (r : Request) (second : Bool) : Bool :=
  (r.index second).extractLsb' 18 12 == 0x100#12

/-- What an access does to the RAM. -/
def accessRam (r : Request) (second : Bool) (ram : BitVec 11 → BitVec 32) : BitVec 11 → BitVec 32 :=
  if r.we && toRam r second then
    Function.update ram ((r.index second).extractLsb' 0 11)
      (writeLanes (LoadStoreUnit.dataBe r.type second (lane r.addr))
        (LoadStoreUnit.dataWdata (lane r.addr) r.wdata) (ram ((r.index second).extractLsb' 0 11)))
  else ram

/-- What all of them do. -/
def accessesRam (r : Request) (ram : BitVec 11 → BitVec 32) : BitVec 11 → BitVec 32 :=
  if r.split then accessRam r true (accessRam r false ram) else accessRam r false ram

/-- What the RAM holds at a stage. -/
def ramAt (r : Request) (ram : BitVec 11 → BitVec 32) : Stage → BitVec 11 → BitVec 32
  | .first => ram
  | .both => accessRam r false ram
  | .second => accessRam r false ram
  | .taken => accessesRam r ram
  | .last => accessesRam r ram

/-- What the access of a stage does. -/
def ramNext (r : Request) (x : Stage) (ram : BitVec 11 → BitVec 32) : BitVec 11 → BitVec 32 :=
  match x.asks with
  | some second => accessRam r second ram
  | none => ram

/-- No write of the DMA port is granted. -/
def DmaStill (s : SocTop.State) (i : SocTop.Inputs) : Prop :=
  (SocTop.dmaMGnt s i && (SocTop.memInputs s i).dmaWe) = false

section Cycle

variable {rom : BitVec 10 → BitVec 32} {c : State} {e : Env} {r : Request} {v : Visit}
  {fromPeriph : Bool}

/-- Then the RAM takes the store of the processor's port alone. -/
theorem ram_port {s : SocTop.State} {i : SocTop.Inputs} (still : DmaStill s i) :
    (SocTop.step rom s i).mem.ram.mem =
      if SocTop.cpuIsMem i && i.cpuWe && MemSubsystem.inRam i.cpuAddr then
        Function.update s.mem.ram.mem (MemSubsystem.ramIndex i.cpuAddr)
          (writeLanes i.cpuBe i.cpuWdata (s.mem.ram.mem (MemSubsystem.ramIndex i.cpuAddr)))
      else s.mem.ram.mem := by
  have next : (SocTop.step rom s i).mem.ram.mem =
      replay s.mem.ram.mem (MemSubsystem.grantedWrites s.mem (SocTop.memInputs s i)) :=
    MemSubsystem.ram_step rom _ _
  have quiet : (MemSubsystem.dmaGnt (SocTop.memInputs s i) &&
      (SocTop.memInputs s i).dmaWe) = false := still
  have masters : (SocTop.memInputs s i).macWe = 0 := rfl
  rw [next, MemSubsystem.grantedWrites, quiet, masters]
  show replay _ ((if SocTop.cpuIsMem i && i.cpuWe && MemSubsystem.inRam i.cpuAddr then _ else _) ++
    _ ++ _) = _
  cases SocTop.cpuIsMem i && i.cpuWe && MemSubsystem.inRam i.cpuAddr with
  | false =>
      simp
      rfl
  | true =>
      simp
      rfl

/-- What the chip's RAM takes of the request of a stage. -/
theorem ram_way {x : Stage}
    (request : LoadStorePipeline.requests c.toState (issue e) = x.asks.isSome)
    (placed : ∀ second, x.asks = some second → Placed r second c.toState (issue e))
    (still : DmaStill c.chip (inputs c e)) :
    (step rom c e).chip.mem.ram.mem = ramNext r x c.chip.mem.ram.mem := by
  have way := way_eq request placed
  have memory := way_memory (inputs c e)
  refine (ram_port still).trans ?_
  rw [ramNext]
  cases asks : x.asks with
  | none =>
      rw [way, asks] at memory
      have other : SocTop.cpuIsMem (inputs c e) = false := by
        rw [← Bool.not_eq_true, ← memory]
        simp
      rw [other, Bool.false_and, Bool.false_and, if_neg Bool.false_ne_true]
  | some second =>
      have place := placed second asks
      have addr : (inputs c e).cpuAddr = r.index second ++ 0b00#2 := place.address_eq
      have we : (inputs c e).cpuWe = r.we := place.we_eq
      have be : (inputs c e).cpuBe = _ := place.be_eq
      have wdata : (inputs c e).cpuWdata = _ := place.wdata_eq
      have inside : MemSubsystem.inRam (r.index second ++ 0b00#2) = toRam r second := by
        rw [MemSubsystem.inRam, page_append, toRam]
      have word : MemSubsystem.ramIndex (r.index second ++ 0b00#2) =
          (r.index second).extractLsb' 0 11 := BitVec.extractLsb'_append_eq_of_le (by omega)
      have takes : (SocTop.cpuIsMem (inputs c e) && r.we && toRam r second) =
          (r.we && toRam r second) := by
        cases here : toRam r second with
        | false => rw [Bool.and_false, Bool.and_false]
        | true =>
            -- what goes to the RAM does not go to the peripherals
            have page : (r.index second).extractLsb' 18 12 = 0x100#12 := eq_of_beq here
            have memory' : SocTop.cpuIsMem (inputs c e) = true := by
              rw [← memory, way, asks, Option.map_some, toPeriph, page]
              rfl
            rw [memory', Bool.true_and]
      rw [addr, we, be, wdata, inside, word, takes]
      rfl

/-- An access that waits is none of the RAM. -/
theorem accessRam_of_refused {second : Bool} (asks : v.stage.asks = some second)
    (refused : v.gnt (toPeriph r) = false) (ram : BitVec 11 → BitVec 32) :
    accessRam r second ram = ram := by
  have waits : v.line.gnt (toPeriph r second) = false := by
    rw [Visit.gnt, Visit.request, asks] at refused
    exact refused
  have outside : toRam r second = false := by
    rw [← Bool.not_eq_true]
    intro inside
    have page : (r.index second).extractLsb' 18 12 = 0x100#12 := eq_of_beq inside
    rw [Line.gnt, toPeriph, page] at waits
    cases waits
  rw [accessRam, outside, Bool.and_false, if_neg Bool.false_ne_true]

/-- From stage to stage the RAM takes the accesses. -/
theorem ramAt_next (within : v.stage ≠ .first → v.stage ≠ .last → r.split = true)
    (ram : BitVec 11 → BitVec 32) :
    ramAt r ram (v.next r.split (toPeriph r)).stage = ramNext r v.stage (ramAt r ram v.stage) := by
  have waits {second : Bool} (asks : v.stage.asks = some second)
      (refused : v.gnt (toPeriph r) = false) (ram : BitVec 11 → BitVec 32) :=
    accessRam_of_refused (r := r) asks refused ram
  show ramAt r ram (v.stage.next r.split (v.gnt (toPeriph r)) v.line.rvalid) = _
  cases stage : v.stage with
  | first =>
      rw [stage] at waits
      cases grant : v.gnt (toPeriph r) with
      | false => simp [ramAt, ramNext, waits rfl grant]
      | true => cases split : r.split <;> simp [ramAt, ramNext, accessesRam, split]
  | both =>
      rw [stage] at waits within
      have split := within (by decide) (by decide)
      cases grant : v.gnt (toPeriph r) with
      | false => cases v.line.rvalid <;> simp [ramAt, ramNext, waits rfl grant]
      | true => cases v.line.rvalid <;> simp [ramAt, ramNext, accessesRam, split]
  | second =>
      rw [stage] at waits within
      have split := within (by decide) (by decide)
      cases grant : v.gnt (toPeriph r) with
      | false => simp [ramAt, ramNext, waits rfl grant]
      | true => simp [ramAt, ramNext, accessesRam, split]
  | taken => cases v.line.rvalid <;> rfl
  | last => rfl

theorem Shows.ram (shows : Shows r v c) (still : DmaStill c.chip (inputs c e))
    {ram : BitVec 11 → BitVec 32} (holds : c.chip.mem.ram.mem = ramAt r ram v.stage) :
    (ProcessorPort.step rom c e).chip.mem.ram.mem =
      ramAt r ram (v.next r.split (toPeriph r)).stage := by
  rw [ramAt_next shows.stage.split, ← holds]
  exact ram_way shows.stage.requests (fun _ => shows.stage.placed) still

theorem Rests.ram (rests : Rests fromPeriph c) (valid : e.valid = true)
    (still : DmaStill c.chip (inputs c e)) : (step rom c e).chip.mem.ram.mem =
      ramAt e.request c.chip.mem.ram.mem
        ((Visit.first fromPeriph).next e.request.split (toPeriph e.request)).stage := by
  obtain ⟨placed, -, drives⟩ := rests.quiet.drives (i := issue e) valid
  rw [ramAt_next fun other => absurd rfl other]
  exact ram_way (x := .first) drives.req (fun second asks => Option.some.inj asks ▸ placed) still

theorem Rests.ram_rest (rests : Rests fromPeriph c) (none : e.valid = false)
    (still : DmaStill c.chip (inputs c e)) :
    (step rom c e).chip.mem.ram.mem = c.chip.mem.ram.mem := by
  have silent : (inputs c e).cpuReq = false := (rests.quiet.rest (i := issue e) none).1
  refine (ram_port still).trans ?_
  rw [SocTop.cpuIsMem, silent]
  rfl

end Cycle

/-! ## Bytes -/

/-- The addresses of the RAM, without their aliases. -/
def Inside (w : BitVec 30) : Prop := w.extractLsb' 11 19 = 0x08000#19

/-- The RAM at its addresses. -/
def spread (ram : BitVec 11 → BitVec 32) (w : BitVec 30) : BitVec 32 := ram (w.extractLsb' 0 11)

/-- No access of the request is one of the RAM at another address. -/
def Unaliased (r : Request) : Prop :=
  ∀ second, (second = true → r.split = true) → toRam r second = true → Inside (r.index second)

theorem Inside.page {w : BitVec 30} (inside : Inside w) : w.extractLsb' 18 12 = 0x100#12 := by
  have whole : w.toNat / 2048 % 524288 = 0x8000 := by
    have value := congrArg BitVec.toNat inside
    rwa [BitVec.extractLsb'_toNat, Nat.shiftRight_eq_div_pow] at value
  apply BitVec.eq_of_toNat_eq
  rw [BitVec.extractLsb'_toNat, Nat.shiftRight_eq_div_pow]
  show w.toNat / 262144 % 4096 = 0x100
  omega

theorem Inside.eq {w w' : BitVec 30} (inside : Inside w) (inside' : Inside w')
    (low : w.extractLsb' 0 11 = w'.extractLsb' 0 11) : w = w' := by
  have joined (x : BitVec 30) : x.extractLsb' 11 19 ++ x.extractLsb' 0 11 = x :=
    (BitVec.extractLsb'_append_extractLsb'_eq_extractLsb' rfl).trans BitVec.extractLsb'_eq_self
  rw [← joined w, ← joined w', low, show w.extractLsb' 11 19 = _ from inside,
    show w'.extractLsb' 11 19 = _ from inside']

section Bytes

variable {r : Request} {m : BitVec 30 → BitVec 32} {ram : BitVec 11 → BitVec 32}

theorem spread_access {second : Bool} (here : toRam r second = true → Inside (r.index second))
    (same : ∀ w, Inside w → m w = spread ram w) {w : BitVec 30} (inside : Inside w) :
    r.access second m w = spread (accessRam r second ram) w := by
  rw [Request.access, accessRam]
  cases store : r.we with
  | false => exact same w inside
  | true =>
      rw [Bool.true_and, if_pos rfl]
      cases page : toRam r second with
      | false =>
          have other : w ≠ r.index second := by
            rintro rfl
            rw [toRam, inside.page] at page
            cases page
          rw [Function.update_of_ne other]
          exact same w inside
      | true =>
          rw [if_pos rfl, spread]
          by_cases hit : w = r.index second
          · rw [hit, Function.update_self, Function.update_self, same _ (here page)]
            rfl
          · have apart : w.extractLsb' 0 11 ≠ (r.index second).extractLsb' 0 11 :=
              fun low => hit (inside.eq (here page) low)
            rw [Function.update_of_ne hit, Function.update_of_ne apart]
            exact same w inside

/-- **Byte by byte the accesses do to the RAM what the request is for.** -/
theorem bytes_accessesRam (unaliased : Unaliased r) {a : BitVec 32}
    (inside : Inside (wordIndex a)) :
    bytes (spread (accessesRam r ram)) a = r.exec (bytes (spread ram)) a := by
  have first {w : BitVec 30} : Inside w →
      r.access false (spread ram) w = spread (accessRam r false ram) w :=
    spread_access (unaliased false Bool.noConfusion) fun _ _ => rfl
  rw [← bytes_accesses r (spread ram)]
  show byte _ _ = byte _ _
  rw [accessesRam, Request.accesses]
  cases split : r.split with
  | false => exact congrArg (byte · (lane a)) (first inside).symm
  | true =>
      exact congrArg (byte · (lane a))
        (spread_access (unaliased true fun _ => split) (fun w => first) inside).symm

end Bytes

/-! ## A run -/

section Runs

variable (rom : BitVec 10 → BitVec 32) (s₀ : SocTop.State) (held₀ : Request) (env : ℕ → Env)

/-- The RAM of the chip. -/
def ram (t : ℕ) : BitVec 11 → BitVec 32 := (after rom s₀ held₀ env t).chip.mem.ram.mem

/-- The DMA port writes nothing in a cycle. -/
def stillAt (t : ℕ) : Prop :=
  DmaStill (after rom s₀ held₀ env t).chip (inputs (after rom s₀ held₀ env t) (env t))

variable {rom s₀ held₀ env}

/-- The RAM on the way of a load or a store. -/
theorem ram_visit {t : ℕ} {fromPeriph : Bool}
    (rests : Rests fromPeriph (after rom s₀ held₀ env t)) (valid : (env t).valid = true) (k : ℕ)
    (silent : Silent (env t).request fromPeriph k)
    (still : ∀ j, j ≤ k → stillAt rom s₀ held₀ env (t + j)) :
    ram rom s₀ held₀ env (t + (k + 1)) = ramAt (env t).request (ram rom s₀ held₀ env t)
      (visitOf (env t).request fromPeriph (k + 1)).stage := by
  induction k with
  | zero => exact rests.ram valid (still 0 (le_refl 0))
  | succ k ih =>
      have shows := shows_after rests valid k (silent.mono (Nat.le_succ k))
      have holds := ih (silent.mono (Nat.le_succ k)) fun j within => still j (by omega)
      rw [visitOf_succ]
      exact shows.ram (still (k + 1) (le_refl _)) holds

variable (rom s₀ held₀ env) in
/-- The memory of bytes on which the loads and stores are executed one after the other, each
when its response comes. -/
def byteMemory : ℕ → BitVec 32 → BitVec 8
  | 0 => bytes (spread s₀.mem.ram.mem)
  | t + 1 =>
      if respondsAt rom s₀ held₀ env t then
        (after rom s₀ held₀ env t).held.exec (byteMemory t)
      else byteMemory t

theorem byteMemory_keep {t n : ℕ}
    (silent : ∀ j < n, respondsAt rom s₀ held₀ env (t + j) = false) :
    byteMemory rom s₀ held₀ env (t + n) = byteMemory rom s₀ held₀ env t := by
  induction n with
  | zero => rfl
  | succ n ih =>
      rw [← Nat.add_assoc, byteMemory, silent n (Nat.lt_succ_self n), if_neg Bool.false_ne_true]
      exact ih fun j within => silent j (by omega)

theorem Rests.no_response {t : ℕ} {fromPeriph : Bool}
    (rests : Rests fromPeriph (after rom s₀ held₀ env t)) :
    respondsAt rom s₀ held₀ env t = false := by
  rw [respondsAt, responds, rests.quiet.responds]
  show (lineOf (after rom s₀ held₀ env t).chip).rvalid = false
  rw [rests.line]
  cases fromPeriph <;> rfl

/-- On the way of a load or a store nothing is executed. -/
theorem byteMemory_visit {t k : ℕ} {fromPeriph : Bool}
    (rests : Rests fromPeriph (after rom s₀ held₀ env t)) (valid : (env t).valid = true)
    (silent : Silent (env t).request fromPeriph k) :
    byteMemory rom s₀ held₀ env (t + (k + 1)) = byteMemory rom s₀ held₀ env t := by
  refine byteMemory_keep fun j within => ?_
  cases j with
  | zero => exact rests.no_response
  | succ j =>
      have shows := shows_after rests valid j (silent.mono (by omega))
      exact (shows.responds _).trans (silent (j + 1) (by omega) (by omega))

/-- Byte by byte the RAM is the memory of bytes. -/
def Stored (rom : BitVec 10 → BitVec 32) (s₀ : SocTop.State) (held₀ : Request) (env : ℕ → Env)
    (t : ℕ) : Prop :=
  ∀ a, Inside (wordIndex a) →
    bytes (spread (ram rom s₀ held₀ env t)) a = byteMemory rom s₀ held₀ env t a

theorem exec_congr (r : Request) {m m' : BitVec 32 → BitVec 8} {a : BitVec 32}
    (same : m a = m' a) : r.exec m a = r.exec m' a := by
  rw [Request.exec, Request.exec]
  split
  · rw [Request.stored, Request.stored, same]
  · exact same

/-- A cycle without a load or a store. -/
theorem Stored.rest {t : ℕ} {fromPeriph : Bool} (stored : Stored rom s₀ held₀ env t)
    (rests : Rests fromPeriph (after rom s₀ held₀ env t)) (none : (env t).valid = false)
    (still : stillAt rom s₀ held₀ env t) : Stored rom s₀ held₀ env (t + 1) := by
  intro a inside
  have same : ram rom s₀ held₀ env (t + 1) = ram rom s₀ held₀ env t := rests.ram_rest none still
  rw [same, byteMemory, rests.no_response, if_neg Bool.false_ne_true]
  exact stored a inside

/-- A load or a store up to its response. -/
theorem Stored.visit {t k : ℕ} {fromPeriph : Bool} (stored : Stored rom s₀ held₀ env t)
    (rests : Rests fromPeriph (after rom s₀ held₀ env t)) (valid : (env t).valid = true)
    (silent : Silent (env t).request fromPeriph k)
    (ended : (visitOf (env t).request fromPeriph (k + 1)).responds = true)
    (still : ∀ j, j ≤ k + 1 → stillAt rom s₀ held₀ env (t + j))
    (unaliased : Unaliased (env t).request) : Stored rom s₀ held₀ env (t + (k + 1) + 1) := by
  intro a inside
  have shows := shows_after rests valid k silent
  have holds := ram_visit rests valid k silent fun j within => still j (by omega)
  obtain ⟨last, -⟩ := Bool.and_eq_true_iff.mp ended
  have done : ram rom s₀ held₀ env (t + (k + 1) + 1) =
      accessesRam (env t).request (ram rom s₀ held₀ env t) := by
    refine (shows.ram (still (k + 1) (le_refl _)) holds).trans ?_
    rw [Visit.next, eq_of_beq last]
    rfl
  have responds : respondsAt rom s₀ held₀ env (t + (k + 1)) = true :=
    (shows.responds _).trans ended
  rw [done, byteMemory, responds, if_pos rfl, shows.stage.held, byteMemory_visit rests valid silent,
    bytes_accessesRam unaliased inside]
  exact exec_congr _ (stored a inside)

theorem stored (t : ℕ) (single : (after rom s₀ held₀ env t).multi = false)
    (still : ∀ u < t, stillAt rom s₀ held₀ env u)
    (unaliased : ∀ u < t, (after rom s₀ held₀ env u).multi = false → (env u).valid = true →
      Unaliased (env u).request) : Stored rom s₀ held₀ env t := by
  induction t using Nat.strong_induction_on with
  | h t ih =>
      have before (u : ℕ) (early : u < t) (single' : (after rom s₀ held₀ env u).multi = false) :
          Stored rom s₀ held₀ env u :=
        ih u early single' (fun w low => still w (low.trans early))
          fun w low => unaliased w (low.trans early)
      cases t with
      | zero => exact fun a _ => rfl
      | succ t =>
          cases where_all rom s₀ held₀ env t with
          | rests rests =>
              cases valid : (env t).valid with
              | true =>
                  have next : Shows _ _ (after rom s₀ held₀ env (t + 1)) := rests.start valid
                  exact absurd (single.symm.trans next.stage.multi) Bool.false_ne_true
              | false =>
                  exact (before t (Nat.lt_succ_self t) rests.quiet.single).rest rests valid
                    (still t (Nat.lt_succ_self t))
          | @visits t₀ k fromPeriph began valid now silent =>
              subst now
              have shows := shows_after began valid k silent
              cases ended : (visitOf (env t₀).request fromPeriph (k + 1)).responds with
              | false =>
                  have next : Shows _ _ (after rom s₀ held₀ env (t₀ + (k + 1) + 1)) :=
                    shows.step ended
                  exact absurd (single.symm.trans next.stage.multi) Bool.false_ne_true
              | true =>
                  exact (before t₀ (by omega) began.quiet.single).visit began valid silent ended
                    (fun j within => still (t₀ + j) (by omega))
                    (unaliased t₀ (by omega) began.quiet.single valid)

/-! ## Loads -/

/-- An access of memory that is not split is at its last stage in the next cycle. -/
theorem visit_memory {periph : Bool → Bool} (memory : periph false = false) (fromPeriph : Bool) :
    Visit.after false periph fromPeriph 1 = ⟨.last, ⟨false, .idle, false, true⟩⟩ := by
  rw [Visit.eq_ways periph, memory]
  generalize periph true = way
  cases fromPeriph <;> cases way <;> decide

/-- With nobody at the RAM the response mux shows the instruction that was fetched last. -/
theorem cpuRdata_idle {s : SocTop.State} {i : SocTop.Inputs}
    (mux : s.cpuResponseFromPeriph = false) (cpu : SocTop.cpuIsMem i = false)
    (dma : SocTop.dmaMReq s = false) : SocTop.cpuRdata s i = s.mem.instrDataQ := by
  have none : MemSubsystem.macGntInt s.mem (SocTop.memInputs s i) = 0 := by
    rcases MemSubsystem.macGntInt_cases s.mem (SocTop.memInputs s i) cpu with
      ⟨k, asks, -⟩ | ⟨none, -⟩
    · exact absurd asks (by simp [SocTop.memInputs])
    · exact none
  have request : (SocTop.memInputs s i).dmaReq = false := by simp [SocTop.memInputs, dma]
  have idle : (MemSubsystem.arb s.mem (SocTop.memInputs s i)).addr = 0 := by
    rw [(MemSubsystem.arb_of_none cpu none request).2]
  have rom : MemSubsystem.selRom s.mem (SocTop.memInputs s i) = true := by
    rw [MemSubsystem.selRom, idle]
    simp
  rw [SocTop.cpuRdata, mux, if_neg Bool.false_ne_true, MemSubsystem.cpuRdata,
    MemSubsystem.arbRdata, rom, if_pos rfl]
  rfl

/-- What the register file gets in a cycle. -/
def loadedAt (rom : BitVec 10 → BitVec 32) (s₀ : SocTop.State) (held₀ : Request) (env : ℕ → Env)
    (t : ℕ) : BitVec 32 :=
  LoadStoreUnit.lsuRdataO (after rom s₀ held₀ env t).lsu
    (LoadStorePipeline.lsuInputs (after rom s₀ held₀ env t).toState
      (port (after rom s₀ held₀ env t) (env t)))

/-- A load of memory returns bytes of the instruction that was fetched last. -/
theorem loaded {t : ℕ} (single : (after rom s₀ held₀ env t).multi = false)
    (valid : (env t).valid = true) (whole : (env t).request.split = false)
    (memory : toPeriph (env t).request false = false)
    (silent : SocTop.dmaMReq (after rom s₀ held₀ env (t + 1)).chip = false) :
    respondsAt rom s₀ held₀ env (t + 1) = true ∧
      loadedAt rom s₀ held₀ env (t + 1) = (env t).request.loaded
        (bytes fun _ => (after rom s₀ held₀ env (t + 1)).chip.mem.instrDataQ) := by
  obtain ⟨fromPeriph, rests⟩ := rests_of_single single
  have shows := shows_after rests valid 0 .zero
  rw [visitOf, whole, visit_memory memory] at shows
  have here := shows.stage
  have line := shows.line
  have way := shows.way (env (t + 1))
  refine ⟨shows.responds _, ?_⟩
  have mux : (after rom s₀ held₀ env (t + 1)).chip.cpuResponseFromPeriph = false :=
    congrArg Line.cpuResponseFromPeriph line
  have cpu : SocTop.cpuIsMem (inputs (after rom s₀ held₀ env (t + 1)) (env (t + 1))) = false := by
    rw [← Bool.not_eq_true, ← way_memory, way]
    simp [Visit.request]
  have word := cpuRdata_idle mux cpu silent
  show LoadStoreUnit.dataRdataExt _ (SocTop.cpuRdata _ _) = _
  rw [word]
  exact dataRdataExt_eq (here.latched (by decide))
    (fun _ => (after rom s₀ held₀ env (t + 1)).chip.mem.instrDataQ)
    fun split => absurd (whole.symm.trans split) Bool.false_ne_true

variable (rom s₀ held₀ env) in
/-- **What the processor stores is in the RAM, and what it loads is not from there**: byte by
byte the RAM is as all stores up to now have left it, as long as the DMA port writes nothing,
and an unsplit load of memory returns bytes of the instruction that was fetched last. -/
theorem chip_memory {t : ℕ} (single : (after rom s₀ held₀ env t).multi = false) :
    ((∀ u < t, stillAt rom s₀ held₀ env u) →
      (∀ u < t, (after rom s₀ held₀ env u).multi = false → (env u).valid = true →
        Unaliased (env u).request) → Stored rom s₀ held₀ env t) ∧
    ((env t).valid = true → (env t).request.split = false →
      toPeriph (env t).request false = false →
      SocTop.dmaMReq (after rom s₀ held₀ env (t + 1)).chip = false →
      respondsAt rom s₀ held₀ env (t + 1) = true ∧
        loadedAt rom s₀ held₀ env (t + 1) = (env t).request.loaded
          (bytes fun _ => (after rom s₀ held₀ env (t + 1)).chip.mem.instrDataQ)) :=
  ⟨stored t single, loaded single⟩

/-- A word that is stored across two words of the RAM, and then a word that is loaded. -/
def storeThenLoad (t : ℕ) : Env where
  valid := true
  request :=
    if t = 0 then
      { we := true, type := 0b00, wdata := 0x11223344, signExt := false, addr := 0x10000006 }
    else { we := false, type := 0b00, wdata := 0, signExt := false, addr := 0x10000004 }
  instrReq := false
  instrAddr := 0
  unknown := 0

theorem chip_memory_crossing :
    Stored (fun _ => 0) SocTop.powerUp (storeThenLoad 0).request storeThenLoad 3 ∧
      respondsAt (fun _ => 0) SocTop.powerUp (storeThenLoad 0).request storeThenLoad 4 = true := by
  obtain ⟨stores, loads⟩ :=
    chip_memory (fun _ => 0) SocTop.powerUp (storeThenLoad 0).request storeThenLoad (t := 3) rfl
  refine ⟨stores ?_ ?_, (loads rfl (by decide) (by decide) rfl).1⟩
  · intro u early
    obtain rfl | rfl | rfl : u = 0 ∨ u = 1 ∨ u = 2 := by omega
    · rfl
    · rfl
    · rfl
  · intro u early _ _ second reach _
    obtain rfl | later : u = 0 ∨ u ≠ 0 := by omega
    · cases second <;> rfl
    · have request : (storeThenLoad u).request = (storeThenLoad 1).request := by
        simp [storeThenLoad, later]
      rw [request] at reach ⊢
      cases second with
      | false => rfl
      | true => exact absurd (reach rfl) (by decide)

end Runs

end MiniMac.System.ProcessorPort
