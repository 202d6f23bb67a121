/-
# Core.RamAlias -- which addresses of the RAM window are the same word

The window is one MiB, the RAM behind it 8 KiB, and an access looks at address
bits 12 to 2 only.  So a write reaches exactly the reads whose address agrees
with its own in these bits (`ram_no_alias_iff`): two runs that differ in one write
keep all other words in common (`AlikeBut`).  The reset values of the register
file put the result buffer on the weight buffer.
-/
import MiniMac.Core.RamSerial
import MiniMac.Accel.MacCfgRegs

namespace MiniMac.Core.MemSubsystem

open MiniMac.Theory MiniMac.Macros MiniMac.Accel

set_option autoImplicit false

/-! ## One write less -/

/-- The same requests, none of which writes. -/
def withoutWrites (i : Inputs) : Inputs :=
  { i with
    cpuWe := false
    dmaWe := false
    macWe := 0 }

/-- A write to `a` is accepted in the cycle, through one of the ports. -/
inductive WriteAccepted (s : State) (i : Inputs) (a : BitVec 32) : Prop
  | cpu (req : i.cpuReq = true) (we : i.cpuWe = true) (place : i.cpuAddr = a)
  | mac (k : Fin 4) (gnt : (macGntInt s i).getLsbD k = true) (we : i.macWe.getLsbD k = true)
      (place : i.macAddr k = a)
  | dma (gnt : dmaGnt i = true) (we : i.dmaWe = true) (place : i.dmaAddr = a)

section Edge

variable {s s' : State} {i : Inputs} {a : BitVec 32}

theorem grantedWrites_withoutWrites : grantedWrites s (withoutWrites i) = [] := by
  simp [grantedWrites, withoutWrites]

/-- The write that is accepted is the only one of its cycle. -/
theorem WriteAccepted.address (accepted : WriteAccepted s i a) :
    ∀ w ∈ grantedWrites s i, w.address = ramIndex a := by
  have place : (arb s i).addr = a := by
    cases accepted with
    | cpu req _ place => rw [(arb_of_cpu req).2, place]
    | mac k gnt _ place => rw [(arb_of_macGnt gnt).2, macAccess, place]
    | dma gnt _ place => rw [arb_of_dmaGnt s i gnt, place]
  intro w member
  rw [grantedWrites_eq, Access.writes] at member
  split at member
  · rw [List.mem_singleton.mp member, ← place]
    rfl
  · cases member

/-- The grants look at the turn and the requests, at nothing else. -/
theorem macGntInt_congr (turn : s.macRr = s'.macRr) : macGntInt s i = macGntInt s' i := by
  rw [macGntInt, macGntInt, turn]

theorem grantedWrites_congr (turn : s.macRr = s'.macRr) :
    grantedWrites s i = grantedWrites s' i := by
  rw [grantedWrites, grantedWrites, macGntInt_congr turn]

/-- Two states with the turn and all RAM words but one in common. -/
structure AlikeBut (x : BitVec 11) (s s' : State) : Prop where
  turn : s.macRr = s'.macRr
  words : ∀ y, y ≠ x → s.ram.mem y = s'.ram.mem y

variable {rom : BitVec 10 → BitVec 32} {x : BitVec 11}

theorem AlikeBut.step (alike : AlikeBut x s s') :
    AlikeBut x (step rom s i) (step rom s' i) where
  turn := by
    simp only [MemSubsystem.step, macGntInt_congr alike.turn, alike.turn]
  words y other := by
    rw [ram_step, ram_step, grantedWrites_congr alike.turn]
    exact replay_congr (alike.words y other)

/-- A cycle and the same without its write. -/
theorem WriteAccepted.alike (accepted : WriteAccepted s i a) :
    AlikeBut (ramIndex a) (step rom s i) (step rom s (withoutWrites i)) where
  turn := rfl
  words y other := by
    rw [ram_step, ram_step, grantedWrites_withoutWrites, replay_nil]
    exact replay_frame fun w member => accepted.address w member ▸ other

end Edge

/-! ## Later reads -/

section Runs

variable (rom : BitVec 10 → BitVec 32) (s₀ : State) (ins : ℕ → Inputs)

/-- A MAC master's read of `b` is granted in the cycle. -/
structure MacReads (t : ℕ) (k : Fin 4) (b : BitVec 32) : Prop where
  granted : MacGranted rom s₀ ins t k
  reads : (ins t).macWe.getLsbD k = false
  place : (ins t).macAddr k = b

/-- The run without the write of cycle `t`. -/
def erased (t : ℕ) : ℕ → Inputs := Function.update ins t (withoutWrites (ins t))

variable {rom s₀ ins}

theorem alike_after {a : BitVec 32} {t u : ℕ}
    (accepted : WriteAccepted (after rom s₀ ins t) (ins t) a) (later : t < u) :
    AlikeBut (ramIndex a) (after rom s₀ ins u) (after rom s₀ (erased ins t) u) := by
  induction u, later using Nat.le_induction with
  | base =>
      have before : after rom s₀ (erased ins t) t = after rom s₀ ins t :=
        Clocked.run_congr fun v earlier => Function.update_of_ne (Nat.ne_of_lt earlier) _ _
      have here : erased ins t t = withoutWrites (ins t) := Function.update_self _ _ _
      rw [after_succ, after_succ, before, here]
      exact accepted.alike
  | succ u later ih =>
      have same : erased ins t u = ins u := Function.update_of_ne (Nat.ne_of_gt later) _ _
      rw [after_succ, after_succ, same]
      exact ih.step

theorem MacReads.macRdata {t : ℕ} {k : Fin 4} {b : BitVec 32} (read : MacReads rom s₀ ins t k b)
    (inside : inRam b = true) :
    macRdata (after rom s₀ ins (t + 1)) k = (after rom s₀ ins t).ram.mem (ramIndex b) := by
  obtain ⟨granted, -, rfl⟩ := read
  rw [macRdata_of_read rom s₀ ins granted inside, ram_mem_eq]

end Runs

/-- No write to `a` changes what a later MAC read of `b` returns. -/
def Unaffected (a b : BitVec 32) : Prop :=
  ∀ (rom : BitVec 10 → BitVec 32) (s₀ : State) (ins : ℕ → Inputs) (t u : ℕ) (k : Fin 4),
    WriteAccepted (after rom s₀ ins t) (ins t) a → t < u → MacReads rom s₀ ins u k b →
      macRdata (after rom s₀ ins (u + 1)) k = macRdata (after rom s₀ (erased ins t) (u + 1)) k

/-- Addresses of different words do not alias. -/
theorem unaffected_of_ne {a b : BitVec 32} (inside : inRam b = true)
    (other : ramIndex a ≠ ramIndex b) : Unaffected a b := by
  intro rom s₀ ins t u k accepted later read
  have alike := alike_after accepted later
  have same : erased ins t u = ins u := Function.update_of_ne (Nat.ne_of_gt later) _ _
  have read' : MacReads rom s₀ (erased ins t) u k b := by
    obtain ⟨granted, reads, place⟩ := read
    refine ⟨?_, by rw [same]; exact reads, by rw [same]; exact place⟩
    unfold MacGranted at granted ⊢
    rw [same, ← macGntInt_congr alike.turn]
    exact granted
  rw [read.macRdata inside, read'.macRdata inside]
  exact alike.words _ (Ne.symm other)

/-! ## Two names of one word -/

/-- Ones to `a`, then MAC 0 reads `b`. -/
def writeThenRead (a b : BitVec 32) (t : ℕ) : Inputs :=
  if t = 0 then
    { quiet with
      cpuReq := true
      cpuAddr := a
      cpuWe := true
      cpuBe := 0xF
      cpuWdata := BitVec.allOnes 32 }
  else
    { quiet with
      macReq := BitVec.twoPow 4 0
      macAddr := fun _ => b }

/-- A RAM of zeros. -/
def zeros : State := { numbered with ram := ⟨fun _ => 0, 0⟩ }

theorem writeThenRead_reads {a b : BitVec 32} {ins : ℕ → Inputs}
    (same : ins 1 = writeThenRead a b 1) : MacReads (fun _ => 0) zeros ins 1 0 b := by
  refine ⟨?_, ?_, ?_⟩
  · rw [MacGranted, same, macGntInt_alone rfl 0 rfl]
    rfl
  · rw [same]
    exact BitVec.getLsbD_zero
  · rw [same]
    rfl

/-- Two addresses of one word alias. -/
theorem affected_of_eq {a b : BitVec 32} (inA : inRam a = true) (inB : inRam b = true)
    (same : ramIndex a = ramIndex b) : ¬ Unaffected a b := by
  intro unaffected
  have accepted : WriteAccepted (after (fun _ => 0) zeros (writeThenRead a b) 0)
      (writeThenRead a b 0) a := .cpu rfl rfl rfl
  have read : MacReads (fun _ => 0) zeros (writeThenRead a b) 1 0 b :=
    writeThenRead_reads (a := a) rfl
  have read' : MacReads (fun _ => 0) zeros (erased (writeThenRead a b) 0) 1 0 b :=
    writeThenRead_reads (a := a) rfl
  have changed := unaffected (fun _ => 0) zeros (writeThenRead a b) 0 1 0 accepted
    Nat.zero_lt_one read
  rw [read.macRdata inB, read'.macRdata inB] at changed
  have written : (after (fun _ => 0) zeros (writeThenRead a b) 1).ram.mem (ramIndex b) =
      BitVec.allOnes 32 := by
    rw [after_succ, ram_step, grantedWrites_eq, (arb_of_cpu rfl).2, ← same]
    simp [Access.writes, writeThenRead, inA, ramWrite, SramWrapper.maskedWrite, Write.apply,
      SramWrapper.writeLanes_full]
  have kept : (after (fun _ => 0) zeros (erased (writeThenRead a b) 0) 1).ram.mem (ramIndex b) =
      0 := by
    have here : erased (writeThenRead a b) 0 0 = withoutWrites (writeThenRead a b 0) := rfl
    rw [after_succ, ram_step, here, grantedWrites_withoutWrites]
    rfl
  rw [written, kept] at changed
  exact absurd changed (by decide)

/-- **Two addresses of the RAM window alias exactly when bits 12 to 2 agree.** -/
theorem ram_no_alias_iff (a b : BitVec 32) (inA : inRam a = true) (inB : inRam b = true) :
    Unaffected a b ↔ ramIndex a ≠ ramIndex b := by
  constructor
  · intro unaffected same
    exact affected_of_eq inA inB same unaffected
  · exact unaffected_of_ne inB

/-- The weight buffer at its reset address is apart from the activation buffer. -/
theorem ram_no_alias_operands :
    Unaffected MacCfgRegs.reset.wgtBaseO MacCfgRegs.reset.actBaseO :=
  (ram_no_alias_iff MacCfgRegs.reset.wgtBaseO MacCfgRegs.reset.actBaseO rfl rfl).mpr (by decide)

/-- The result buffer at its reset address is the weight buffer. -/
theorem ram_alias_results :
    ¬ ∀ a b : BitVec 32, inRam a = true → inRam b = true → a.extractLsb' 0 2 = 0 →
      b.extractLsb' 0 2 = 0 → a ≠ b → Unaffected a b := by
  intro claim
  have unaffected := claim MacCfgRegs.reset.wgtBaseO MacCfgRegs.reset.resBaseO rfl rfl rfl rfl
    (by decide)
  exact affected_of_eq rfl rfl (by decide) unaffected

end MiniMac.Core.MemSubsystem
