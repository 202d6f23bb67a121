/-
# Core.CopyRange -- which bytes a transfer can change

A transfer writes whole words, and at least one.  So it stays inside the bytes it
was programmed with exactly when they are whole words and there are some; or when
it copies a range onto itself, which changes nothing (`writes_inside_iff`).
-/
import MiniMac.Core.CopyCompletes

namespace MiniMac.Core.CopySystem

open MiniMac.Theory

set_option autoImplicit false

/-- The byte at an address. -/
def byteAt (mem : BitVec 30 → BitVec 32) (addr : BitVec 32) : BitVec 8 :=
  (mem (wordIndex addr)).extractLsb' (8 * (addr.extractLsb' 0 2).toNat) 8

/-- The transfer accepted in cycle `s` goes on up to cycle `t`, or ends in it. -/
structure During (s₀ : State) (ins : ℕ → Inputs) (s t : ℕ) : Prop where
  accepted : Accepted s₀ ins s
  later : s < t
  notDone : ∀ u, s < u → u < t → (after s₀ ins u).dma.doneO = false

/-- No transfer of these registers changes a byte outside the programmed ones, in any memory and
at any pace. -/
def WritesInside (src dst : BitVec 32) (length : BitVec 16) : Prop :=
  ∀ (s₀ : State) (ins : ℕ → Inputs) (s t : ℕ), During s₀ ins s t →
    (ins s).srcAddrI = src → (ins s).dstAddrI = dst → (ins s).lengthI = length →
    ∀ addr, (∀ j < length.toNat, addr ≠ dst + BitVec.ofNat 32 j) →
      byteAt (after s₀ ins t).mem addr = byteAt (after s₀ ins s).mem addr

/-! ## The words that are moved -/

/-- The words a transfer moves: one where there is none to be moved. -/
def Transfer.moved (x : Transfer) : ℕ := max 1 x.words

section Runs

variable {s₀ : State} {ins : ℕ → Inputs} {s t : ℕ}

theorem Progress.copied_upto {x : Transfer} {log : List Access} {s : State}
    (progress : Progress x log s) : ∃ k, k ≤ x.words ∧ s.mem = x.copied k := by
  have upto {k : ℕ} (within : 4 * k < x.length.toNat) : k ≤ x.words := by
    unfold Transfer.words
    omega
  cases progress with
  | @fetching k _ at_ => exact ⟨k, upto at_.within, at_.mem⟩
  | @waiting k _ at_ => exact ⟨k, upto at_.within, at_.mem⟩
  | @storing k _ at_ => exact ⟨k, upto at_.within, at_.mem⟩
  | copied at_ => exact ⟨x.words, le_refl _, at_.mem⟩

/-- The memory of a transfer of some length. -/
theorem During.memory_pos (during : During s₀ ins s t) (length : 0 < (ins s).lengthI.toNat) :
    ∃ k, k ≤ (transferAt s₀ ins s).words ∧
      (after s₀ ins t).mem = (transferAt s₀ ins s).copied k ∧
      ((after s₀ ins t).dma.doneO = true → k = (transferAt s₀ ins s).words) := by
  obtain ⟨accepted, later, notDone⟩ := during
  cases done : (after s₀ ins t).dma.doneO with
  | true =>
      have ends : DoneAfter s₀ ins s t := ⟨later, done, fun u high low => notDone u low high⟩
      exact ⟨_, le_refl _, (accepted.copies length ends).2, fun _ => rfl⟩
  | false =>
      have progress := accepted.progress length later fun u low high => by
        rcases Nat.lt_or_ge u t with before | last
        · exact notDone u low before
        · obtain rfl : u = t := by omega
          exact done
      obtain ⟨k, upto, mem⟩ := progress.copied_upto
      exact ⟨k, upto, mem, fun contra => absurd contra Bool.false_ne_true⟩

/-- **The memory during a transfer**: some of the words are copied, at its end all that are
moved. -/
theorem During.memory (during : During s₀ ins s t) :
    ∃ k, k ≤ (transferAt s₀ ins s).moved ∧
      (after s₀ ins t).mem = (transferAt s₀ ins s).copied k ∧
      ((after s₀ ins t).dma.doneO = true → k = (transferAt s₀ ins s).moved) := by
  rcases Nat.eq_zero_or_pos (ins s).lengthI.toNat with zero | length
  · -- as for the start with four bytes
    obtain ⟨accepted, later, notDone⟩ := during
    have same {u : ℕ} (low : s < u) (upto : u ≤ t) :=
      (accepted.leftOnly (BitVec.eq_of_toNat_eq zero) low
        fun v low' high => notDone v low' (by omega)).1.same
    obtain ⟨here, accepted'⟩ := accepted.fourBytes_start
    have during' : During s₀ (fourBytes ins s) s t := by
      refine ⟨accepted', later, fun u low high => ?_⟩
      rw [same low high.le]
      exact notDone u low high
    have four := accepted.transferAt_fourBytes
    have length : 0 < (fourBytes ins s s).lengthI.toNat := by
      simp [fourBytes]
    obtain ⟨k, upto, mem, ends⟩ := during'.memory_pos length
    have moved : (transferAt s₀ ins s).moved = 1 := by
      simp [Transfer.moved, Transfer.words, transferAt, zero]
    have words : (transferAt s₀ (fourBytes ins s) s).words = (transferAt s₀ ins s).moved := by
      rw [four, moved]
      simp [Transfer.words]
    rw [words] at upto ends
    rw [same later (le_refl t)] at mem ends
    rw [four] at mem
    exact ⟨k, upto, mem, ends⟩
  · obtain ⟨k, upto, mem, ends⟩ := during.memory_pos length
    have moved : (transferAt s₀ ins s).moved = (transferAt s₀ ins s).words := by
      unfold Transfer.moved Transfer.words
      have : 0 < (transferAt s₀ ins s).length.toNat := length
      omega
    exact ⟨k, moved ▸ upto, mem, fun done => moved ▸ ends done⟩

/-- A transfer of any length completes. -/
theorem Accepted.ends (accepted : Accepted s₀ ins s) (fair : Fair ins) :
    ∃ d, During s₀ ins s d ∧ (after s₀ ins d).dma.doneO = true := by
  rcases Nat.eq_zero_or_pos (ins s).lengthI.toNat with zero | length
  · obtain ⟨-, accepted'⟩ := accepted.fourBytes_start
    obtain ⟨d, later, done, -⟩ :=
      accepted'.completes (by simp [fourBytes]) (fair.fourBytes (s := s))
    -- the two runs signal their ends together
    have ends : ∃ d, s < d ∧ (after s₀ ins d).dma.doneO = true := by
      by_contra never
      push Not at never
      have at_ := (accepted.leftOnly (BitVec.eq_of_toNat_eq zero) later
        fun u low _ => by simpa using never u low).1
      rw [at_.same] at done
      exact never d later done
    refine ⟨Nat.find ends, ⟨accepted, (Nat.find_spec ends).1, ?_⟩, (Nat.find_spec ends).2⟩
    intro u low before
    simpa [low] using Nat.find_min ends before
  · obtain ⟨d, later, done, first⟩ := accepted.completes length fair
    exact ⟨d, ⟨accepted, later, fun u low high => first u high low⟩, done⟩

end Runs

/-! ## Inside the range -/

theorem aligned_iff {src dst : BitVec 32} :
    DmaMaster.aligned src dst = true ↔ src.toNat % 4 = 0 ∧ dst.toNat % 4 = 0 := by
  have low (a : BitVec 32) : a.extractLsb' 0 2 = 0 ↔ a.toNat % 4 = 0 := by
    rw [← BitVec.toNat_inj]
    simp [BitVec.extractLsb'_toNat]
  simp only [DmaMaster.aligned, Bool.and_eq_true, beq_iff_eq, low]

section Inside

variable {x : Transfer} {k : ℕ}

/-- Words copied inside a range of whole words leave the bytes outside alone. -/
theorem Transfer.copied_outside (aligned : x.dst.toNat % 4 = 0) (upto : 4 * k ≤ x.length.toNat)
    {addr : BitVec 32} (outside : ∀ j < x.length.toNat, addr ≠ x.dst + BitVec.ofNat 32 j) :
    byteAt (x.copied k) addr = byteAt x.mem addr := by
  have frame : x.copied k (wordIndex addr) = x.mem (wordIndex addr) := by
    refine copyWords_frame fun j before same => ?_
    obtain ⟨lane, within, here⟩ := byte_of_wordIndex aligned same
    exact outside (4 * j + lane) (by omega) here
  rw [byteAt, frame, byteAt]

/-- A copy of a range onto itself leaves everything alone. -/
theorem Transfer.copied_self (same : x.src = x.dst) : x.copied k = x.mem := by
  rw [Transfer.copied, same]
  exact copyWords_self k

end Inside

/-! ## Past the range -/

/-- A memory of ones but for the `k`-th word from `dst`. -/
def onesBut (dst : BitVec 32) (k : ℕ) (a : BitVec 30) : BitVec 32 :=
  if a = wordIndex (wordAddr dst k) then 0 else BitVec.allOnes 32

/-- Its zero word is overwritten when the `k`-th word is moved. -/
theorem Transfer.copied_onesBut {x : Transfer} {k : ℕ} (mem : x.mem = onesBut x.dst k)
    (aligned : x.src.toNat % 4 = 0 ∧ x.dst.toNat % 4 = 0) (other : x.src ≠ x.dst)
    (small : k < 2 ^ 29) :
    x.copied (k + 1) (wordIndex (wordAddr x.dst k)) = BitVec.allOnes 32 := by
  rw [x.copied_succ, Function.update_self, Transfer.word]
  by_contra zero
  have stray := copyWords_stray (P := fun w => w = BitVec.allOnes 32)
    (x := wordIndex (wordAddr x.dst k)) (fun a away => by rw [mem]; exact if_neg away)
    (fun i j low high => no_crossing low high.le small) zero
  rcases stray with same | ⟨i, before, moved, origin⟩
  · exact other (base_inj aligned.1 aligned.2 same)
  · exact no_crossing before (le_refl k) small origin moved

theorem byteAt_ones {mem : BitVec 30 → BitVec 32} {addr : BitVec 32}
    (ones : mem (wordIndex addr) = BitVec.allOnes 32) : byteAt mem addr = 0xFF := by
  have lane := (addr.extractLsb' 0 2).isLt
  rw [byteAt, ones]
  obtain zero | one | two | three : (addr.extractLsb' 0 2).toNat = 0 ∨
      (addr.extractLsb' 0 2).toNat = 1 ∨ (addr.extractLsb' 0 2).toNat = 2 ∨
      (addr.extractLsb' 0 2).toNat = 3 := by omega
  · rw [zero]; decide
  · rw [one]; decide
  · rw [two]; decide
  · rw [three]; decide

theorem byteAt_zero {mem : BitVec 30 → BitVec 32} {addr : BitVec 32}
    (zero : mem (wordIndex addr) = 0) : byteAt mem addr = 0 := by
  rw [byteAt, zero]
  exact BitVec.extractLsb'_zero

/-- The transfer on its own, from reset, over a prompt memory. -/
theorem promptInputs_ends (mem : BitVec 30 → BitVec 32) {src dst : BitVec 32}
    (length : BitVec 16) (aligned : DmaMaster.aligned src dst = true) :
    ∃ d, During (powerUp mem) (promptInputs src dst length) 0 d ∧
      (after (powerUp mem) (promptInputs src dst length) d).dma.doneO = true := by
  have accepted : Accepted (powerUp mem) (promptInputs src dst length) 0 := aligned
  exact accepted.ends ⟨fun t => ⟨t, le_refl t, rfl⟩, fun t => ⟨t, le_refl t, rfl⟩⟩

/-- A transfer that is not of whole words, or of none, writes past its range. -/
theorem WritesInside.whole {src dst : BitVec 32} {length : BitVec 16}
    (aligned : DmaMaster.aligned src dst = true) (other : src ≠ dst)
    (inside : WritesInside src dst length) : 0 < length.toNat ∧ 4 ∣ length.toNat := by
  by_contra part
  have fits := length.isLt
  obtain ⟨k, last⟩ : ∃ k, max 1 ((length.toNat + 3) / 4) = k + 1 :=
    ⟨max 1 ((length.toNat + 3) / 4) - 1, by omega⟩
  obtain ⟨d, during, done⟩ := promptInputs_ends (onesBut dst k) length aligned
  obtain ⟨n, -, mem, ends⟩ := during.memory
  obtain rfl : n = k + 1 := (ends done).trans last
  have ones := Transfer.copied_onesBut (x := ⟨onesBut dst k, src, dst, length⟩) rfl
    (aligned_iff.mp aligned) other (show k < 2 ^ 29 by omega)
  -- the last byte of the last word is past the range
  have word := wordIndex_byte (aligned_iff.mp aligned).2 k (show 3 < 4 by decide)
  have outside : ∀ j < length.toNat,
      dst + BitVec.ofNat 32 (4 * k + 3) ≠ dst + BitVec.ofNat 32 j := by
    intro j before same
    have values := congrArg BitVec.toNat ((BitVec.add_right_inj _).mp same)
    simp only [BitVec.toNat_ofNat] at values
    omega
  have same := inside _ _ 0 d during rfl rfl rfl _ outside
  rw [byteAt_ones (by rw [word, mem]; exact ones),
    byteAt_zero (by rw [word]; exact if_pos rfl)] at same
  exact absurd same (by decide)

/-- **A transfer changes no byte outside its range exactly when** its length is a positive
number of whole words, or source and destination are one. -/
theorem writes_inside_iff (src dst : BitVec 32) (length : BitVec 16)
    (aligned : DmaMaster.aligned src dst = true) :
    WritesInside src dst length ↔ (0 < length.toNat ∧ 4 ∣ length.toNat) ∨ src = dst := by
  constructor
  · intro inside
    by_cases same : src = dst
    · exact .inr same
    · exact .inl (inside.whole aligned same)
  · rintro whole s₀ ins s t during rfl rfl rfl addr outside
    obtain ⟨k, upto, mem, -⟩ := during.memory
    rw [mem]
    rcases whole with ⟨positive, words⟩ | same
    · refine Transfer.copied_outside (aligned_iff.mp aligned).2 ?_ outside
      unfold Transfer.moved Transfer.words at upto
      show 4 * k ≤ (ins s).lengthI.toNat
      have count : k ≤ max 1 (((ins s).lengthI.toNat + 3) / 4) := upto
      omega
    · rw [Transfer.copied_self same]
      rfl

/-- Eight bytes are copied inside their range. -/
theorem writes_inside_eight : WritesInside 0x20 0x40 8 :=
  (writes_inside_iff 0x20 0x40 8 (by decide)).mpr (.inl (by decide))

/-- Two bytes are copied as a whole word. -/
theorem two_bytes_write_past :
    ¬ ∀ (src dst : BitVec 32) (length : BitVec 16), DmaMaster.aligned src dst = true →
      WritesInside src dst length := by
  intro claim
  have inside := claim 0x20 0x40 2 (by decide)
  have whole := inside.whole (by decide) (by decide)
  exact absurd whole (by decide)

end MiniMac.Core.CopySystem
