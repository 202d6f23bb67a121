/-
# System.JobLedger -- what a job is for

The accelerator as its memory sees it.  A job reads two ranges of operand words and
writes one range of results.  The operands go behind those of all earlier jobs, since
the cores' write pointers are never rewound, so what a job computes depends on the
history: a `Ledger` is the memory and the operand words so far, and `Ledger.run` is
one job.
-/
import MiniMac.Accel.OperandBuffers
import MiniMac.Accel.WindowSum
import MiniMac.Theory.WordAddress
import MiniMac.Theory.WriteLog

namespace MiniMac.System

open MiniMac.Theory MiniMac.Accel

set_option autoImplicit false

/-- The bases, the words of each operand range, and the dimensions. -/
structure JobConfig where
  wgtBase : BitVec 32
  actBase : BitVec 32
  resBase : BitVec 32
  wgtWords : ℕ
  actWords : ℕ
  m : ℕ
  n : ℕ

/-- A memory of cells, and the operand words streamed so far. -/
structure Ledger (Cell : Type) where
  mem : Cell → BitVec 32
  weights : List (BitVec 32)
  activations : List (BitVec 32)

variable {Cell : Type} (cell : BitVec 32 → Cell)

/-- `n` consecutive words from an address. -/
def wordsFrom (mem : Cell → BitVec 32) (base : BitVec 32) (n : ℕ) : List (BitVec 32) :=
  (List.range n).map fun k => mem (cell (wordAddr base k))

@[simp] theorem wordsFrom_length (mem : Cell → BitVec 32) (base : BitVec 32) (n : ℕ) :
    (wordsFrom cell mem base n).length = n := by
  simp [wordsFrom]

theorem wordsFrom_getD (mem : Cell → BitVec 32) (base : BitVec 32) {n k : ℕ} (within : k < n) :
    (wordsFrom cell mem base n).getD k 0 = mem (cell (wordAddr base k)) := by
  simp [wordsFrom, within]

namespace Ledger

/-- The operands of a job come in. -/
def fetch (x : Ledger Cell) (job : JobConfig) : Ledger Cell :=
  { x with
    weights := x.weights ++ wordsFrom cell x.mem job.wgtBase job.wgtWords
    activations := x.activations ++ wordsFrom cell x.mem job.actBase job.actWords }

/-- The exact signed sum of a column over what the operand buffers hold. -/
def sum (rows : ℕ) {cols : ℕ} (x : Ledger Cell) (m n : ℕ) (c : Fin cols) : ℤ :=
  windowSum
    (fun (r : Fin rows) (c : Fin cols) => MacCoreAxi.heldWeight cols 8 x.weights r c)
    (fun r => MacCoreAxi.heldActivation 8 x.activations r) m n c

/-- The result word of a column. -/
def result (rows cols : ℕ) (x : Ledger Cell) (job : JobConfig) (k : ℕ) : BitVec 32 :=
  if within : k < cols then BitVec.ofInt 32 (x.sum rows job.m job.n ⟨k, within⟩) else 0

/-- The result words in the order in which they are written. -/
def writes (rows cols : ℕ) (x : Ledger Cell) (job : JobConfig) :
    List (Write Cell (BitVec 32)) :=
  (List.range job.n).map fun k =>
    Write.store (cell (wordAddr job.resBase k)) (x.result rows cols job k)

variable [DecidableEq Cell]

/-- One job. -/
def run (rows cols : ℕ) (x : Ledger Cell) (job : JobConfig) : Ledger Cell :=
  { x.fetch cell job with
    mem := replay x.mem ((x.fetch cell job).writes cell rows cols job) }

variable {cell} {rows cols : ℕ} {x : Ledger Cell} {job : JobConfig}

/-- Where the result cells are apart, each holds the sum of its column. -/
theorem run_result (apart : ∀ j k, j < job.n → k < job.n →
      cell (wordAddr job.resBase j) = cell (wordAddr job.resBase k) → j = k)
    (c : Fin cols) (within : c.val < job.n) :
    (x.run cell rows cols job).mem (cell (wordAddr job.resBase c)) =
      BitVec.ofInt 32 ((x.fetch cell job).sum rows job.m job.n c) := by
  have word : (x.fetch cell job).result rows cols job c =
      BitVec.ofInt 32 ((x.fetch cell job).sum rows job.m job.n c) := dif_pos c.isLt
  rw [← word]
  apply replay_hit
  · intro w member here
    obtain ⟨k, low, rfl⟩ := List.mem_map.mp member
    obtain rfl := apart k c (List.mem_range.mp low) within here
    rfl
  · exact ⟨_, List.mem_map_of_mem (List.mem_range.mpr within), rfl⟩

end Ledger

end MiniMac.System
