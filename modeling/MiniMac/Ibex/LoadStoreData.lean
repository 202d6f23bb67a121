/-
# Ibex.LoadStoreData -- what a load or a store is for

A request of the load/store unit as an operation on a memory of bytes, and what the accesses
make of it on a memory of words: the byte enables and the rotated data of one or two accesses
put the bytes of the store in their places (`bytes_stored`), and the words that are returned
are put together to the value of the load (`dataRdataExt_eq`).
-/
import MiniMac.Ibex.LoadStoreUnit
import MiniMac.Macros.SramWrapper
import MiniMac.Theory.ByteLanes

namespace MiniMac.Ibex

open MiniMac.Theory MiniMac.Macros.SramWrapper LoadStoreUnit

set_option autoImplicit false

/-- A load or a store, as the decoder shows it. -/
structure Request where
  we : Bool
  type : BitVec 2
  signExt : Bool
  wdata : BitVec 32
  addr : BitVec 32

namespace Request

variable (r : Request)

/-- The number of bytes. -/
def size : ℕ :=
  match r.type with
  | 0b00#2 => 4
  | 0b01#2 => 2
  | _ => 1

/-- What a load returns. -/
def loaded (mem : BitVec 32 → BitVec 8) : BitVec 32 :=
  match r.type with
  | 0b00#2 => wordAt mem r.addr
  | 0b01#2 => extend r.signExt (halfAt mem r.addr)
  | _ => extend r.signExt (mem r.addr)

/-- What a store does. -/
def stored (mem : BitVec 32 → BitVec 8) (a : BitVec 32) : BitVec 8 :=
  if (a - r.addr).toNat < r.size then byte r.wdata (lane (a - r.addr)) else mem a

/-- What a load or a store does. -/
def exec (mem : BitVec 32 → BitVec 8) : BitVec 32 → BitVec 8 :=
  if r.we then r.stored mem else mem

/-- The request goes over the end of a word. -/
def split : Bool :=
  (r.type == 0b00#2 && lane r.addr != 0b00#2) || (r.type == 0b01#2 && lane r.addr == 0b11#2)

/-- The words of the accesses. -/
def index (second : Bool) : BitVec 30 :=
  if second then wordIndex r.addr + 1 else wordIndex r.addr

/-- What an access does to memory. -/
def access (second : Bool) (mem : BitVec 30 → BitVec 32) : BitVec 30 → BitVec 32 :=
  if r.we then
    Function.update mem (r.index second)
      (writeLanes (dataBe r.type second (lane r.addr)) (dataWdata (lane r.addr) r.wdata)
        (mem (r.index second)))
  else mem

/-- What all of them do. -/
def accesses (mem : BitVec 30 → BitVec 32) : BitVec 30 → BitVec 32 :=
  if r.split then r.access true (r.access false mem) else r.access false mem

end Request

/-! ## Stores -/

theorem size_le (r : Request) : r.size ≤ 4 := by
  unfold Request.size
  split <;> decide

/-- The size of a request of a type. -/
theorem dataBe_first (type lane l : BitVec 2) :
    (dataBe type false lane).getLsbD l.toNat = true ↔ lane.toNat ≤ l.toNat ∧
      l.toNat < lane.toNat + Request.size ⟨false, type, false, 0, 0⟩ := by
  revert type lane l
  decide

theorem dataBe_second (type lane l : BitVec 2)
    (split : (type == 0b00#2 && lane != 0b00#2) || (type == 0b01#2 && lane == 0b11#2)) :
    (dataBe type true lane).getLsbD l.toNat = true ↔
      l.toNat + 4 < lane.toNat + Request.size ⟨false, type, false, 0, 0⟩ := by
  revert type lane l
  decide

theorem fits_of_not_split (type lane : BitVec 2)
    (whole : ((type == 0b00#2 && lane != 0b00#2) || (type == 0b01#2 && lane == 0b11#2)) = false) :
    lane.toNat + Request.size ⟨false, type, false, 0, 0⟩ ≤ 4 := by
  revert type lane
  decide

theorem byte_writeLanes (mask : BitVec 4) (din old : BitVec 32) (l : BitVec 2) :
    byte (writeLanes mask din old) l =
      if mask.getLsbD l.toNat then byte din l else byte old l := by
  obtain rfl | rfl | rfl | rfl := two_bits l
  all_goals
    ext k bound
    simp only [byte, writeLanes, BitVec.getElem_extractLsb', BitVec.getLsbD_append,
      BitVec.getLsbD_extractLsb']
    grind

theorem byte_dataWdata (lane l : BitVec 2) (word : BitVec 32) :
    byte (dataWdata lane word) l = byte word (l - lane) := by
  obtain rfl | rfl | rfl | rfl := two_bits lane
  · exact congrArg (byte word) (BitVec.sub_zero l).symm
  all_goals
    obtain rfl | rfl | rfl | rfl := two_bits l
  all_goals
    ext k bound
    -- some of the bits need no more than the rewriting
    simp [byte, dataWdata] <;> grind

/-- The type alone makes the size. -/
theorem size_eq (r : Request) : r.size = Request.size ⟨false, r.type, false, 0, 0⟩ := rfl

/-- An access puts the bytes under its byte enables in their places. -/
theorem bytes_access (r : Request) (second : Bool) (store : r.we = true)
    (mem : BitVec 30 → BitVec 32) (a : BitVec 32) : bytes (r.access second mem) a =
      if wordIndex a = r.index second ∧
          (dataBe r.type second (lane r.addr)).getLsbD (lane a).toNat = true then
        byte r.wdata (lane (a - r.addr))
      else bytes mem a := by
  rw [Request.access, if_pos store, bytes]
  by_cases here : wordIndex a = r.index second
  · rw [here, Function.update_self, byte_writeLanes, byte_dataWdata, lane_sub, bytes, here]
    simp only [true_and]
  · rw [Function.update_of_ne here, if_neg (fun both => here both.1)]
    rfl

/-- **The accesses of a store put its bytes in their places**, and no others. -/
theorem bytes_accesses (r : Request) (mem : BitVec 30 → BitVec 32) :
    bytes (r.accesses mem) = r.exec (bytes mem) := by
  funext a
  cases store : r.we with
  | false =>
      simp [Request.accesses, Request.access, Request.exec, store]
  | true =>
      rw [Request.exec, if_pos store, Request.stored]
      have reach := toNat_sub_lt_iff r.addr a (size_le r)
      cases split : r.split with
      | false =>
          have fits := fits_of_not_split r.type (lane r.addr) split
          rw [← size_eq] at fits
          rw [Request.accesses, split, if_neg Bool.false_ne_true, bytes_access r _ store]
          refine if_congr ?_ rfl rfl
          rw [reach, dataBe_first, ← size_eq]
          constructor
          · exact .inl
          · rintro (here | ⟨-, beyond⟩)
            · exact here
            · omega
      | true =>
          rw [Request.accesses, if_pos split, bytes_access r _ store, bytes_access r _ store,
            ← ite_or]
          refine if_congr ?_ rfl rfl
          rw [reach, dataBe_second _ _ _ split, dataBe_first, ← size_eq, or_comm]
          rfl

/-! ## Loads -/

/-- The unit has latched the request. -/
structure Latched (r : Request) (s : State) : Prop where
  offset : s.rdataOffsetQ = lane r.addr
  type : s.dataTypeQ = r.type
  signExt : s.dataSignExtQ = r.signExt
  we : s.dataWeQ = r.we

section Loads

variable {r : Request} {s : State} (latched : Latched r s) (mem : BitVec 30 → BitVec 32)

include latched

theorem rdataBExt_eq (small : r.type = 2 ∨ r.type = 3) :
    rdataBExt s (mem (r.index r.split)) = extend r.signExt (bytes mem r.addr) := by
  have whole : r.split = false := by
    rcases small with type | type <;> simp [Request.split, type]
  rw [rdataBExt, latched.offset, latched.signExt, whole, bytes]
  obtain off | off | off | off := two_bits (lane r.addr)
  · rw [off]
    rfl
  · rw [off]
    rfl
  · rw [off]
    rfl
  · rw [off]
    rfl

variable (first : r.split = true → s.rdataQ = (mem (r.index false)).extractLsb' 8 24)

include first

theorem rdataHExt_eq (half : r.type = 1) :
    rdataHExt s (mem (r.index r.split)) = extend r.signExt (halfAt (bytes mem) r.addr) := by
  have b0 : bytes mem r.addr = byte (mem (wordIndex r.addr)) (lane r.addr) := rfl
  have b1 : bytes mem (r.addr + 1) = _ := bytes_add r.addr mem (k := 1) (by decide)
  rw [rdataHExt, latched.offset, latched.signExt, halfAt, b0, b1]
  obtain off | off | off | off := two_bits (lane r.addr)
  · have whole : r.split = false := by simp [Request.split, half, off]
    rw [whole, off]
    refine congrArg (extend r.signExt) ?_
    ext k bound
    simp [Request.index, byte]
    grind
  · have whole : r.split = false := by simp [Request.split, half, off]
    rw [whole, off]
    refine congrArg (extend r.signExt) ?_
    ext k bound
    simp [Request.index, byte]
    grind
  · have whole : r.split = false := by simp [Request.split, half, off]
    rw [whole, off]
    refine congrArg (extend r.signExt) ?_
    ext k bound
    simp [Request.index, byte]
    grind
  · have split : r.split = true := by simp [Request.split, half, off]
    rw [first split, split, off]
    refine congrArg (extend r.signExt) ?_
    ext k bound
    simp [Request.index, byte]
    grind

theorem rdataWExt_eq (word : r.type = 0) :
    rdataWExt s (mem (r.index r.split)) = wordAt (bytes mem) r.addr := by
  have b0 : bytes mem r.addr = byte (mem (wordIndex r.addr)) (lane r.addr) := rfl
  have b1 : bytes mem (r.addr + 1) = _ := bytes_add r.addr mem (k := 1) (by decide)
  have b2 : bytes mem (r.addr + 2) = _ := bytes_add r.addr mem (k := 2) (by decide)
  have b3 : bytes mem (r.addr + 3) = _ := bytes_add r.addr mem (k := 3) (by decide)
  rw [rdataWExt, latched.offset, wordAt, b0, b1, b2, b3]
  obtain off | off | off | off := two_bits (lane r.addr)
  · have whole : r.split = false := by simp [Request.split, word, off]
    rw [whole, off]
    ext k bound
    simp [Request.index, byte]
    grind
  · have split : r.split = true := by simp [Request.split, word, off]
    rw [first split, split, off]
    ext k bound
    simp [Request.index, byte]
    grind
  · have split : r.split = true := by simp [Request.split, word, off]
    rw [first split, split, off]
    ext k bound
    simp [Request.index, byte]
    grind
  · have split : r.split = true := by simp [Request.split, word, off]
    rw [first split, split, off]
    ext k bound
    simp [Request.index, byte]
    grind

/-- **The words that are returned make the value of the load.** -/
theorem dataRdataExt_eq : dataRdataExt s (mem (r.index r.split)) = r.loaded (bytes mem) := by
  rw [dataRdataExt, latched.type, Request.loaded]
  rcases two_bits r.type with word | half | small
  · rw [word]
    exact rdataWExt_eq latched mem first word
  · rw [half]
    exact rdataHExt_eq latched mem first half
  · have value := rdataBExt_eq latched mem small
    rcases small with type | type
    · rw [type]
      exact value
    · rw [type]
      exact value

end Loads

end MiniMac.Ibex
