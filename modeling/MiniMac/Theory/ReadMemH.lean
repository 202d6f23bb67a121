/-
# Theory.ReadMemH -- memory images as hexadecimal text

The text that `$readmemh` loads: hexadecimal numbers for successive words, addresses
behind an at sign, white space and both kinds of comments.  It is read by an automaton
over the characters; `read_line` is the round trip of one number that was written with
leading zeros and a newline, from which that of a whole image follows.
-/
import Mathlib.Algebra.Ring.Nat
import Mathlib.Data.Int.Notation
import Mathlib.Data.List.Basic
import Mathlib.Logic.Function.Basic

namespace MiniMac.Theory.ReadMemH

set_option autoImplicit false

/-! ## Reading -/

/-- The value of a hexadecimal digit. -/
def digit (c : Char) : Option ℕ :=
  if '0' ≤ c ∧ c ≤ '9' then some (c.toNat - '0'.toNat)
  else if 'a' ≤ c ∧ c ≤ 'f' then some (c.toNat - 'a'.toNat + 10)
  else if 'A' ≤ c ∧ c ≤ 'F' then some (c.toNat - 'A'.toNat + 10)
  else none

/-- A digit of unknown or floating bits. -/
def isUnknown (c : Char) : Bool := c == 'x' || c == 'X' || c == 'z' || c == 'Z' || c == '?'

/-- A space, tab, newline, form feed or carriage return. -/
def isSpace (c : Char) : Bool :=
  c == ' ' || c == '\t' || c == '\n' || c == '\x0c' || c == '\r'

/-- What the last characters are part of. -/
inductive Mode where
  | space
  /-- A number; without a value if some of its bits are not known. -/
  | number (value : Option ℕ)
  | atSign
  | address (value : ℕ)
  | slash
  | lineComment
  | blockComment
  | blockStar
  deriving DecidableEq

structure Reader (w : ℕ) where
  mode : Mode
  /-- The address of the next word. -/
  next : ℕ
  /-- The words that are loaded, as far as all their bits are known. -/
  mem : ℕ → Option (BitVec w)

variable {w : ℕ}

/-- The number or address that ends here takes effect. -/
def close (r : Reader w) : Reader w :=
  match r.mode with
  | .number value =>
      { mode := .space
        next := r.next + 1
        mem := Function.update r.mem r.next (value.map (BitVec.ofNat w)) }
  | .address value => { r with mode := .space, next := value }
  | _ => { r with mode := .space }

/-- A character between two tokens. -/
def separator (r : Reader w) (c : Char) : Option (Reader w) :=
  if isSpace c then some { r with mode := .space }
  else if c = '/' then some { r with mode := .slash }
  else none

/-- One character. -/
def read (r : Reader w) (c : Char) : Option (Reader w) :=
  match r.mode with
  | .space =>
      if let some d := digit c then some { r with mode := .number (some d) }
      else if isUnknown c then some { r with mode := .number none }
      else if c = '@' then some { r with mode := .atSign }
      else separator r c
  | .number value =>
      if let some d := digit c then some { r with mode := .number (value.map (16 * · + d)) }
      else if isUnknown c then some { r with mode := .number none }
      else if c = '_' then some r
      else separator (close r) c
  | .atSign => (digit c).map fun d => { r with mode := .address d }
  | .address value =>
      if let some d := digit c then some { r with mode := .address (16 * value + d) }
      else if c = '_' then some r
      else separator (close r) c
  | .slash =>
      if c = '/' then some { r with mode := .lineComment }
      else if c = '*' then some { r with mode := .blockComment }
      else none
  | .lineComment => some (if c = '\n' then { r with mode := .space } else r)
  | .blockComment => some (if c = '*' then { r with mode := .blockStar } else r)
  | .blockStar =>
      some (if c = '/' then { r with mode := .space }
        else if c = '*' then r
        else { r with mode := .blockComment })

/-- The end of the text; a comment must not be open. -/
def finish (r : Reader w) : Option (Reader w) :=
  match r.mode with
  | .atSign | .slash | .blockComment | .blockStar => none
  | _ => some (close r)

/-- The memory of `depth` words after the text is loaded, if it is well formed. -/
def readmemh (w depth : ℕ) (text : List Char) : Option (ℕ → Option (BitVec w)) := do
  let r ← text.foldlM read ⟨.space, 0, fun _ => none⟩
  let r ← finish r
  return fun a => if a < depth then r.mem a else none

/-! ## Writing -/

/-- A number as at least `width` digits, with a sign before them that counts as one. -/
def format (width : ℕ) (value : ℤ) : List Char :=
  let digits := Nat.toDigits 16 value.natAbs
  if value < 0 then '-' :: (List.replicate (width - 1 - digits.length) '0' ++ digits)
  else List.replicate (width - digits.length) '0' ++ digits

/-- One number a line. -/
def lines (width : ℕ) (words : List ℤ) : List Char :=
  words.flatMap fun value => format width value ++ ['\n']

/-! ## One number -/

/-- The digits that are written are read with their values. -/
theorem digit_digitChar : ∀ d < 16, digit (Nat.digitChar d) = some d := by
  decide

/-- A digit begins a number as it goes on with the number 0. -/
theorem read_first (r : Reader w) {c : Char} {d : ℕ} (isDigit : digit c = some d) :
    read { r with mode := .space } c = read { r with mode := .number (some 0) } c := by
  simp [read, isDigit]

theorem read_digit (r : Reader w) (value : ℕ) {d : ℕ} (small : d < 16) :
    read { r with mode := .number (some value) } (Nat.digitChar d) =
      some { r with mode := .number (some (16 * value + d)) } := by
  simp [read, digit_digitChar d small]

/-- The digits of a number go on with the number before them. -/
theorem read_digits (r : Reader w) (n : ℕ) : ∀ value,
    (Nat.toDigits 16 n).foldlM read { r with mode := .number (some value) } =
      some { r with mode := .number (some (16 ^ (Nat.toDigits 16 n).length * value + n)) } := by
  induction n using Nat.strongRecOn with
  | ind n ih =>
      intro value
      rcases Nat.lt_or_ge n 16 with small | large
      · rw [Nat.toDigits_of_lt_base small]
        simp [read_digit r value small]
      · have last := read_digit r
          (16 ^ (Nat.toDigits 16 (n / 16)).length * value + n / 16) (Nat.mod_lt n (by decide))
        have value_eq : 16 * (16 ^ (Nat.toDigits 16 (n / 16)).length * value + n / 16) + n % 16 =
            16 ^ ((Nat.toDigits 16 (n / 16)).length + 1) * value + n := by
          rw [Nat.pow_succ, Nat.mul_add, ← Nat.mul_assoc, Nat.mul_comm 16]
          omega
        rw [Nat.toDigits_of_base_le (by decide) large, List.foldlM_append, ih (n / 16) (by omega)]
        simp only [Option.bind_eq_bind, Option.bind_some, List.foldlM_cons, List.foldlM_nil, last,
          List.length_append, List.length_singleton, value_eq]
        rfl

/-- Leading zeros do not change the number 0. -/
theorem read_zeros (r : Reader w) (k : ℕ) :
    (List.replicate k '0').foldlM read { r with mode := .number (some 0) } =
      some { r with mode := .number (some 0) } := by
  induction k with
  | zero => rfl
  | succ k ih =>
      have zero := read_digit r 0 (d := 0) (by decide)
      rw [List.replicate_succ, List.foldlM_cons]
      exact (congrArg (· >>= _) zero).trans ih

/-- The first digit of a number is read as a digit after the number 0. -/
theorem read_start (r : Reader w) (n : ℕ) :
    (Nat.toDigits 16 n).foldlM read { r with mode := .space } =
      (Nat.toDigits 16 n).foldlM read { r with mode := .number (some 0) } := by
  induction n using Nat.strongRecOn with
  | ind n ih =>
      rcases Nat.lt_or_ge n 16 with small | large
      · simp [Nat.toDigits_of_lt_base small, read_first r (digit_digitChar n small)]
      · rw [Nat.toDigits_of_base_le (by decide) large, List.foldlM_append, List.foldlM_append,
          ih (n / 16) (by omega)]

/-- A number behind any number of zeros. -/
theorem read_padded (r : Reader w) (k n : ℕ) :
    (List.replicate k '0' ++ Nat.toDigits 16 n).foldlM read { r with mode := .space } =
      some { r with mode := .number (some n) } := by
  have value := read_digits r n 0
  rw [Nat.mul_zero, Nat.zero_add] at value
  cases k with
  | zero => exact (read_start r n).trans value
  | succ k =>
      have first := read_first r (c := '0') (d := 0) (by decide)
      rw [List.replicate_succ, List.cons_append, List.foldlM_cons, first, ← List.foldlM_cons,
        ← List.cons_append, ← List.replicate_succ, List.foldlM_append, read_zeros]
      exact value

/-- A word is stored behind the words before it. -/
def store (r : Reader w) (word : BitVec w) : Reader w where
  mode := .space
  next := r.next + 1
  mem := Function.update r.mem r.next (some word)

/-- **A line of one number is read as its word**; a negative number is refused. -/
theorem read_line (width : ℕ) (value : ℤ) (r : Reader w) (space : r.mode = .space) :
    (format width value ++ ['\n']).foldlM read r =
      if 0 ≤ value then some (store r (BitVec.ofInt w value)) else none := by
  obtain ⟨mode, next, mem⟩ := r
  obtain rfl : mode = .space := space
  by_cases sign : 0 ≤ value
  · obtain ⟨n, rfl⟩ := Int.eq_ofNat_of_zero_le sign
    have text : format width n = List.replicate (width - (Nat.toDigits 16 n).length) '0' ++
        Nat.toDigits 16 n := by
      simp [format, Int.not_lt.mpr sign]
    rw [text, List.foldlM_append, if_pos sign,
      read_padded ⟨.space, next, mem⟩ (width - (Nat.toDigits 16 n).length) n,
      BitVec.ofInt_natCast]
    rfl
  · rw [if_neg sign, format, if_pos (Int.not_le.mp sign)]
    rfl

/-! ## A whole image -/

/-- The memory after a list of words is loaded at an address. -/
def loaded (mem : ℕ → Option (BitVec w)) (start : ℕ) (words : List ℤ) (a : ℕ) :
    Option (BitVec w) :=
  if start ≤ a ∧ a < start + words.length then some (BitVec.ofInt w (words.getD (a - start) 0))
  else mem a

theorem loaded_nil (mem : ℕ → Option (BitVec w)) (start : ℕ) : loaded mem start [] = mem := by
  funext a
  exact if_neg fun both => absurd both.2 (Nat.not_lt.mpr both.1)

theorem loaded_cons (mem : ℕ → Option (BitVec w)) (start : ℕ) (value : ℤ) (words : List ℤ) :
    loaded (Function.update mem start (some (BitVec.ofInt w value))) (start + 1) words =
      loaded mem start (value :: words) := by
  funext a
  rcases Nat.lt_trichotomy a start with low | rfl | high
  · have other := Function.update_of_ne (Nat.ne_of_lt low) (some (BitVec.ofInt w value)) mem
    rw [loaded, loaded, if_neg (by omega), if_neg (by omega), other]
  · have here := Function.update_self a (some (BitVec.ofInt w value)) mem
    rw [loaded, loaded, if_neg (by omega), if_pos ⟨Nat.le_refl a, by simp⟩, here]
    simp
  · obtain ⟨k, rfl⟩ : ∃ k, a = start + 1 + k := ⟨a - (start + 1), by omega⟩
    have other := Function.update_of_ne (Nat.ne_of_gt high) (some (BitVec.ofInt w value)) mem
    have index : start + 1 + k - start = k + 1 := by omega
    simp only [loaded, List.length_cons, index, Nat.add_sub_cancel_left, List.getD_cons_succ, other]
    congr 1
    exact propext ⟨fun both => ⟨by omega, by omega⟩, fun both => ⟨by omega, by omega⟩⟩

/-- **An image is read as its words**, unless one of them is negative. -/
theorem read_lines (width : ℕ) (words : List ℤ) : ∀ r : Reader w, r.mode = .space →
    (lines width words).foldlM read r =
      if ∀ value ∈ words, 0 ≤ value then
        some ⟨.space, r.next + words.length, loaded r.mem r.next words⟩
      else none := by
  induction words with
  | nil =>
      rintro ⟨mode, next, mem⟩ rfl
      simp [lines, loaded_nil]
  | cons value words ih =>
      intro r space
      have text : lines width (value :: words) =
          (format width value ++ ['\n']) ++ lines width words := rfl
      rw [text, List.foldlM_append, read_line width value r space]
      by_cases sign : 0 ≤ value
      · have rest := ih (store r (BitVec.ofInt w value)) rfl
        have length : r.next + 1 + words.length = r.next + (words.length + 1) := by omega
        simp only [store, loaded_cons, length] at rest
        simp only [List.forall_mem_cons, sign, true_and, List.length_cons]
        exact rest
      · simp [sign]

/-- The image of a list of words loads exactly if none is negative, and then the words are
in memory from its beginning on, as far as it reaches. -/
theorem readmemh_lines (w depth width : ℕ) (words : List ℤ) :
    readmemh w depth (lines width words) =
      if ∀ value ∈ words, 0 ≤ value then
        some fun a => if a < depth ∧ a < words.length then
          some (BitVec.ofInt w (words.getD a 0)) else none
      else none := by
  rw [readmemh, read_lines width words _ rfl]
  by_cases signs : ∀ value ∈ words, 0 ≤ value
  · simp only [if_pos signs, Option.bind_eq_bind, Option.bind_some, finish, close, pure, loaded]
    congr 1
    funext a
    by_cases within : a < depth <;> simp [within]
  · rw [if_neg signs, if_neg signs]
    rfl

end MiniMac.Theory.ReadMemH
