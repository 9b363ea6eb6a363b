import Mathlib.Order.Interval.Set.Defs
import Mathlib.Order.Monotone.Basic

/-! Offsets in bytes. A character of a text starts at the byte where the UTF-8 of the characters before it
stops, so characters and the bytes at which they start are in the same order and each tells the other. -/

namespace LineGrammar

/-- The byte of a text at which its character of the given number starts. -/
def byteOffset : List Char → Nat → Nat
  | c :: cs, n + 1 => c.utf8Size + byteOffset cs n
  | _, _ => 0

/-- How many characters of a text stand before a byte. -/
def charsBefore : List Char → Nat → Nat
  | [], _ => 0
  | c :: cs, byte => if c.utf8Size ≤ byte then charsBefore cs (byte - c.utf8Size) + 1 else 0

theorem byteOffset_zero (text : List Char) : byteOffset text 0 = 0 := by
  rw [byteOffset]
  simp

theorem byteOffset_cons (c : Char) (cs : List Char) (n : Nat) :
    byteOffset (c :: cs) (n + 1) = c.utf8Size + byteOffset cs n := rfl

theorem byteOffset_lt_succ {text : List Char} {n : Nat} (h : n < text.length) :
    byteOffset text n < byteOffset text (n + 1) := by
  induction text generalizing n with
  | nil => exact absurd h (Nat.not_lt_zero n)
  | cons c cs ih =>
    cases n with
    | zero =>
      have hpos := Char.utf8Size_pos c
      rw [byteOffset_zero, byteOffset_cons]
      omega
    | succ n =>
      rw [byteOffset_cons, byteOffset_cons]
      exact Nat.add_lt_add_left (ih (Nat.lt_of_succ_lt_succ h)) _

theorem strictMonoOn_byteOffset (text : List Char) :
    StrictMonoOn (byteOffset text) (Set.Iic text.length) := by
  intro i _ j hj hij
  induction j with
  | zero => omega
  | succ j ih =>
    have hlt := byteOffset_lt_succ (Nat.lt_of_succ_le hj)
    rcases Nat.lt_or_eq_of_le (Nat.le_of_lt_succ hij) with hij | rfl
    · exact Nat.lt_trans (ih (Nat.le_of_succ_le hj) hij) hlt
    · exact hlt

/-- The characters before the byte at which a character starts are those before the character. -/
theorem charsBefore_byteOffset {text : List Char} {n : Nat} (h : n ≤ text.length) :
    charsBefore text (byteOffset text n) = n := by
  induction text generalizing n with
  | nil =>
    obtain rfl : n = 0 := by simpa using h
    rfl
  | cons c cs ih =>
    have hpos := Char.utf8Size_pos c
    cases n with
    | zero => rw [byteOffset_zero, charsBefore, if_neg (by omega)]
    | succ n =>
      rw [byteOffset_cons, charsBefore, if_pos (by omega), Nat.add_sub_cancel_left,
        ih (Nat.le_of_succ_le_succ h)]

example : byteOffset "a\u2003b".toList 2 = 4 ∧ charsBefore "a\u2003b".toList 4 = 2 := by decide

theorem byteOffset_length (text : String) :
    byteOffset text.toList text.toList.length = text.utf8ByteSize := by
  have hsize : ∀ cs : List Char, (String.ofList cs).utf8ByteSize = byteOffset cs cs.length := by
    intro cs
    induction cs with
    | nil => rfl
    | cons c cs ih =>
      rw [String.ofList_cons, String.utf8ByteSize_append, String.utf8ByteSize_singleton, ih,
        List.length_cons, byteOffset_cons]
  rw [← hsize, String.ofList_toList]

end LineGrammar
