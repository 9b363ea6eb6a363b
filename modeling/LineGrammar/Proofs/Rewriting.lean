import LineGrammar.Proofs.Places
import Mathlib.Data.List.Basic
import Mathlib.Tactic.ByContra

/-! Replacing a name at some columns of a line. A rewriting acts on each part of the line by itself.
Where it replaces whole words it does not matter whether a part is recognised first or rewritten
first. -/

namespace LineGrammar

/-- A new name for an old one, at the columns of a line where the old one starts. -/
structure Rewriting where
  columns : List Nat
  old : List Char
  new : List Char

namespace Rewriting

/-- The column belongs to a name that is replaced, after its first character. -/
def covers (w : Rewriting) (i : Nat) : Bool :=
  w.columns.any fun start => decide (start < i ∧ i < start + w.old.length)

/-- What takes the place of the character at a column. -/
def out (w : Rewriting) (i : Nat) (c : Char) : List Char :=
  if i ∈ w.columns then w.new else if w.covers i then [] else [c]

/-- The characters that start at a column, rewritten. -/
def text (w : Rewriting) (i : Nat) : List Char → List Char
  | [] => []
  | c :: cs => w.out i c ++ w.text (i + 1) cs

/-- How many characters take the place of the one at a column. -/
def width (w : Rewriting) (i : Nat) : Nat :=
  if i ∈ w.columns then w.new.length else if w.covers i then 0 else 1

/-- Where a column has moved to. -/
def column (w : Rewriting) : Nat → Nat
  | 0 => 0
  | i + 1 => w.column i + w.width i

def slice (w : Rewriting) (s : Slice) : Slice := ⟨w.column s.column, w.text s.column s.chars⟩

theorem column_slice (w : Rewriting) (s : Slice) : (w.slice s).column = w.column s.column := rfl

theorem chars_slice (w : Rewriting) (s : Slice) :
    (w.slice s).chars = w.text s.column s.chars := rfl

theorem text_append (w : Rewriting) (i : Nat) (cs ds : List Char) :
    w.text i (cs ++ ds) = w.text i cs ++ w.text (i + cs.length) ds := by
  induction cs generalizing i with
  | nil => simp [text]
  | cons c cs ih =>
    rw [List.cons_append, text, ih, text, List.append_assoc, List.length_cons, Nat.add_assoc,
      Nat.add_comm 1]

theorem column_add (w : Rewriting) (i : Nat) (cs : List Char) :
    w.column (i + cs.length) = w.column i + (w.text i cs).length := by
  induction cs generalizing i with
  | nil => simp [text]
  | cons c cs ih =>
    have hwidth : (w.out i c).length = w.width i := by
      unfold out width
      split
      · rfl
      · split <;> rfl
    rw [text, List.length_append, hwidth, List.length_cons, ← Nat.add_assoc, Nat.add_right_comm, ih,
      column, Nat.add_assoc]

theorem text_of_nil {w : Rewriting} (h : w.columns = []) (i : Nat) (cs : List Char) :
    w.text i cs = cs := by
  induction cs generalizing i with
  | nil => rfl
  | cons c cs ih =>
    rw [text, ih]
    simp [out, covers, h]

theorem mem_text {w : Rewriting} {i : Nat} {cs : List Char} {d : Char} (h : d ∈ w.text i cs) :
    d ∈ cs ∨ d ∈ w.new := by
  induction cs generalizing i with
  | nil => cases h
  | cons c cs ih =>
    rcases List.mem_append.1 h with h | h
    · unfold out at h
      split at h
      · exact .inr h
      · split at h
        · cases h
        · exact .inl (List.mem_singleton.1 h ▸ List.mem_cons_self)
    · exact (ih h).imp (List.mem_cons_of_mem c) id

end Rewriting

open Rewriting

variable {w : Rewriting} {cs : List Char} {s part rest : Slice}

theorem Slice.Cut.rewrite (h : s.Cut part rest) : (w.slice s).Cut (w.slice part) (w.slice rest) where
  chars := by
    rw [chars_slice, h.chars, text_append, chars_slice, chars_slice, h.column, h.next]
  column := by rw [column_slice, column_slice, h.column]
  next := by rw [column_slice, column_slice, chars_slice, h.next, h.column, column_add]

theorem Slice.Whole.drop_eq (h : s.Whole cs) : ∃ back, cs.drop s.column = s.chars ++ back := by
  obtain ⟨front, back, rfl, hcolumn, -, -⟩ := h
  exact ⟨back, by rw [hcolumn, List.drop_left]⟩

/-- A word of the line lies inside of a part or outside of it. -/
theorem Slice.Whole.word_apart {t : Slice} (hs : s.Whole cs) (ht : t.IsWord cs) :
    t.stop ≤ s.column ∨ s.stop ≤ t.column ∨ s.column ≤ t.column ∧ t.stop ≤ s.stop := by
  -- A word that runs over an end of the part would go on there.
  have hover : ∀ {i : Nat}, i + 1 = s.column ∨ i + 1 = s.stop → t.column ≤ i → i + 1 < t.stop →
      False := by
    intro i hend hle hlt
    obtain ⟨c, hc, hci⟩ := ht.whole.getElem? hle (by omega)
    obtain ⟨d, hd, hdi⟩ := ht.whole.getElem? (Nat.le_succ_of_le hle) hlt
    have hnot := hs.boundary hend hci hdi (ht.text.chars c hc)
    exact absurd ((ht.text.chars d hd).symm.trans hnot) (by simp)
  have hle : s.column ≤ s.stop := Nat.le_add_right _ _
  by_contra hnot
  by_cases hstart : t.column < s.column
  · exact hover (i := s.column - 1) (.inl (by omega)) (by omega) (by omega)
  · exact hover (i := s.stop - 1) (.inr (by omega)) (by omega) (by omega)

/-- Two words of the line are the same or do not overlap. -/
theorem Slice.IsWord.eq_or_apart {t : Slice} (hs : s.IsWord cs) (ht : t.IsWord cs) :
    s = t ∨ t.stop ≤ s.column ∨ s.stop ≤ t.column := by
  by_contra hnot
  push Not at hnot
  obtain ⟨hne, hlt, hlt'⟩ := hnot
  have hspos := hs.pos
  have htpos := ht.pos
  rcases Nat.le_total s.column t.column with hle | hle
  · exact hne (hs.eq_of_touch ht (p := t.column) (by omega) (by omega))
  · exact hne (hs.eq_of_touch ht (p := s.column) (by omega) (by omega))

namespace Rewriting

/-- What is replaced are words of the line, and they are replaced by a name. -/
structure Fits (w : Rewriting) (cs : List Char) : Prop where
  old : IsNameText w.old
  new : IsNameText w.new
  words : ∀ start ∈ w.columns, (⟨start, w.old⟩ : Slice).IsWord cs

theorem Fits.mem_text (hw : w.Fits cs) {i : Nat} {ds : List Char} {d : Char} (h : d ∈ w.text i ds) :
    d ∈ ds ∨ isNameChar d = true :=
  (Rewriting.mem_text h).imp id (hw.new.chars d)

theorem Fits.length_pos (hw : w.Fits cs) : 0 < w.old.length :=
  List.length_pos_iff.2 (isSpelled_ne_nil hw.old)

section
variable (hw : w.Fits cs)
include hw

theorem text_of_apart {i : Nat} {ds : List Char}
    (h : ∀ start ∈ w.columns, start + w.old.length ≤ i ∨ i + ds.length ≤ start) :
    w.text i ds = ds := by
  have hpos := hw.length_pos
  induction ds generalizing i with
  | nil => rfl
  | cons d ds ih =>
    have hstart : i ∉ w.columns := fun hi => by
      have := h i hi
      simp only [List.length_cons] at this
      omega
    have hcovers : w.covers i = false := by
      simp only [covers, List.any_eq_false, decide_eq_true_eq]
      intro start hmem
      have := h start hmem
      simp only [List.length_cons] at this
      omega
    rw [text, out, if_neg hstart, hcovers, if_neg Bool.false_ne_true, ih]
    · rfl
    · intro start hmem
      have := h start hmem
      simp only [List.length_cons] at this
      omega

/-- A part in which no replaced name starts. -/
theorem text_of_free (hs : s.Whole cs) (h : ∀ start ∈ w.columns, s.column ≤ start → s.stop ≤ start) :
    w.text s.column s.chars = s.chars := by
  refine text_of_apart hw fun start hmem => ?_
  have hpos := hw.length_pos
  have hfree := h start hmem
  have hapart := hs.word_apart (hw.words start hmem)
  simp only [Slice.stop] at hfree hapart
  omega

/-- A part without names. -/
theorem text_of_plain (hs : s.Whole cs) (h : ∀ c ∈ s.chars, isNameChar c = false) :
    w.text s.column s.chars = s.chars := by
  refine text_of_free hw hs fun start hmem hle => ?_
  by_contra hlt
  obtain ⟨c, hc, hci⟩ := hs.getElem? hle (Nat.not_le.1 hlt)
  have hpos := hw.length_pos
  obtain ⟨d, hd, hdi⟩ := (hw.words start hmem).whole.getElem? (i := start) (Nat.le_refl _)
    (by simp only [Slice.stop]; omega)
  obtain rfl := Option.some.inj (hci.symm.trans hdi)
  exact absurd ((hw.old.chars c hd).symm.trans (h c hc)) (by simp)

theorem slice_of_plain (hs : s.Whole cs) (h : ∀ c ∈ s.chars, isNameChar c = false) :
    (w.slice s).chars = s.chars :=
  text_of_plain hw hs h

theorem text_old {start : Nat} (hstart : start ∈ w.columns) : w.text start w.old = w.new := by
  -- Nothing else starts inside of the word, so all its other characters are dropped.
  have hdrop : ∀ (ds : List Char) (i : Nat), start < i → i + ds.length ≤ start + w.old.length →
      w.text i ds = [] := by
    intro ds
    induction ds with
    | nil => exact fun _ _ _ => rfl
    | cons d ds ih =>
      intro i hlt hle
      simp only [List.length_cons] at hle
      have hnot : i ∉ w.columns := fun hi => by
        rcases (hw.words i hi).eq_or_apart (hw.words start hstart) with heq | happart
        · have : i = start := congrArg Slice.column heq
          omega
        · simp only [Slice.stop] at happart
          omega
      have hcovers : w.covers i = true := by
        simp only [covers, List.any_eq_true, decide_eq_true_eq]
        exact ⟨start, hstart, by omega, by omega⟩
      rw [text, out, if_neg hnot, if_pos hcovers, ih (i + 1) (by omega) (by omega)]
      rfl
  obtain ⟨c, more, hold⟩ := List.exists_cons_of_ne_nil (isSpelled_ne_nil hw.old)
  have hlength := congrArg List.length hold
  simp only [List.length_cons] at hlength
  rw [hold, text, out, if_pos hstart, hdrop more (start + 1) (by omega) (by omega), List.append_nil]

/-- A name of the line is replaced as a whole, or stays. -/
theorem text_of_word (hs : s.IsWord cs) :
    w.text s.column s.chars = if s.column ∈ w.columns then w.new else s.chars := by
  by_cases hstart : s.column ∈ w.columns
  · rw [if_pos hstart]
    have hpos := hw.length_pos
    have hsame := hs.eq_of_touch (hw.words _ hstart) (p := s.column) ⟨Nat.le_refl _, Nat.le_of_lt hs.pos⟩
      ⟨Nat.le_refl _, by simp only [Slice.stop]; omega⟩
    rw [show s.chars = w.old from congrArg Slice.chars hsame]
    exact text_old hw hstart
  · rw [if_neg hstart]
    refine text_of_apart hw fun start hmem => ?_
    rcases hs.eq_or_apart (hw.words start hmem) with heq | hapart
    · exact absurd (show s.column = start from congrArg Slice.column heq) fun h => hstart (h ▸ hmem)
    · exact hapart

theorem isNameText_of_word (hs : s.IsWord cs) : IsNameText (w.slice s).chars := by
  rw [chars_slice, text_of_word hw hs]
  split
  · exact hw.new
  · exact hs.text

/-- The first character of a part is not dropped. -/
theorem covers_column (hs : s.Whole cs) (hne : s.chars ≠ []) : w.covers s.column = false := by
  have hlength := List.length_pos_iff.2 hne
  simp only [covers, List.any_eq_false, decide_eq_true_eq]
  intro start hmem hin
  have hapart := hs.word_apart (hw.words start hmem)
  simp only [Slice.stop] at hapart
  omega

/-- A part keeps its first character, unless a name there is replaced by another one. -/
theorem exists_head (hs : s.Whole cs) {c : Char} {more : List Char} (hcs : s.chars = c :: more) :
    ∃ d more', (w.slice s).chars = d :: more' ∧
      (d = c ∨ isNameStart c = true ∧ isNameStart d = true) := by
  rw [chars_slice, hcs, text, out, covers_column hw hs (by simp [hcs]), if_neg Bool.false_ne_true]
  by_cases hstart : s.column ∈ w.columns
  · rw [if_pos hstart]
    obtain ⟨d, more', hnew⟩ := List.exists_cons_of_ne_nil (isSpelled_ne_nil hw.new)
    obtain ⟨b, more'', hold⟩ := List.exists_cons_of_ne_nil (isSpelled_ne_nil hw.old)
    obtain ⟨back, hback⟩ := hs.drop_eq
    obtain ⟨back', hback'⟩ := (hw.words _ hstart).whole.drop_eq
    have hsame : c = b := by
      dsimp only at hback'
      rw [hback, hcs, hold] at hback'
      exact (List.cons.inj hback').1
    have hnewText := hw.new
    have holdText := hw.old
    rw [IsNameText, hnew] at hnewText
    rw [IsNameText, hold] at holdText
    rw [hnew]
    exact ⟨d, _, rfl, .inr ⟨hsame ▸ (isSpelled_cons.1 holdText).1, (isSpelled_cons.1 hnewText).1⟩⟩
  · rw [if_neg hstart]
    exact ⟨c, _, rfl, .inl rfl⟩

theorem head_slice (hs : s.Whole cs) {p : Char → Prop} (hname : ∀ c, isNameStart c = true → p c)
    (h : ∀ c ∈ s.chars.head?, p c) : ∀ d ∈ (w.slice s).chars.head?, p d := by
  intro d hd
  cases hcs : s.chars with
  | nil => rw [chars_slice, hcs] at hd; cases hd
  | cons c more =>
    obtain ⟨d', more', htext, hhead⟩ := exists_head hw hs hcs
    rw [htext] at hd
    obtain rfl := Option.some.inj hd
    rcases hhead with rfl | ⟨-, hd⟩
    · exact h d' (by rw [hcs]; rfl)
    · exact hname d' hd

/-- A part that does not start with a name is left alone there. -/
theorem head_slice_of_not_name (hs : s.Whole cs) {p : Char → Prop}
    (h : ∀ c ∈ s.chars.head?, isNameStart c = false ∧ p c) : ∀ d ∈ (w.slice s).chars.head?, p d := by
  intro d hd
  cases hcs : s.chars with
  | nil => rw [chars_slice, hcs] at hd; cases hd
  | cons c more =>
    obtain ⟨hc, hp⟩ := h c (by rw [hcs]; rfl)
    obtain ⟨d', more', htext, hhead⟩ := exists_head hw hs hcs
    rw [htext] at hd
    obtain rfl := Option.some.inj hd
    rcases hhead with rfl | ⟨hname, -⟩
    · exact hp
    · exact absurd (hname.symm.trans hc) (by simp)

theorem slice_eq_nil (hs : s.Whole cs) : (w.slice s).chars = [] ↔ s.chars = [] := by
  constructor
  · intro h
    cases hcs : s.chars with
    | nil => rfl
    | cons c more =>
      obtain ⟨d, more', htext, -⟩ := exists_head hw hs hcs
      exact absurd (htext.symm.trans h) (by simp)
  · intro h
    rw [chars_slice, h]
    rfl

/-- A part that ends with a name that is replaced. -/
theorem slice_of_word_at_end (hs : s.Whole cs) {start : Nat} (hmem : start ∈ w.columns)
    (hstart : s.column ≤ start) (hstop : start + w.old.length = s.stop) :
    ∃ front, s.chars = front ++ w.old ∧ (w.slice s).chars = w.text s.column front ++ w.new := by
  obtain ⟨k, rfl⟩ := Nat.exists_eq_add_of_le hstart
  rw [Slice.stop, Nat.add_assoc] at hstop
  have hlength : s.chars.length = k + w.old.length := (Nat.add_left_cancel hstop).symm
  have hk : k ≤ s.chars.length := hlength ▸ Nat.le_add_right _ _
  have hsplit : s.chars = s.chars.take k ++ w.old := by
    obtain ⟨back, hback⟩ := hs.drop_eq
    obtain ⟨back', hback'⟩ := (hw.words _ hmem).whole.drop_eq
    have hdrop : s.chars.drop k ++ back = w.old ++ back' := by
      rw [← List.drop_append_of_le_length hk, ← hback, List.drop_drop]
      exact hback'
    have hold : s.chars.drop k = w.old := by
      refine (List.append_inj hdrop ?_).1
      rw [List.length_drop, hlength, Nat.add_sub_cancel_left]
    rw [← hold, List.take_append_drop]
  refine ⟨s.chars.take k, hsplit, ?_⟩
  have htext := w.text_append s.column (s.chars.take k) w.old
  rw [← hsplit, List.length_take, Nat.min_eq_left hk, text_old hw hmem] at htext
  exact htext

omit hw in
theorem isNameChar_of_last {name : List Char} (h : IsNameText name) (front : List Char) :
    ∀ c ∈ (front ++ name).getLast?, isNameChar c = true := by
  intro c hc
  rw [List.getLast?_append, List.getLast?_eq_some_getLast (isSpelled_ne_nil h)] at hc
  exact Option.some.inj hc ▸ h.chars _ (List.getLast_mem _)

/-- A part keeps its last character, unless a name there is replaced by another one. -/
theorem last_slice (hs : s.Whole cs) :
    ∀ d ∈ (w.slice s).chars.getLast?, ∃ c ∈ s.chars.getLast?,
      d = c ∨ isNameChar c = true ∧ isNameChar d = true := by
  intro d hd
  rcases List.eq_nil_or_concat' s.chars with hnil | ⟨init, c, hcs⟩
  · rw [chars_slice, hnil] at hd
    cases hd
  refine ⟨c, by simp [hcs], ?_⟩
  have hstop : s.stop = s.column + init.length + 1 := by simp [Slice.stop, hcs, Nat.add_assoc]
  by_cases hfree : ∀ start ∈ w.columns, start + w.old.length ≤ s.column + init.length ∨
      s.column + init.length + 1 ≤ start
  · have hlast : w.text (s.column + init.length) [c] = [c] := text_of_apart hw hfree
    rw [chars_slice, hcs, text_append, hlast, List.getLast?_concat] at hd
    exact .inl (Option.some.inj hd).symm
  · -- The last character belongs to a name that is replaced, and the part ends with this name.
    push Not at hfree
    obtain ⟨start, hmem, hlt, hle⟩ := hfree
    have hapart := hs.word_apart (hw.words start hmem)
    simp only [Slice.stop] at hapart hstop
    obtain ⟨front, hold, hnew⟩ := slice_of_word_at_end hw hs hmem (by omega)
      (by rw [Slice.stop]; omega)
    have hc : c ∈ s.chars.getLast? := by simp [hcs]
    rw [hold] at hc
    rw [hnew] at hd
    exact .inr ⟨isNameChar_of_last hw.old _ c hc, isNameChar_of_last hw.new _ d hd⟩

theorem last_slice_of_solid (hs : s.Whole cs) (h : ∀ c ∈ s.chars.getLast?, isBlank c = false) :
    ∀ d ∈ (w.slice s).chars.getLast?, isBlank d = false := by
  intro d hd
  obtain ⟨c, hc, rfl | ⟨-, hname⟩⟩ := last_slice hw hs d hd
  · exact h d hc
  · exact isBlank_of_isNameChar hname

end

end Rewriting

end LineGrammar
