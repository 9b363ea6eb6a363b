import LineGrammar.Proofs.Sequences
import LineGrammar.Proofs.TokenText

/-! Where the parts of a line stand. Whatever is recognised in a line stands there at its own column
and cuts no word of the line, so two names in one line are the same word or have a gap between
them. -/

namespace LineGrammar

/-- No word runs from the first text into the second. -/
def Apart (cs ds : List Char) : Prop :=
  ∀ c ∈ cs.getLast?, ∀ d ∈ ds.head?, isNameChar c = true → isNameChar d = false

theorem apart_nil (ds : List Char) : Apart [] ds := by simp [Apart]

theorem apart_of_last {cs : List Char} (h : ∀ c ∈ cs.getLast?, isNameChar c = false)
    (ds : List Char) : Apart cs ds := by
  intro c hc d _ hname
  exact absurd ((h c hc).symm.trans hname) (by simp)

theorem apart_of_head {ds : List Char} (h : ∀ d ∈ ds.head?, isNameChar d = false)
    (cs : List Char) : Apart cs ds := fun _ _ d hd _ => h d hd

theorem apart_append_left {cs part ds : List Char} (hne : part ≠ []) (h : Apart part ds) :
    Apart (cs ++ part) ds := by
  intro c hc
  rw [List.getLast?_append, List.getLast?_eq_some_getLast hne] at hc
  exact h c (by rw [List.getLast?_eq_some_getLast hne]; exact hc)

theorem apart_append_right {cs part ds : List Char} (hne : part ≠ []) (h : Apart cs part) :
    Apart cs (part ++ ds) := by
  obtain ⟨e, more, rfl⟩ := List.exists_cons_of_ne_nil hne
  exact h

namespace Slice

/-- The slice stands in the line at its column, and cuts no word there. -/
def Whole (cs : List Char) (s : Slice) : Prop :=
  ∃ front back, cs = front ++ (s.chars ++ back) ∧ s.column = front.length ∧
    Apart front (s.chars ++ back) ∧ Apart (front ++ s.chars) back

/-- The slice is a name in the line. -/
structure IsWord (cs : List Char) (s : Slice) : Prop where
  whole : s.Whole cs
  text : IsNameText s.chars

theorem whole_self (cs : List Char) : (⟨0, cs⟩ : Slice).Whole cs :=
  ⟨[], [], by simp, rfl, apart_nil _, by simp [Apart]⟩

theorem IsWord.pos {cs : List Char} {s : Slice} (h : s.IsWord cs) : s.column < s.stop := by
  have hlength := List.length_pos_iff.2 (isSpelled_ne_nil h.text)
  simp only [Slice.stop]
  omega

theorem Ends.column_le {rest s : Slice} (h : rest.Ends s) : s.column ≤ rest.column := by
  have hlength := h.length_le
  have hstop := h.stop
  simp only [Slice.stop] at hstop
  omega

theorem column_le_trimStart (s : Slice) : s.column ≤ s.trimStart.column :=
  (ends_trimStart s).column_le

variable {cs : List Char} {s part rest : Slice}

/-- A cut between two words. -/
theorem Whole.cut (h : s.Whole cs) (hcut : s.Cut part rest) (hapart : Apart part.chars rest.chars) :
    part.Whole cs ∧ rest.Whole cs := by
  obtain ⟨front, back, hcs, hcolumn, hstart, hstop⟩ := h
  rw [hcut.chars] at hcs hstart hstop
  have hbetween : Apart (front ++ part.chars) (rest.chars ++ back) := by
    by_cases hpart : part.chars = []
    · simpa [hpart] using hstart
    · by_cases hrest : rest.chars = []
      · simpa [hrest] using hstop
      · exact apart_append_left hpart (apart_append_right hrest hapart)
  refine ⟨⟨front, rest.chars ++ back, by rw [hcs, List.append_assoc], ?_, ?_, hbetween⟩,
    ⟨front ++ part.chars, back, by rw [hcs]; simp, ?_, hbetween, ?_⟩⟩
  · rw [hcut.column, hcolumn]
  · rwa [List.append_assoc] at hstart
  · rw [hcut.next, hcolumn, List.length_append]
  · rwa [← List.append_assoc] at hstop

/-- The empty slice at the end of another one. -/
theorem Whole.atStop (h : s.Whole cs) : (⟨s.stop, []⟩ : Slice).Whole cs :=
  have hcut : s.Cut s ⟨s.stop, []⟩ := ⟨(List.append_nil _).symm, rfl, rfl⟩
  (h.cut hcut (by simp [Apart])).2

theorem Whole.getElem? (h : s.Whole cs) {i : Nat} (hi : s.column ≤ i) (hstop : i < s.stop) :
    ∃ c ∈ s.chars, cs[i]? = some c := by
  obtain ⟨front, back, rfl, hcolumn, -, -⟩ := h
  simp only [Slice.stop] at hstop
  have hlt : i - front.length < s.chars.length := by omega
  refine ⟨s.chars[i - front.length], List.getElem_mem hlt, ?_⟩
  rw [List.getElem?_append_right (by omega), List.getElem?_append_left hlt,
    List.getElem?_eq_getElem hlt]

/-- At neither end of the slice a word runs on. -/
theorem Whole.boundary (h : s.Whole cs) {i : Nat} (hi : i + 1 = s.column ∨ i + 1 = s.stop)
    {c d : Char} (hc : cs[i]? = some c) (hd : cs[i + 1]? = some d) (hname : isNameChar c = true) :
    isNameChar d = false := by
  have key : ∀ {xs ys : List Char}, cs = xs ++ ys → Apart xs ys → i + 1 = xs.length →
      isNameChar d = false := by
    rintro xs ys rfl hapart hlength
    refine hapart c ?_ d ?_ hname
    · rw [Option.mem_def, List.getLast?_eq_getElem?, ← hlength, Nat.add_sub_cancel]
      rwa [List.getElem?_append_left (by omega)] at hc
    · rw [Option.mem_def, List.head?_eq_getElem?]
      rwa [List.getElem?_append_right (by omega), hlength, Nat.sub_self] at hd
  obtain ⟨front, back, hcs, hcolumn, hstart, hstop⟩ := h
  rcases hi with hi | hi
  · exact key hcs hstart (hi.trans hcolumn)
  · refine key (hcs.trans (List.append_assoc ..).symm) hstop ?_
    rw [hi, Slice.stop, hcolumn, List.length_append]

theorem Whole.eq_of_extent {t : Slice} (hs : s.Whole cs) (ht : t.Whole cs)
    (hcolumn : s.column = t.column) (hstop : s.stop = t.stop) : s = t := by
  obtain ⟨column, xs⟩ := s
  obtain ⟨column', ys⟩ := t
  obtain ⟨front, back, hcs, hfront, -, -⟩ := hs
  obtain ⟨front', back', hcs', hfront', -, -⟩ := ht
  simp only [Slice.stop] at hcolumn hstop hcs hcs' hfront hfront'
  have hlength : xs.length = ys.length := by omega
  obtain ⟨-, hrest⟩ := List.append_inj (hcs.symm.trans hcs') (by omega)
  rw [hcolumn, (List.append_inj hrest hlength).1]

theorem IsWord.no_word_at {t : Slice} (hs : s.IsWord cs) (ht : t.IsWord cs) {i : Nat}
    (hi : s.column ≤ i) (hstop : i < s.stop) (hnext : i + 1 < t.stop) (hle : t.column ≤ i + 1)
    (hend : i + 1 = s.stop ∨ i + 1 = t.column) : False := by
  obtain ⟨c, hc, hci⟩ := hs.whole.getElem? hi hstop
  obtain ⟨d, hd, hdi⟩ := ht.whole.getElem? hle hnext
  have hnot : isNameChar d = false := by
    rcases hend with hend | hend
    · exact hs.whole.boundary (.inr hend) hci hdi (hs.text.chars c hc)
    · exact ht.whole.boundary (.inl hend) hci hdi (hs.text.chars c hc)
  exact absurd ((ht.text.chars d hd).symm.trans hnot) (by simp)

/-- Two names that share a column, or only meet at one, are the same word. -/
theorem IsWord.eq_of_touch {t : Slice} (hs : s.IsWord cs) (ht : t.IsWord cs) {p : Nat}
    (hsp : s.column ≤ p ∧ p ≤ s.stop) (htp : t.column ≤ p ∧ p ≤ t.stop) : s = t := by
  have hspos := hs.pos
  have htpos := ht.pos
  have hcolumn : s.column = t.column := by
    rcases Nat.lt_trichotomy s.column t.column with hlt | heq | hgt
    · exact (hs.no_word_at ht (i := t.column - 1) (by omega) (by omega) (by omega) (by omega)
        (.inr (by omega))).elim
    · exact heq
    · exact (ht.no_word_at hs (i := s.column - 1) (by omega) (by omega) (by omega) (by omega)
        (.inr (by omega))).elim
  refine hs.whole.eq_of_extent ht.whole hcolumn ?_
  rcases Nat.lt_trichotomy s.stop t.stop with hlt | heq | hgt
  · exact (hs.no_word_at ht (i := s.stop - 1) (by omega) (by omega) (by omega) (by omega)
      (.inl (by omega))).elim
  · exact heq
  · exact (ht.no_word_at hs (i := t.stop - 1) (by omega) (by omega) (by omega) (by omega)
      (.inl (by omega))).elim

theorem Whole.splitWhile {p : Char → Bool}
    (hp : (∀ c, isNameChar c = true → p c = true) ∨ ∀ c, isNameChar c = true → p c = false)
    (h : s.Whole cs) : (s.splitWhile p).1.Whole cs ∧ (s.splitWhile p).2.Whole cs := by
  refine h.cut (cut_split _ s) ?_
  rw [chars_splitWhile_fst, chars_splitWhile_snd]
  rcases hp with hp | hp
  · refine apart_of_head (fun d hd => ?_) _
    have hnot := List.head?_dropWhile_not p s.chars
    rw [Option.mem_def.1 hd] at hnot
    exact Bool.eq_false_iff.2 fun hname => absurd ((hp d hname).symm.trans hnot) (by simp)
  · refine apart_of_last (fun c hc => ?_) _
    have hmem : p c = true :=
      List.all_eq_true.1 (List.all_takeWhile (p := p) (l := s.chars)) c (List.mem_of_getLast? hc)
    exact Bool.eq_false_iff.2 fun hname => absurd ((hp c hname).symm.trans hmem) (by simp)

theorem isBlank_of_name : ∀ c, isNameChar c = true → isBlank c = false :=
  fun _ => isBlank_of_isNameChar

theorem Whole.trimStart (h : s.Whole cs) : s.trimStart.Whole cs :=
  (h.splitWhile (.inr isBlank_of_name)).2

theorem Whole.trimEnd (h : s.Whole cs) : s.trimEnd.Whole cs := by
  refine (h.cut (cut_split _ s) (apart_of_head (fun d hd => ?_) _)).1
  obtain ⟨bl, hbl, hcs⟩ := Text.exists_trimEnd_blanks s.chars
  have hdrop : (Text.trimEnd s.chars ++ bl).drop (Text.trimEnd s.chars).length = bl := List.drop_left
  rw [← hcs] at hdrop
  have hblank : (s.split (Text.trimEnd s.chars).length).2.chars = bl := hdrop
  rw [hblank] at hd
  exact isNameChar_of_isBlank (hbl d (List.mem_of_mem_head? hd))

theorem Whole.trim (h : s.Whole cs) : s.trim.Whole cs := h.trimStart.trimEnd

/-- No part of the text belongs to a name. -/
def IsMark (mark : String) : Prop := ∀ c ∈ mark.toList, isNameChar c = false

instance (mark : String) : Decidable (IsMark mark) :=
  List.decidableBAll (fun c => isNameChar c = false) mark.toList

theorem Whole.accept? {mark : String} (h : s.Whole cs) (hmark : IsMark mark)
    (haccept : s.accept? mark = some (part, rest)) :
    part.Whole cs ∧ rest.Whole cs ∧ s.column ≤ part.column ∧ part.column ≤ rest.column := by
  obtain ⟨hcut, hchars⟩ := accept?_eq_some haccept
  have hlast : ∀ c ∈ part.chars.getLast?, isNameChar c = false := by
    rw [hchars]
    exact fun c hc => hmark c (List.mem_of_getLast? hc)
  obtain ⟨hpart, hrest⟩ := h.cut hcut (apart_of_last hlast _)
  refine ⟨hpart, hrest, Nat.le_of_eq hcut.column.symm, ?_⟩
  rw [hcut.next, hcut.column]
  omega

theorem Whole.spelled? {first more : Char → Bool} (hmore : ∀ c, isNameChar c = true → more c = true)
    (h : s.Whole cs) (hspelled : s.spelled? first more = some (part, rest)) :
    part.Whole cs ∧ rest.Whole cs := by
  obtain ⟨hcut, -, hhead⟩ := spelled?_eq_some hspelled
  refine h.cut hcut (apart_of_head (fun d hd => ?_) _)
  exact Bool.eq_false_iff.2 fun hname =>
    absurd ((hmore d hname).symm.trans (hhead d hd)) (by simp)

theorem Whole.name? (h : s.Whole cs) (hname : s.name? = some (part, rest)) :
    part.IsWord cs ∧ rest.Whole cs ∧ part.column = s.column ∧ part.column < rest.column := by
  obtain ⟨hpart, hrest⟩ := h.spelled? (fun _ => id) hname
  obtain ⟨hcut, htext, -⟩ := name?_eq_some hname
  refine ⟨⟨hpart, htext⟩, hrest, hcut.column, ?_⟩
  have hlength := List.length_pos_iff.2 (isSpelled_ne_nil htext)
  rw [hcut.next, hcut.column]
  omega

theorem Whole.blanks? (h : s.Whole cs) (hblanks : s.blanks? = some rest) :
    rest.Whole cs ∧ s.column ≤ rest.column := by
  obtain ⟨rfl, -⟩ := blanks?_eq_some hblanks
  exact ⟨h.trimStart, column_le_trimStart s⟩

theorem Whole.cutTerminator (h : s.Whole cs) :
    s.cutTerminator.1.Whole cs ∧ s.cutTerminator.1.column = s.column := by
  unfold Slice.cutTerminator
  split
  · next hlast =>
    obtain ⟨init, hinit⟩ := List.getLast?_eq_some_iff.1 hlast
    refine ⟨(h.cut (cut_split _ s) (apart_of_head (fun d hd => ?_) _)).1.trimEnd, rfl⟩
    have hmark : (s.split (s.chars.length - 1)).2.chars = [';'] := by simp [split, hinit]
    rw [hmark] at hd
    rw [← Option.some.inj hd]
    decide
  · exact ⟨h.trimEnd, rfl⟩

/-- A recogniser that gives whole slices, in their order. -/
def CutsWhole (cs : List Char) (part? : Slice → Option (Slice × Slice)) : Prop :=
  ∀ {s part rest : Slice}, s.Whole cs → part? s = some (part, rest) →
    part.Whole cs ∧ rest.Whole cs ∧ s.column ≤ part.column ∧ part.column ≤ rest.column

/-- A recogniser that gives names, in their order. -/
def CutsWords (cs : List Char) (part? : Slice → Option (Slice × Slice)) : Prop :=
  ∀ {s part rest : Slice}, s.Whole cs → part? s = some (part, rest) →
    part.IsWord cs ∧ rest.Whole cs ∧ s.column ≤ part.column ∧ part.column < rest.column

theorem CutsWhole.optional {part? : Slice → Option (Slice × Slice)} (hcuts : CutsWhole cs part?)
    (h : s.Whole cs) :
    (∀ part ∈ (s.optional part?).1, part.Whole cs ∧ s.column ≤ part.column ∧
        part.column ≤ (s.optional part?).2.column) ∧
      (s.optional part?).2.Whole cs ∧ s.column ≤ (s.optional part?).2.column := by
  unfold Slice.optional
  cases hpart : part? s with
  | none => exact ⟨by simp, h, Nat.le_refl _⟩
  | some found =>
    obtain ⟨hwhole, hrest, hle, hle'⟩ := hcuts h hpart
    refine ⟨fun part hmem => ?_, hrest, Nat.le_trans hle hle'⟩
    cases hmem
    exact ⟨hwhole, hle, hle'⟩

theorem CutsWords.optional {part? : Slice → Option (Slice × Slice)} (hcuts : CutsWords cs part?)
    (h : s.Whole cs) :
    (∀ part ∈ (s.optional part?).1, part.IsWord cs ∧ s.column ≤ part.column ∧
        part.column < (s.optional part?).2.column) ∧
      (s.optional part?).2.Whole cs ∧ s.column ≤ (s.optional part?).2.column := by
  unfold Slice.optional
  cases hpart : part? s with
  | none => exact ⟨by simp, h, Nat.le_refl _⟩
  | some found =>
    obtain ⟨hword, hrest, hle, hlt⟩ := hcuts h hpart
    refine ⟨fun part hmem => ?_, hrest, Nat.le_trans hle (Nat.le_of_lt hlt)⟩
    cases hmem
    exact ⟨hword, hle, hlt⟩

theorem cutsWhole_accept? (mark : String) (hmark : IsMark mark) :
    CutsWhole cs (·.accept? mark) := fun h haccept => h.accept? hmark haccept

theorem cutsWords_parenthesised? : CutsWords cs parenthesised? := by
  intro s name rest h hfound
  obtain ⟨opening, s₁, s₂, closing, hopening, hname, hclosing⟩ := parenthesised?_steps.1 hfound
  obtain ⟨-, h₁, hle, hle'⟩ := h.accept? (by decide) hopening
  obtain ⟨hword, h₂, heq, hlt⟩ := h₁.trimStart.name? hname
  obtain ⟨-, h₃, hle₂, hle₃⟩ := h₂.trimStart.accept? (by decide) hclosing
  have h₁₂ := column_le_trimStart s₁
  have h₂₃ := column_le_trimStart s₂
  exact ⟨hword, h₃, by omega, by omega⟩

/-- A sequence of items, each of which has a column between those of what it is read from. -/
theorem Whole.sequence? {α : Type} {item? : Slice → Option (α × Slice)} (hcuts : Cuts item?)
    {P : α → Prop} (column : α → Nat)
    (hitem : ∀ {s rest : Slice} {item : α}, s.Whole cs → item? s = some (item, rest) →
      P item ∧ rest.Whole cs ∧ s.column ≤ column item ∧ column item < rest.column)
    {s : Slice} (hs : s.Whole cs) {items : List α} (h : s.sequence? item? = some items) :
    (∀ item ∈ items, P item ∧ s.column ≤ column item) ∧
      items.Pairwise fun item other => column item < column other := by
  induction items generalizing s with
  | nil => exact ⟨by simp, .nil⟩
  | cons item items ih =>
    rcases sequence?_eq_some hcuts h with ⟨-, hnil⟩ | ⟨first, rest, more, hfirst, -, hmore, hcons⟩
    · cases hnil
    · obtain ⟨rfl, rfl⟩ := List.cons.inj hcons
      obtain ⟨hP, hrest, hle, hlt⟩ := hitem hs hfirst
      obtain ⟨hall, hpairwise⟩ := ih hrest hmore
      refine ⟨fun other hother => ?_, List.pairwise_cons.2 ⟨fun other hother => ?_, hpairwise⟩⟩
      · rcases List.mem_cons.1 hother with rfl | hother
        · exact ⟨hP, hle⟩
        · exact ⟨(hall other hother).1, by have := (hall other hother).2; omega⟩
      · have := (hall other hother).2
        omega

theorem last_of_closingQuote? {cs : List Char} (h : closingQuote? cs = some cs.length) :
    cs.getLast? = some '"' := by
  obtain ⟨body, rest, -, rfl, hlength⟩ := closingQuote?_eq_some_iff.1 h
  have hnil : rest = [] := by
    rw [List.length_append, List.length_cons] at hlength
    exact List.length_eq_zero_iff.1 (by omega)
  rw [hnil, List.getLast?_concat]

end Slice

end LineGrammar
