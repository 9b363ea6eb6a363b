import LineGrammar.Line
import LineGrammar.Proofs.Blanks

/-! What each recogniser accepts. A recogniser that succeeds cuts its slice into the part that it
accepts and the rest; each has an inversion, which says what the part looks like, and a run on a
text that is written as part and rest. -/

namespace LineGrammar

theorem isSpelled_cons {first rest : Char → Bool} {c : Char} {cs : List Char} :
    isSpelled first rest (c :: cs) = true ↔ first c = true ∧ ∀ d ∈ cs, rest d = true := by
  simp [isSpelled]

theorem isSpelled_ne_nil {first rest : Char → Bool} {cs : List Char}
    (h : isSpelled first rest cs = true) : cs ≠ [] := by
  rintro rfl; exact absurd h (by simp [isSpelled])

theorem isSpelled_mem {first rest : Char → Bool} (hfr : ∀ c, first c = true → rest c = true)
    {cs : List Char} (h : isSpelled first rest cs = true) : ∀ c ∈ cs, rest c = true := by
  cases cs with
  | nil => simp
  | cons d ds =>
    obtain ⟨hd, hds⟩ := isSpelled_cons.1 h
    intro c hc
    rcases List.mem_cons.1 hc with rfl | hc
    · exact hfr _ hd
    · exact hds c hc

/-- The characters of a name. -/
abbrev IsNameText (cs : List Char) : Prop := isSpelled isNameStart isNameChar cs = true

theorem IsNameText.chars {cs : List Char} (h : IsNameText cs) : ∀ c ∈ cs, isNameChar c = true :=
  isSpelled_mem (fun _ => isNameChar_of_isNameStart) h

theorem IsNameText.solid {cs : List Char} (h : IsNameText cs) : ∀ c ∈ cs, isBlank c = false :=
  fun c hc => isBlank_of_isNameChar (h.chars c hc)

theorem IsNameText.plain {cs : List Char} (h : IsNameText cs) :
    ∀ c ∈ cs, isBlank c = false ∧ c ≠ ';' := by
  refine fun c hc => ⟨h.solid c hc, ?_⟩
  rintro rfl
  exact absurd (h.chars ';' hc) (by decide)

theorem IsNameText.noBreak {cs : List Char} (h : IsNameText cs) : '\n' ∉ cs :=
  fun hmem => absurd (h.chars _ hmem) (by decide)

theorem IsNameText.head_solid {cs : List Char} (h : IsNameText cs) (rest : List Char) :
    ∀ c ∈ (cs ++ rest).head?, isBlank c = false := by
  cases cs with
  | nil => exact absurd rfl (isSpelled_ne_nil h)
  | cons c cs => simpa using h.solid c (by simp)

theorem solid_pair {c d : Char} (hc : isBlank c = false) (hd : isBlank d = false) :
    ∀ e ∈ [c, d], isBlank e = false := by
  simp [hc, hd]

theorem solid_openingMark : ∀ c ∈ openingMark.toList, isBlank c = false :=
  solid_pair (by decide) (by decide)

theorem solid_closingMark : ∀ c ∈ closingMark.toList, isBlank c = false :=
  solid_pair (by decide) (by decide)

theorem head_openingMark {p : Char → Prop} (h : p '%') : ∀ c ∈ openingMark.toList.head?, p c := by
  intro c hc
  rw [← show '%' = c from Option.some.inj hc]
  exact h

namespace Slice

/-- `part` and `rest` are the two sides of a cut through `s`. -/
structure Cut (s part rest : Slice) : Prop where
  chars : s.chars = part.chars ++ rest.chars
  column : part.column = s.column
  next : rest.column = s.column + part.chars.length

/-- `rest` stands at the end of `s`. -/
structure Ends (rest s : Slice) : Prop where
  suffix : rest.chars <:+ s.chars
  stop : rest.stop = s.stop

theorem Ends.refl (s : Slice) : s.Ends s := ⟨List.suffix_refl _, rfl⟩

theorem Ends.trans {r s t : Slice} (h : r.Ends s) (h' : s.Ends t) : r.Ends t :=
  ⟨h.suffix.trans h'.suffix, h.stop.trans h'.stop⟩

theorem Ends.length_le {r s : Slice} (h : r.Ends s) : r.chars.length ≤ s.chars.length :=
  h.suffix.length_le

theorem Cut.ends {s part rest : Slice} (h : s.Cut part rest) : rest.Ends s := by
  refine ⟨⟨part.chars, h.chars.symm⟩, ?_⟩
  simp only [Slice.stop, h.next, h.chars, List.length_append]
  omega

theorem cut_split (n : Nat) (s : Slice) : s.Cut (s.split n).1 (s.split n).2 :=
  ⟨(List.take_append_drop n s.chars).symm, rfl, rfl⟩

theorem split_append (column : Nat) (cs ds : List Char) :
    (⟨column, cs ++ ds⟩ : Slice).split cs.length = (⟨column, cs⟩, ⟨column + cs.length, ds⟩) := by
  simp [split]

/-- What stands at the front of a text that begins with blanks. -/
theorem head_blanks_append {bl cs : List Char} {p : Char → Prop} (hbl : ∀ c ∈ bl, isBlank c = true)
    (hp : ∀ c, isBlank c = true → p c) (hcs : ∀ c ∈ cs.head?, p c) : ∀ c ∈ (bl ++ cs).head?, p c := by
  cases bl with
  | nil => exact hcs
  | cons b bl => simpa using hp b (hbl b (by simp))

@[simp] theorem chars_splitWhile_fst (p : Char → Bool) (s : Slice) :
    (s.splitWhile p).1.chars = s.chars.takeWhile p := by
  simp only [splitWhile, split]
  exact List.prefix_iff_eq_take.1 (List.takeWhile_prefix p) |>.symm

@[simp] theorem chars_splitWhile_snd (p : Char → Bool) (s : Slice) :
    (s.splitWhile p).2.chars = s.chars.dropWhile p := by
  have h := (cut_split (s.chars.takeWhile p).length s).chars
  rw [show ((s.split (s.chars.takeWhile p).length).1.chars) = s.chars.takeWhile p from
    chars_splitWhile_fst p s] at h
  exact List.append_cancel_left (h.symm.trans List.takeWhile_append_dropWhile.symm)

@[simp] theorem chars_trimStart (s : Slice) : s.trimStart.chars = Text.trimStart s.chars :=
  chars_splitWhile_snd isBlank s

@[simp] theorem chars_trimEnd (s : Slice) : s.trimEnd.chars = Text.trimEnd s.chars := by
  obtain ⟨bl, -, hcs⟩ := Text.exists_trimEnd_blanks s.chars
  have h : (Text.trimEnd s.chars ++ bl).take (Text.trimEnd s.chars).length =
      Text.trimEnd s.chars := List.take_left
  rwa [← hcs] at h

@[simp] theorem chars_trim (s : Slice) : s.trim.chars = Text.trim s.chars := by
  simp [trim, Text.trim]

theorem ends_trimStart (s : Slice) : s.trimStart.Ends s := (cut_split _ s).ends

theorem accept?_eq_some {front : String} {s part rest : Slice}
    (h : s.accept? front = some (part, rest)) : s.Cut part rest ∧ part.chars = front.toList := by
  unfold accept? at h
  split at h
  · next hpre =>
    cases h
    obtain ⟨tail, htail⟩ := List.isPrefixOf_iff_prefix.1 hpre
    exact ⟨cut_split _ s, by simp [← htail]⟩
  · cases h

theorem accept?_append (front : String) (column : Nat) (cs : List Char) :
    (⟨column, front.toList ++ cs⟩ : Slice).accept? front =
      some (⟨column, front.toList⟩, ⟨column + front.toList.length, cs⟩) := by
  have hpre : front.toList.isPrefixOf (front.toList ++ cs) = true :=
    List.isPrefixOf_iff_prefix.2 (List.prefix_append _ _)
  rw [accept?, if_pos hpre, split_append]

theorem accept?_eq_none {front : String} {s : Slice} (h : ¬ front.toList <+: s.chars) :
    s.accept? front = none := by
  rw [accept?, if_neg]
  rwa [List.isPrefixOf_iff_prefix]

/-- A mark is not there where its first character is not. -/
theorem accept?_eq_none_of_head {front : String} {s : Slice} {c : Char} {cs : List Char}
    (hfront : front.toList = c :: cs) (h : s.chars.head? ≠ some c) : s.accept? front = none := by
  refine accept?_eq_none fun hprefix => h ?_
  obtain ⟨tail, htail⟩ := hprefix
  rw [← htail, hfront]
  rfl

theorem spelled?_eq_some {first more : Char → Bool} {s part rest : Slice}
    (h : s.spelled? first more = some (part, rest)) :
    s.Cut part rest ∧ isSpelled first more part.chars = true ∧
      ∀ c ∈ rest.chars.head?, more c = false := by
  unfold spelled? at h
  split at h
  · cases h
  · next c cs hcs =>
    split at h
    · next hc =>
      cases h
      have htake : cs.take (cs.takeWhile more).length = cs.takeWhile more :=
        (List.prefix_iff_eq_take.1 (List.takeWhile_prefix more)).symm
      have hdrop : (cs.takeWhile more ++ cs.dropWhile more).drop (cs.takeWhile more).length =
          cs.dropWhile more := List.drop_left
      rw [List.takeWhile_append_dropWhile] at hdrop
      refine ⟨cut_split _ s, ?_, ?_⟩
      · simp only [hcs, List.take_succ_cons, htake]
        exact isSpelled_cons.2 ⟨hc, List.all_eq_true.1 List.all_takeWhile⟩
      · simp only [hcs, List.drop_succ_cons, hdrop]
        intro d hd
        have hnot := List.head?_dropWhile_not more cs
        rw [Option.mem_def] at hd
        simpa [hd] using hnot
    · cases h

theorem spelled?_append {first more : Char → Bool} {w r : List Char} (column : Nat)
    (hw : isSpelled first more w = true) (hr : ∀ c ∈ r.head?, more c = false) :
    (⟨column, w ++ r⟩ : Slice).spelled? first more =
      some (⟨column, w⟩, ⟨column + w.length, r⟩) := by
  cases w with
  | nil => exact absurd hw (by simp [isSpelled])
  | cons c w =>
    obtain ⟨hc, hw⟩ := isSpelled_cons.1 hw
    have htake : (w ++ r).takeWhile more = w := by
      rw [List.takeWhile_append_of_pos hw]
      cases r with
      | nil => simp
      | cons d ds => simp [hr d rfl]
    have hsplit := split_append column (c :: w) r
    simp only [List.cons_append, List.length_cons] at hsplit
    simp [spelled?, hc, htake, hsplit]

theorem name?_eq_some {s part rest : Slice} (h : s.name? = some (part, rest)) :
    s.Cut part rest ∧ IsNameText part.chars ∧ ∀ c ∈ rest.chars.head?, isNameChar c = false :=
  spelled?_eq_some h

theorem name?_append {w r : List Char} (column : Nat) (hw : IsNameText w)
    (hr : ∀ c ∈ r.head?, isNameChar c = false) :
    (⟨column, w ++ r⟩ : Slice).name? = some (⟨column, w⟩, ⟨column + w.length, r⟩) :=
  spelled?_append column hw hr

theorem optional_eq {part? : Slice → Option (Slice × Slice)} {s rest : Slice}
    {part : Option Slice} (h : s.optional part? = (part, rest)) :
    part = none ∧ rest = s ∧ part? s = none ∨
      ∃ found, part = some found ∧ part? s = some (found, rest) := by
  unfold optional at h
  split at h <;> cases h
  · next found => exact Or.inr ⟨_, rfl, found⟩
  · next hnone => exact Or.inl ⟨rfl, rfl, hnone⟩

/-- What is left of a slice after the blanks at its front. -/
theorem exists_trimStart (s : Slice) :
    ∃ bl, (∀ c ∈ bl, isBlank c = true) ∧ s.chars = bl ++ s.trimStart.chars := by
  rw [chars_trimStart]; exact Text.exists_blanks_trimStart s.chars

theorem blanks?_eq_some {s rest : Slice} (h : s.blanks? = some rest) :
    rest = s.trimStart ∧
      ∃ bl, bl ≠ [] ∧ (∀ c ∈ bl, isBlank c = true) ∧ s.chars = bl ++ rest.chars := by
  unfold blanks? at h
  split at h
  · cases h
  · next c cs hcs =>
    split at h
    · next hc =>
      cases h
      obtain ⟨bl, hbl, hs⟩ := exists_trimStart s
      refine ⟨rfl, bl, ?_, hbl, hs⟩
      rintro rfl
      have hhead := Text.head_trimStart s.chars c
      rw [← chars_trimStart, ← List.nil_append s.trimStart.chars, ← hs, hcs] at hhead
      exact absurd (hhead rfl) (by simp [hc])
    · cases h

/-- The terminator, if it is there. -/
def terminator : Bool → List Char
  | true => [';']
  | false => []

theorem terminator?_eq_some {s : Slice} {terminated : Bool}
    (h : s.terminator? = some terminated) :
    ∃ bl, (∀ c ∈ bl, isBlank c = true) ∧ s.chars = bl ++ terminator terminated := by
  obtain ⟨bl, hbl, hcs⟩ := Text.exists_blanks_trimStart s.chars
  refine ⟨bl, hbl, ?_⟩
  unfold terminator? at h
  simp only [chars_trimStart] at h
  split at h
  · next hnil => cases h; rw [hcs, hnil]; rfl
  · next hsemi => cases h; rw [hcs, hsemi]; rfl
  · cases h

theorem head_terminator (terminated : Bool) :
    ∀ c ∈ (terminator terminated).head?, c = ';' := by
  cases terminated <;> simp [terminator]

theorem cutTerminator_spec (s : Slice) :
    ∃ bl, (∀ c ∈ bl, isBlank c = true) ∧
      s.chars = s.cutTerminator.1.chars ++ bl ++ terminator s.cutTerminator.2 ∧
      ∀ c ∈ s.cutTerminator.1.chars.getLast?, isBlank c = false := by
  unfold cutTerminator
  split
  · next h =>
    obtain ⟨init, hinit⟩ := List.getLast?_eq_some_iff.1 h
    obtain ⟨bl, hbl, hcs⟩ := Text.exists_trimEnd_blanks init
    have hinit' : (s.split (s.chars.length - 1)).1.chars = init := by
      simp [split, hinit]
    refine ⟨bl, hbl, ?_, ?_⟩
    · rw [chars_trimEnd, hinit', ← hcs]; exact hinit
    · rw [chars_trimEnd, hinit']; exact Text.last_trimEnd init
  · obtain ⟨bl, hbl, hcs⟩ := Text.exists_trimEnd_blanks s.chars
    exact ⟨bl, hbl, by simpa [terminator] using hcs, by
      rw [chars_trimEnd]; exact Text.last_trimEnd s.chars⟩

/-- The characters without the terminator, if there is one at the end. -/
def unterminated (s : Slice) : List Char :=
  if s.chars.getLast? = some ';' then s.chars.dropLast else s.chars

theorem prefix_unterminated (s : Slice) : s.unterminated <+: s.chars := by
  unfold unterminated
  split
  · exact List.dropLast_prefix s.chars
  · exact List.prefix_refl _

theorem chars_cutTerminator (s : Slice) : s.cutTerminator.1.chars = Text.trimEnd s.unterminated := by
  unfold cutTerminator unterminated
  split
  · rw [chars_trimEnd, List.dropLast_eq_take]; rfl
  · rw [chars_trimEnd]

theorem column_cutTerminator (s : Slice) : s.cutTerminator.1.column = s.column := by
  unfold cutTerminator
  split <;> rfl

theorem isTerminated_cutTerminator (s : Slice) :
    s.cutTerminator.2 = true ↔ s.chars.getLast? = some ';' := by
  unfold cutTerminator
  split <;> simp_all

theorem getLast?_append_ne {list bl : List Char} {mark : Char}
    (hbl : ∀ c ∈ bl, isBlank c = true) (hmark : isBlank mark = false)
    (hlist : list.getLast? ≠ some mark) : (list ++ bl).getLast? ≠ some mark := by
  rcases List.eq_nil_or_concat bl with rfl | ⟨init, last, rfl⟩
  · simpa using hlist
  · rintro h
    have hlast : last = mark := by simpa [List.concat_eq_append, ← List.append_assoc] using h
    have hb := hbl last (by simp [List.concat_eq_append])
    rw [hlast, hmark] at hb
    cases hb

/-- On a text that is written as list, blanks and terminator. -/
theorem cutTerminator_append {list b : List Char} (column : Nat) (terminated : Bool)
    (hlast : ∀ c ∈ list.getLast?, isBlank c = false) (hb : ∀ c ∈ b, isBlank c = true)
    (hsemi : terminated = false → list.getLast? ≠ some ';') :
    (⟨column, list ++ b ++ terminator terminated⟩ : Slice).cutTerminator =
      (⟨column, list⟩, terminated) := by
  have htrim : Text.trimEnd (list ++ b) = list := by
    rw [Text.trimEnd_append_blanks hb, Text.trimEnd_of_last hlast]
  cases terminated with
  | true =>
    have hsplit := split_append column (list ++ b) [';']
    simp only [cutTerminator, terminator, List.getLast?_concat, if_true, List.length_append,
      List.length_singleton, Nat.add_sub_cancel]
    rw [List.length_append] at hsplit
    rw [hsplit]
    simp only [trimEnd, htrim, split_append]
  | false =>
    have hne := getLast?_append_ne hb (by decide) (hsemi rfl)
    simp only [cutTerminator, terminator, List.append_nil, if_neg hne, trimEnd, htrim,
      split_append]

theorem trimStart_append {b r : List Char} (column : Nat) (hb : ∀ c ∈ b, isBlank c = true)
    (hr : ∀ c ∈ r.head?, isBlank c = false) :
    (⟨column, b ++ r⟩ : Slice).trimStart = ⟨column + b.length, r⟩ := by
  have htake : (b ++ r).takeWhile isBlank = b := by
    rw [List.takeWhile_append_of_pos hb]
    cases r with
    | nil => simp
    | cons d ds => simp [hr d rfl]
  rw [trimStart, splitWhile, htake, split_append]

/-- A mark, if it is there. -/
def markText (mark : String) : Bool → List Char
  | true => mark.toList
  | false => []

theorem splitWhile_append {p : Char → Bool} {w r : List Char} (column : Nat)
    (hw : ∀ c ∈ w, p c = true) (hr : ∀ c ∈ r.head?, p c = false) :
    (⟨column, w ++ r⟩ : Slice).splitWhile p = (⟨column, w⟩, ⟨column + w.length, r⟩) := by
  have htake : (w ++ r).takeWhile p = w := by
    rw [List.takeWhile_append_of_pos hw]
    cases r with
    | nil => simp
    | cons d ds => simp [hr d rfl]
  rw [splitWhile, htake, split_append]

theorem blanks?_append {b r : List Char} (column : Nat) (hne : b ≠ [])
    (hb : ∀ c ∈ b, isBlank c = true) (hr : ∀ c ∈ r.head?, isBlank c = false) :
    (⟨column, b ++ r⟩ : Slice).blanks? = some ⟨column + b.length, r⟩ := by
  have htrim := trimStart_append column hb hr
  cases b with
  | nil => exact absurd rfl hne
  | cons c cs => simpa [blanks?, hb c (by simp)] using htrim

theorem terminator?_append {b : List Char} (column : Nat) (hb : ∀ c ∈ b, isBlank c = true)
    (terminated : Bool) :
    (⟨column, b ++ terminator terminated⟩ : Slice).terminator? = some terminated := by
  have hhead : ∀ c ∈ (terminator terminated).head?, isBlank c = false := by
    cases terminated <;> simp [terminator]; decide
  rw [terminator?, trimStart_append column hb hhead]
  cases terminated <;> rfl

end Slice

end LineGrammar
