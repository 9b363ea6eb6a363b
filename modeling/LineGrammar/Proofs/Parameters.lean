import LineGrammar.Proofs.FunctionText
import LineGrammar.Proofs.NameLists

/-! Parameters that are collapsed before they are read. Whatever a reader accepts it also accepts
with its blanks collapsed, and finds the same parts. -/

namespace LineGrammar

namespace Text

theorem trimStart_append_of_mem {cs : List Char} {c : Char} (h : c ∈ cs) (hc : isBlank c = false)
    (ds : List Char) : trimStart (cs ++ ds) = trimStart cs ++ ds := by
  obtain ⟨bl, hbl, hcs⟩ := exists_blanks_trimStart cs
  cases hstart : trimStart cs with
  | nil =>
    rw [hstart, List.append_nil] at hcs
    exact absurd (hbl c (hcs ▸ h)) (by simp [hc])
  | cons d more =>
    have hd : isBlank d = false := head_trimStart cs d (by rw [hstart]; rfl)
    rw [hcs, hstart, List.append_assoc, trimStart_append_blanks hbl, List.cons_append,
      trimStart_cons hd]

/-- The end of a text whose form does not depend on what came before. -/
theorem collapse_append_end {cs ds es : List Char} {c : Char} (h : c ∈ cs) (hc : isBlank c = false)
    (hend : ∀ gap, squeeze gap ds = es) : collapse (cs ++ ds) = collapse cs ++ es := by
  rw [collapse_eq_squeeze, collapse_eq_squeeze, trimStart_append_of_mem h hc,
    squeeze_append_end hend]

theorem tighten_of_not_mem {cs : List Char} (h : ';' ∉ cs) : tightenTerminators cs = cs := by
  induction cs with
  | nil => rfl
  | cons c cs ih =>
    rw [tightenTerminators.eq_2, ih fun hm => h (List.mem_cons_of_mem c hm)]
    rintro rest - rfl
    exact h (by simp)

/-- A text without terminators keeps its words. -/
theorem words_collapse {cs : List Char} (h : ';' ∉ cs) : words (collapse cs) = words cs := by
  have hnot : ';' ∉ unwords (words cs) := by
    intro hm
    rcases mem_unwords hm with hm | ⟨w, hw, hm⟩
    · exact absurd hm (by decide)
    · exact h ((solid_of_mem_words hw).2 _ hm).2
  rw [collapse, tighten_of_not_mem hnot]
  exact words_unwords fun w hw => ⟨(solid_of_mem_words hw).1, fun c hc => ((solid_of_mem_words hw).2 c hc).1⟩

theorem mem_collapse {cs : List Char} {c : Char} (h : c ∈ collapse cs) : c ∈ cs ∨ c = ' ' := by
  rw [collapse_eq_squeeze] at h
  rcases mem_squeeze h with ⟨h, -⟩ | h
  · obtain ⟨bl, -, hcs⟩ := exists_blanks_trimStart cs
    exact Or.inl (hcs ▸ List.mem_append_right _ h)
  · exact Or.inr h

end Text

namespace Slice

theorem isTypeWord_plain {cs : List Char}
    (h : isSpelled isNameStart isTypeWordChar cs = true) :
    ∀ c ∈ cs, isBlank c = false ∧ c ≠ ';' := by
  have hstart : ∀ c, isNameStart c = true → isTypeWordChar c = true := fun c hc => by
    simp [isTypeWordChar, isNameChar_of_isNameStart hc]
  intro c hc
  have hword := isSpelled_mem hstart h c hc
  refine ⟨?_, by rintro rfl; exact absurd hword (by decide)⟩
  simp only [isTypeWordChar, Bool.or_eq_true, beq_iff_eq] at hword
  rcases hword with ((hword | rfl) | rfl) | rfl
  · exact isBlank_of_isNameChar hword
  all_goals decide

theorem interfaceParameters?_text {walker typeName : List Char} (hwalker : IsNameText walker)
    (htype : isSpelled isNameStart isTypeWordChar typeName = true) (column : Nat)
    (terminated : Bool) :
    (⟨column, walker ++ ([' '] ++ (typeName ++ terminator terminated))⟩ :
        Slice).interfaceParameters? =
      some (⟨column, walker⟩, ⟨column + walker.length + 1, typeName⟩) := by
  have hhead : ∀ c ∈ (typeName ++ terminator terminated).head?, isBlank c = false := by
    obtain ⟨c, more, rfl⟩ := List.exists_cons_of_ne_nil (isSpelled_ne_nil htype)
    simpa using (isTypeWord_plain htype c (by simp)).1
  have hname := name?_append (r := [' '] ++ (typeName ++ terminator terminated)) column hwalker
    (by simp; decide)
  have hgap := blanks?_append (column + walker.length) (b := [' ']) (by simp) (by simp; decide) hhead
  have htype' := spelled?_append (r := terminator terminated) (column + walker.length + 1) htype
    fun c hc => by rw [head_terminator terminated c hc]; decide
  have hend := terminator?_append (b := []) (column + walker.length + 1 + typeName.length) (by simp)
    terminated
  rw [List.nil_append] at hend
  exact interfaceParameters?_steps.2 ⟨_, _, _, _, hname, hgap, htype', hend⟩

theorem membersParameters?_eq_some {s walker : Slice} {mark? : Option Slice}
    (h : s.membersParameters? = some (walker, mark?)) :
    IsNameText walker.chars ∧ ∃ bl : List Char, (∀ c ∈ bl, isBlank c = true) ∧
      ((∃ mark, mark? = some mark ∧ mark.chars = openingMark.toList ∧
          s.chars = walker.chars ++ (bl ++ openingMark.toList)) ∨
        (mark? = none ∧ ∃ terminated, s.chars = walker.chars ++ (bl ++ terminator terminated))) := by
  obtain ⟨s₁, hname, ⟨mark, s₂, hmark, hempty, rfl⟩ | ⟨terminated, -, hend, rfl⟩⟩ :=
    membersParameters?_steps.1 h
  all_goals obtain ⟨hcut, htext, -⟩ := name?_eq_some hname
  · obtain ⟨bl, hbl, hs₁⟩ := exists_trimStart s₁
    obtain ⟨hcut₂, hchars⟩ := accept?_eq_some hmark
    have hrest : s₂.chars = [] := List.isEmpty_iff.1 hempty
    refine ⟨htext, bl, hbl, .inl ⟨mark, rfl, hchars, ?_⟩⟩
    rw [hcut.chars, hs₁, hcut₂.chars, hchars, hrest, List.append_nil]
  · obtain ⟨bl, hbl, hs₁⟩ := terminator?_eq_some hend
    exact ⟨htext, bl, hbl, .inr ⟨rfl, terminated, by rw [hcut.chars, hs₁]⟩⟩

theorem membersParameters?_mark {walker bl : List Char} (hwalker : IsNameText walker)
    (hbl : ∀ c ∈ bl, isBlank c = true) (column : Nat) :
    (⟨column, walker ++ (bl ++ openingMark.toList)⟩ : Slice).membersParameters? =
      some (⟨column, walker⟩,
        some ⟨column + walker.length + bl.length, openingMark.toList⟩) := by
  have hhead : ∀ c ∈ (bl ++ openingMark.toList).head?, isNameChar c = false :=
    head_blanks_append hbl (fun _ => isNameChar_of_isBlank) (head_openingMark (by decide))
  have hname := name?_append column hwalker hhead
  have htrim := trimStart_append (column + walker.length) hbl
    (head_openingMark (p := fun c => isBlank c = false) (by decide))
  have hmark := accept?_append openingMark (column + walker.length + bl.length) []
  rw [List.append_nil] at hmark
  exact membersParameters?_steps.2 ⟨_, hname, .inl ⟨_, _, by rw [htrim]; exact hmark, rfl, rfl⟩⟩

theorem membersParameters?_terminator {walker : List Char} (hwalker : IsNameText walker)
    (column : Nat) (terminated : Bool) :
    (⟨column, walker ++ terminator terminated⟩ : Slice).membersParameters? =
      some (⟨column, walker⟩, none) := by
  have hname := name?_append (r := terminator terminated) column hwalker fun c hc => by
    rw [head_terminator terminated c hc]; decide
  have htrim := trimStart_append (b := []) (r := terminator terminated) (column + walker.length)
    (by simp) fun c hc => by rw [head_terminator terminated c hc]; decide
  have hnone : (⟨column + walker.length + ([] : List Char).length, terminator terminated⟩ :
      Slice).accept? openingMark = none := by
    apply accept?_eq_none
    dsimp only
    cases terminated <;> decide
  have hend := terminator?_append (b := []) (column + walker.length) (by simp) terminated
  rw [← htrim] at hnone
  exact membersParameters?_steps.2 ⟨_, hname, .inr ⟨terminated, hnone, hend, rfl⟩⟩

section
variable {s s' : Slice} (hs : s'.chars = Text.collapse s.chars)
include hs

theorem singleName?_collapse {name : Slice} {terminated : Bool}
    (h : s.singleName? = some (name, terminated)) :
    ∃ name' : Slice, name'.chars = name.chars ∧ s'.singleName? = some (name', terminated) := by
  obtain ⟨s₁, hname, hend⟩ := singleName?_steps.1 h
  obtain ⟨hcut, htext, -⟩ := name?_eq_some hname
  obtain ⟨bl, hbl, hs₁⟩ := terminator?_eq_some hend
  have hcollapse : Text.collapse s.chars = name.chars ++ terminator terminated := by
    rw [hcut.chars, hs₁, Text.collapse_eq_of_head (htext.head_solid _), Text.squeeze_word htext.solid]
    exact congrArg _ (squeeze_terminator_end false [] hbl terminated)
  obtain ⟨column, cs⟩ := s'
  dsimp only at hs
  rw [hs, hcollapse]
  have hname' := name?_append (r := terminator terminated) column htext fun c hc => by
    rw [head_terminator terminated c hc]; decide
  have hend' := terminator?_append (b := []) (column + name.chars.length) (by simp) terminated
  exact ⟨⟨column, name.chars⟩, rfl, singleName?_steps.2 ⟨_, hname', hend'⟩⟩

theorem interfaceParameters?_collapse {walker typeName : Slice}
    (h : s.interfaceParameters? = some (walker, typeName)) :
    ∃ walker' typeName' : Slice, walker'.chars = walker.chars ∧ typeName'.chars = typeName.chars ∧
      s'.interfaceParameters? = some (walker', typeName') := by
  obtain ⟨s₁, s₂, s₃, terminated, hname, hgap, htype, hend⟩ := interfaceParameters?_steps.1 h
  obtain ⟨hcut, htext, -⟩ := name?_eq_some hname
  obtain ⟨-, gap, hne, hgap, hs₁⟩ := blanks?_eq_some hgap
  obtain ⟨hcut₂, hspelled, -⟩ := spelled?_eq_some htype
  obtain ⟨bl, hbl, hs₃⟩ := terminator?_eq_some hend
  have hplain := isTypeWord_plain hspelled
  have hgapText : Text.gapText gap = [' '] := by
    obtain ⟨b, more, rfl⟩ := List.exists_cons_of_ne_nil hne
    rfl
  have hcollapse : Text.collapse s.chars =
      walker.chars ++ ([' '] ++ (typeName.chars ++ terminator terminated)) := by
    have hend' := squeeze_terminator_end false [] hbl terminated
    rw [List.nil_append] at hend'
    rw [hcut.chars, hs₁, hcut₂.chars, hs₃, Text.collapse_eq_of_head (htext.head_solid _),
      Text.squeeze_word htext.solid,
      Text.squeeze_gap_word hgap (isSpelled_ne_nil hspelled) (fun c hc => (hplain c hc).1)
        (fun h => (hplain ';' (List.mem_of_mem_head? h)).2 rfl), hend', hgapText]
    rfl
  obtain ⟨column, cs⟩ := s'
  dsimp only at hs
  rw [hs, hcollapse]
  exact ⟨⟨column, walker.chars⟩, ⟨column + walker.chars.length + 1, typeName.chars⟩, rfl, rfl,
    interfaceParameters?_text htext hspelled column terminated⟩

theorem membersParameters?_collapse {walker : Slice} {mark? : Option Slice}
    (h : s.membersParameters? = some (walker, mark?)) :
    ∃ (walker' : Slice) (mark?' : Option Slice), walker'.chars = walker.chars ∧
      mark?'.map Slice.chars = mark?.map Slice.chars ∧
      s'.membersParameters? = some (walker', mark?') := by
  obtain ⟨htext, bl, hbl, ⟨mark, rfl, hmark, hchars⟩ | ⟨rfl, terminated, hchars⟩⟩ :=
    membersParameters?_eq_some h
  · have hgap := Text.squeeze_gap_word hbl (by decide) solid_openingMark (by decide) []
    rw [List.append_nil] at hgap
    have hcollapse : Text.collapse s.chars =
        walker.chars ++ (Text.gapText bl ++ openingMark.toList) := by
      rw [hchars, Text.collapse_eq_of_head (htext.head_solid _), Text.squeeze_word htext.solid, hgap]
      rfl
    obtain ⟨column, cs⟩ := s'
    dsimp only at hs
    rw [hs, hcollapse]
    have hblank : ∀ c ∈ Text.gapText bl, isBlank c = true := fun _ => Text.blank_of_mem_gapText
    have hread := membersParameters?_mark htext hblank column
    refine ⟨⟨column, walker.chars⟩, _, rfl, ?_, hread⟩
    exact congrArg some hmark.symm
  · have hcollapse : Text.collapse s.chars = walker.chars ++ terminator terminated := by
      rw [hchars, Text.collapse_eq_of_head (htext.head_solid _), Text.squeeze_word htext.solid]
      exact congrArg _ (squeeze_terminator_end false [] hbl terminated)
    obtain ⟨column, cs⟩ := s'
    dsimp only at hs
    rw [hs, hcollapse]
    exact ⟨⟨column, walker.chars⟩, none, rfl, rfl,
      membersParameters?_terminator htext column terminated⟩

theorem nameList?_collapse {names : List Slice} (h : s.nameList? = some names) :
    ∃ names' : List Slice, names'.map Slice.chars = names.map Slice.chars ∧
      s'.nameList? = some names' := by
  unfold nameList? at h
  dsimp only at h
  split at h
  · cases h
  · next hsemi =>
    obtain ⟨hlist, hnonempty⟩ := Option.filter_eq_some_iff.1 h
    obtain ⟨bl, hbl, hchars, hlast⟩ := cutTerminator_spec s
    obtain ⟨hnames, htexts⟩ := words_of_sequence? hlist
    have hwords := congrArg (List.map chars) hnames
    rw [Text.map_chars_wordsAt] at hwords
    generalize s.cutTerminator.1.chars = list at hsemi hchars hlast hwords
    generalize s.cutTerminator.2 = terminated at hchars
    have hsemi' : ';' ∉ list := by simpa using hsemi
    -- the list has a word, so blanks in front of the terminator are not in front of the text
    obtain ⟨c, hc, hsolid⟩ : ∃ c ∈ list, isBlank c = false := by
      cases hw : Text.words list with
      | nil => rw [hw] at hwords; simp [List.map_eq_nil_iff.1 hwords] at hnonempty
      | cons w ws =>
        obtain ⟨hne, hall⟩ := Text.solid_of_mem_words (show w ∈ Text.words list by simp [hw])
        obtain ⟨c, cs, rfl⟩ := List.exists_cons_of_ne_nil hne
        exact ⟨c, (hall c (by simp)).2, (hall c (by simp)).1⟩
    have hend : ∀ gap, Text.squeeze gap (bl ++ terminator terminated) = terminator terminated :=
      fun gap => squeeze_terminator_end gap [] hbl terminated
    have hcollapse : Text.collapse s.chars = Text.collapse list ++ [] ++ terminator terminated := by
      rw [hchars, List.append_assoc, Text.collapse_append_end hc hsolid hend, List.append_nil]
    have hkeep : ';' ∉ Text.collapse list := fun hm =>
      (Text.mem_collapse hm).elim hsemi' (by decide)
    obtain ⟨column, cs⟩ := s'
    dsimp only at hs
    rw [hs, hcollapse]
    have hcut := cutTerminator_append column terminated (Text.trimmed_collapse list).last
      (show ∀ c ∈ ([] : List Char), isBlank c = true by simp) fun _ h => hkeep (List.mem_of_getLast? h)
    have hsame := Text.words_collapse hsemi'
    have hread := sequence?_of_words (s := ⟨column, Text.collapse list⟩)
      (Text.trimmed_collapse list).last fun w hw => by
        dsimp only at hw
        rw [hsame, ← hwords] at hw
        obtain ⟨name, hname, rfl⟩ := List.mem_map.1 hw
        exact htexts name hname
    have hmap : (Text.wordsAt column (Text.collapse list)).map chars = names.map chars := by
      rw [Text.map_chars_wordsAt, hsame, hwords]
    refine ⟨_, hmap, ?_⟩
    have hnot : ¬ (Text.collapse list).contains ';' = true := by simpa using hkeep
    rw [nameList?, hcut]
    dsimp only
    rw [if_neg hnot, hread]
    refine Option.filter_eq_some_iff.2 ⟨rfl, ?_⟩
    have hlength := congrArg List.length hmap
    simp only [List.length_map] at hlength
    cases hfound : Text.wordsAt column (Text.collapse list) <;> cases names <;> simp_all

theorem functionParameters?_collapse {shape : FunctionShape}
    (h : s.functionParameters? = some shape) :
    ∃ shape' f f', s'.functionParameters? = some shape' ∧ shape.Holds f ∧ shape'.Holds f' ∧
      FunctionText.Like f' f := by
  obtain ⟨f, hf, hchars, hholds⟩ := functionParameters?_eq_some h
  obtain ⟨g, hg, hlike, hcollapse⟩ := FunctionText.exists_collapse hf
  obtain ⟨column, cs⟩ := s'
  dsimp only at hs
  rw [hs, hchars, hcollapse]
  obtain ⟨shape', hshape', hholds'⟩ := functionParameters?_text hg column
  exact ⟨shape', f, g, hshape', hholds, hholds', hlike⟩

end

end Slice

end LineGrammar
