import LineGrammar.Proofs.Sequences
import LineGrammar.Proofs.Shapes
import LineGrammar.Reading.Rule

/-! The grammar of rule bodies. A text is a body when it consists of elements with blanks between
neighbours. The reader of bodies accepts these texts and no others, and so a text is a body in at most one
way. -/

namespace LineGrammar

/-- The text of an element that starts in the given column: a name, possibly with an anchor in front of it
and an alias in parentheses behind it. -/
inductive IsElement : Nat → List Char → ElementShape → Prop
  | name {column : Nat} {w : List Char} (hw : IsNameText w) :
      IsElement column w ⟨none, ⟨column, w⟩, none⟩
  | aliased {column : Nat} {w bl l bl' : List Char} (hw : IsNameText w)
      (hbl : ∀ c ∈ bl, isBlank c = true) (hl : IsNameText l) (hbl' : ∀ c ∈ bl', isBlank c = true) :
      IsElement column (w ++ '(' :: (bl ++ (l ++ (bl' ++ [')']))))
        ⟨none, ⟨column, w⟩, some ⟨column + w.length + 1 + bl.length, l⟩⟩
  | anchored {column : Nat} {cs : List Char} {name : Slice} {alias? : Option Slice}
      (h : IsElement (column + 1) cs ⟨none, name, alias?⟩) :
      IsElement column ('^' :: cs) ⟨some ⟨column, ['^']⟩, name, alias?⟩

/-- The text of a body that starts in the given column: any number of elements, with at least one blank
between two of them. -/
inductive IsBody : Nat → List Char → List ElementShape → Prop
  | nil {column : Nat} : IsBody column [] []
  | last {column : Nat} {cs : List Char} {e : ElementShape} (h : IsElement column cs e) :
      IsBody column cs [e]
  | more {column : Nat} {cs gap rest : List Char} {e next : ElementShape} {es : List ElementShape}
      (h : IsElement column cs e) (hne : gap ≠ []) (hgap : ∀ c ∈ gap, isBlank c = true)
      (hmore : IsBody (column + cs.length + gap.length) rest (next :: es)) :
      IsBody column (cs ++ (gap ++ rest)) (e :: next :: es)

namespace IsElement

variable {column : Nat} {cs : List Char} {e : ElementShape}

theorem ne_nil (h : IsElement column cs e) : cs ≠ [] := by
  cases h with
  | name hw => exact isSpelled_ne_nil hw
  | aliased hw => exact List.append_ne_nil_of_left_ne_nil (isSpelled_ne_nil hw) _
  | anchored => simp

theorem head_solid (h : IsElement column cs e) (rest : List Char) :
    ∀ c ∈ (cs ++ rest).head?, isBlank c = false := by
  cases h with
  | name hw => exact hw.head_solid rest
  | aliased hw => rw [List.append_assoc]; exact hw.head_solid _
  | anchored => simp; decide

end IsElement

theorem IsBody.head_solid {column : Nat} {cs : List Char} {es : List ElementShape}
    (h : IsBody column cs es) : ∀ c ∈ cs.head?, isBlank c = false := by
  cases h with
  | nil => simp
  | last h =>
    have hhead := h.head_solid []
    rwa [List.append_nil] at hhead
  | more h => exact h.head_solid _

namespace Slice

section
variable {bl rest : List Char} (hbl : ∀ c ∈ bl, isBlank c = true) (hend : bl ≠ [] ∨ rest = [])
include hbl hend

theorem head_gap : ∀ c ∈ (bl ++ rest).head?, isBlank c = true := by
  rcases hend with hne | rfl
  · obtain ⟨b, more, rfl⟩ := List.exists_cons_of_ne_nil hne
    simpa using hbl b (by simp)
  · rw [List.append_nil]
    exact fun c hc => hbl c (List.mem_of_mem_head? hc)

/-- An element ends at a blank or with the text. -/
theorem gap_append (column : Nat) (hrest : ∀ c ∈ rest.head?, isBlank c = false) :
    (⟨column, bl ++ rest⟩ : Slice).isEmpty = true ∧
        (⟨column + bl.length, rest⟩ : Slice) = ⟨column, bl ++ rest⟩ ∨
      (⟨column, bl ++ rest⟩ : Slice).isEmpty = false ∧
        (⟨column, bl ++ rest⟩ : Slice).blanks? = some ⟨column + bl.length, rest⟩ := by
  cases bl with
  | nil =>
    rw [hend.resolve_left (by simp)]
    exact .inl ⟨rfl, rfl⟩
  | cons b bl => exact .inr ⟨rfl, blanks?_append column (by simp) hbl hrest⟩

/-- The name of an element and its alias, if it has one. -/
theorem named_append {column : Nat} {cs : List Char} {name : Slice} {alias? : Option Slice}
    (h : IsElement column cs ⟨none, name, alias?⟩) :
    ∃ s₁ : Slice, (⟨column, cs ++ (bl ++ rest)⟩ : Slice).name? = some (name, s₁) ∧
      s₁.optional parenthesised? = (alias?, ⟨column + cs.length, bl ++ rest⟩) := by
  have hhead := head_gap hbl hend
  cases h with
  | name hw =>
    have hname := name?_append column hw fun c hc => isNameChar_of_isBlank (hhead c hc)
    refine ⟨_, hname, ?_⟩
    have hnone : (⟨column + cs.length, bl ++ rest⟩ : Slice).accept? "(" = none :=
      accept?_eq_none_of_head rfl fun h => absurd (hhead '(' h) (by decide)
    rw [optional, parenthesised?, hnone]
    rfl
  | @aliased _ w gap l gap' hw hgap hl hgap' =>
    have htext : w ++ '(' :: (gap ++ (l ++ (gap' ++ [')']))) ++ (bl ++ rest) =
        w ++ '(' :: (gap ++ (l ++ (gap' ++ ')' :: (bl ++ rest)))) := by
      simp
    have hname := name?_append (r := '(' :: (gap ++ (l ++ (gap' ++ ')' :: (bl ++ rest))))) column hw
      (by simp; decide)
    have halias := parenthesised?_append (column + w.length) hgap hl hgap' (bl ++ rest)
    refine ⟨_, by rw [htext]; exact hname, ?_⟩
    rw [optional, halias]
    simp only [List.length_append, List.length_cons, List.length_nil]
    congr 2
    omega

/-- An element with the blanks around it, on a text that is written so. -/
theorem element?_append {gap cs : List Char} {e : ElementShape} (column : Nat)
    (hgap : ∀ c ∈ gap, isBlank c = true) (h : IsElement (column + gap.length) cs e)
    (hrest : ∀ c ∈ rest.head?, isBlank c = false) :
    (⟨column, gap ++ (cs ++ (bl ++ rest))⟩ : Slice).element? =
      some (e, ⟨column + gap.length + cs.length + bl.length, rest⟩) := by
  have htrim := trimStart_append column hgap (h.head_solid (bl ++ rest))
  have hnext := gap_append hbl hend (column + gap.length + cs.length) hrest
  generalize column + gap.length = start at *
  obtain ⟨anchor?, name, alias?⟩ := e
  cases anchor? with
  | none =>
    obtain ⟨s₁, hname, halias⟩ := named_append hbl hend h
    have hanchor : (⟨start, cs ++ (bl ++ rest)⟩ : Slice).accept? "^" = none := by
      obtain ⟨hcut, htext, -⟩ := name?_eq_some hname
      obtain ⟨c, w, hc⟩ := List.exists_cons_of_ne_nil (isSpelled_ne_nil htext)
      refine accept?_eq_none_of_head rfl fun h => ?_
      rw [hcut.chars, hc] at h
      obtain rfl := Option.some.inj h
      exact absurd (htext.chars '^' (hc ▸ List.mem_cons_self)) (by decide)
    have hmark : (⟨start, cs ++ (bl ++ rest)⟩ : Slice).optional (·.accept? "^") =
        (none, ⟨start, cs ++ (bl ++ rest)⟩) := by rw [optional, hanchor]
    exact element?_steps.2 ⟨name, s₁, by rw [htrim, hmark]; exact hname, by rw [halias]; exact hnext,
      by rw [htrim, hmark, halias]⟩
  | some anchor =>
    cases h with
    | @anchored _ cs _ _ h =>
      obtain ⟨s₁, hname, halias⟩ := named_append hbl hend h
      have hanchor : (⟨start, '^' :: cs ++ (bl ++ rest)⟩ : Slice).accept? "^" =
          some (⟨start, ['^']⟩, ⟨start + 1, cs ++ (bl ++ rest)⟩) := accept?_append "^" start _
      have hmark : (⟨start, '^' :: cs ++ (bl ++ rest)⟩ : Slice).optional (·.accept? "^") =
          (some ⟨start, ['^']⟩, ⟨start + 1, cs ++ (bl ++ rest)⟩) := by rw [optional, hanchor]
      rw [show start + ('^' :: cs).length = start + 1 + cs.length by simp; omega] at hnext ⊢
      exact element?_steps.2 ⟨name, s₁, by rw [htrim, hmark]; exact hname, by rw [halias]; exact hnext,
        by rw [htrim, hmark, halias]⟩

end

theorem exists_gap {s rest : Slice}
    (h : s.isEmpty = true ∧ rest = s ∨ s.isEmpty = false ∧ s.blanks? = some rest) :
    ∃ bl, (∀ c ∈ bl, isBlank c = true) ∧ s.chars = bl ++ rest.chars ∧ (bl ≠ [] ∨ rest.chars = []) ∧
      ∀ c ∈ rest.chars.head?, isBlank c = false := by
  rcases h with ⟨hempty, rfl⟩ | ⟨-, hblanks⟩
  · have hnil : rest.chars = [] := List.isEmpty_iff.1 hempty
    exact ⟨[], by simp, rfl, Or.inr hnil, by simp [hnil]⟩
  · obtain ⟨rfl, bl, hne, hbl, hs⟩ := blanks?_eq_some hblanks
    exact ⟨bl, hbl, hs, Or.inl hne, by rw [chars_trimStart]; exact Text.head_trimStart _⟩

theorem named_eq_some {s s₁ name : Slice} (h : s.name? = some (name, s₁)) :
    ∃ cs, s.chars = cs ++ (s₁.optional parenthesised?).2.chars ∧
      ∀ column, ∃ found alias?, IsElement column cs ⟨none, found, alias?⟩ := by
  obtain ⟨hcut, hname, -⟩ := name?_eq_some h
  rcases hopt : s₁.optional parenthesised? with ⟨alias?, rest⟩
  rcases optional_eq hopt with ⟨-, rfl, -⟩ | ⟨l, -, hfound⟩
  · exact ⟨name.chars, hcut.chars, fun column => ⟨_, _, .name hname⟩⟩
  · obtain ⟨hl, bl, bl', hbl, hbl', hs₁⟩ := parenthesised?_eq_some hfound
    refine ⟨_, ?_, fun column => ⟨_, _, .aliased hname hbl hl hbl'⟩⟩
    rw [hcut.chars, hs₁]
    simp

/-- What an element that has been read looks like, and where it stands. -/
theorem element?_eq_some {s rest : Slice} {e : ElementShape} (h : s.element? = some (e, rest)) :
    ∃ gap cs bl, (∀ c ∈ gap, isBlank c = true) ∧ IsElement (s.column + gap.length) cs e ∧
      (∀ c ∈ bl, isBlank c = true) ∧ s.chars = gap ++ (cs ++ (bl ++ rest.chars)) ∧
      rest.column = s.column + gap.length + cs.length + bl.length ∧
      (bl ≠ [] ∨ rest.chars = []) ∧ ∀ c ∈ rest.chars.head?, isBlank c = false := by
  have h' := h
  obtain ⟨name, s₂, hname, hnext, rfl⟩ := element?_steps.1 h
  obtain ⟨bl, hbl, htail, hend, hhead⟩ := exists_gap hnext
  obtain ⟨gap, hgap, hs⟩ := exists_trimStart s
  obtain ⟨cs, hcs, helement⟩ := named_eq_some hname
  rw [htail] at hcs
  -- the parts and their columns are found again when the same text is read as it is written
  have key : ∃ cs found, IsElement (s.column + gap.length) cs found ∧
      s.chars = gap ++ (cs ++ (bl ++ rest.chars)) := by
    rcases hopt : s.trimStart.optional (·.accept? "^") with ⟨anchor?, s₁⟩
    rw [hopt] at hcs
    rcases optional_eq hopt with ⟨-, rfl, -⟩ | ⟨anchor, -, hanchor⟩
    · obtain ⟨found, alias?, hfound⟩ := helement (s.column + gap.length)
      exact ⟨cs, _, hfound, by rw [hs, hcs]⟩
    · obtain ⟨found, alias?, hfound⟩ := helement (s.column + gap.length + 1)
      obtain ⟨hcut, hmark⟩ := accept?_eq_some hanchor
      exact ⟨'^' :: cs, _, .anchored hfound, by rw [hs, hcut.chars, hmark, hcs]; rfl⟩
  obtain ⟨cs, found, hfound, hchars⟩ := key
  have hread := element?_append hbl hend s.column hgap hfound hhead
  rw [← hchars, h'] at hread
  obtain ⟨rfl, hcolumn⟩ := Prod.mk.inj (Option.some.inj hread)
  exact ⟨gap, cs, bl, hgap, hfound, hbl, hchars, congrArg column hcolumn, hend, hhead⟩

theorem cuts_element? : Cuts element? := by
  intro s rest e h
  obtain ⟨gap, cs, bl, -, -, -, hchars, hcolumn, -⟩ := element?_eq_some h
  refine ⟨⟨gap ++ (cs ++ bl), by simp [hchars]⟩, ?_⟩
  simp only [Slice.stop, hchars, hcolumn, List.length_append]
  omega

theorem elements?_of_isBody {column : Nat} {cs : List Char} {es : List ElementShape}
    (h : IsBody column cs es) : (⟨column, cs⟩ : Slice).elements? = some es := by
  induction h with
  | nil => exact sequence?_nil cuts_element? rfl
  | @last column cs e h =>
    have hitem := element?_append (List.forall_mem_nil _) (.inr (Eq.refl ([] : List Char))) column
      (List.forall_mem_nil _) h (by simp)
    simp only [List.nil_append, List.append_nil] at hitem
    rw [elements?, sequence?_cons cuts_element? h.ne_nil hitem (List.length_pos_iff.2 h.ne_nil),
      sequence?_nil cuts_element? rfl]
    rfl
  | @more column cs gap rest e next es h hne hgap hmore ih =>
    have hitem := element?_append hgap (.inl hne) column (List.forall_mem_nil _) h hmore.head_solid
    have hlength := List.length_pos_iff.2 h.ne_nil
    rw [elements?] at ih ⊢
    rw [List.nil_append] at hitem
    rw [sequence?_cons cuts_element? (by simp [h.ne_nil]) hitem (by simp; omega)]
    exact congrArg (Option.map (e :: ·)) ih

theorem isBody_of_elements? {s : Slice} {es : List ElementShape} (h : s.elements? = some es)
    (hhead : ∀ c ∈ s.chars.head?, isBlank c = false)
    (hlast : ∀ c ∈ s.chars.getLast?, isBlank c = false) : IsBody s.column s.chars es := by
  induction es generalizing s with
  | nil =>
    rcases sequence?_eq_some cuts_element? h with ⟨hnil, -⟩ | ⟨_, _, _, -, -, -, hcons⟩
    · rw [hnil]; exact .nil
    · cases hcons
  | cons e es ih =>
    rcases sequence?_eq_some cuts_element? h with ⟨-, hnil⟩ | ⟨_, rest, _, hitem, -, hmore, hcons⟩
    · cases hnil
    · obtain ⟨rfl, rfl⟩ := List.cons.inj hcons
      obtain ⟨gap, cs, bl, hgap, helement, hbl, hchars, hcolumn, hend, hnext⟩ :=
        element?_eq_some hitem
      obtain rfl : gap = [] := by
        cases gap with
        | nil => rfl
        | cons b gap => exact absurd (hhead b (by rw [hchars]; rfl)) (by simp [hgap b (by simp)])
      rw [List.nil_append] at hchars
      rw [List.length_nil, Nat.add_zero] at helement hcolumn
      cases es with
      | nil =>
        -- nothing stands behind the last element, as the body does not end in a blank
        have hrest : rest.chars = [] := by
          rcases sequence?_eq_some cuts_element? hmore with ⟨hnil, -⟩ | ⟨_, _, _, -, -, -, hcons⟩
          · exact hnil
          · cases hcons
        have hblanks : bl = [] := by
          cases hl : bl.getLast? with
          | none => exact List.getLast?_eq_none_iff.1 hl
          | some last =>
            have hsolid := hlast last (by
              rw [hchars, hrest, List.append_nil, List.getLast?_append, hl]; rfl)
            exact absurd hsolid (by simp [hbl last (List.mem_of_getLast? hl)])
        rw [hchars, hrest, hblanks, List.append_nil, List.append_nil]
        exact .last helement
      | cons next es =>
        have hne : rest.chars ≠ [] := by
          rcases sequence?_eq_some cuts_element? hmore with ⟨-, hnil⟩ | ⟨_, _, _, -, hlt, -⟩
          · cases hnil
          · exact List.length_pos_iff.1 (Nat.zero_lt_of_lt hlt)
        have hbody := ih hmore hnext fun c hc => hlast c (by
          rw [Option.mem_def] at hc ⊢
          simp only [hchars, List.getLast?_append, hc, Option.some_or])
        rw [hchars]
        rw [hcolumn] at hbody
        exact .more helement (hend.resolve_right hne) hbl hbody

/-- The elements that are read from a text without blanks around it are those it is written with. -/
theorem elements?_eq_some_iff {s : Slice} (hhead : ∀ c ∈ s.chars.head?, isBlank c = false)
    (hlast : ∀ c ∈ s.chars.getLast?, isBlank c = false) {es : List ElementShape} :
    s.elements? = some es ↔ IsBody s.column s.chars es :=
  ⟨fun h => isBody_of_elements? h hhead hlast, elements?_of_isBody⟩

/-- The body that stands behind the operator of a rule, without its terminator and the blanks around it. -/
def ruleBody (rest : Slice) : Slice := Slice.trim ⟨rest.column, rest.unterminated⟩

theorem trimmed_ruleBody (rest : Slice) : Text.Trimmed rest.ruleBody.chars := by
  rw [ruleBody, chars_trim]
  exact Text.trimmed_trim _

theorem cutTerminator_of_head {rest : Slice} (h : ∀ c ∈ rest.chars.head?, isBlank c = false) :
    rest.cutTerminator.1 = rest.ruleBody := by
  have hhead : ∀ c ∈ rest.unterminated.head?, isBlank c = false := by
    obtain ⟨last, hlast⟩ := rest.prefix_unterminated
    exact fun c hc => h c (by rw [← hlast, List.head?_append, hc]; rfl)
  have htrim : (⟨rest.column, rest.unterminated⟩ : Slice).trimStart =
      ⟨rest.column, rest.unterminated⟩ :=
    trimStart_append rest.column (List.forall_mem_nil _) hhead
  have hcolumn : rest.ruleBody.column = rest.column := by rw [ruleBody, trim, htrim]; rfl
  have hchars : rest.ruleBody.chars = Text.trimEnd rest.unterminated := by
    rw [ruleBody, trim, htrim, chars_trimEnd]
  calc rest.cutTerminator.1 = ⟨rest.cutTerminator.1.column, rest.cutTerminator.1.chars⟩ := rfl
    _ = ⟨rest.ruleBody.column, rest.ruleBody.chars⟩ := by
      rw [column_cutTerminator, chars_cutTerminator, hcolumn, hchars]

end Slice

/-- A text is a body in at most one way. -/
theorem IsBody.unique {column : Nat} {cs : List Char} {es es' : List ElementShape}
    (h : IsBody column cs es) (h' : IsBody column cs es') : es = es' :=
  Option.some.inj ((Slice.elements?_of_isBody h).symm.trans (Slice.elements?_of_isBody h'))

end LineGrammar
