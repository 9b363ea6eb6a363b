import LineGrammar.Proofs.Recognition
import LineGrammar.Proofs.Scanners

/-! What the shapes of lines look like. Each shape is told by the first character of its line, so
a text of one shape is not read as another. -/

namespace LineGrammar

theorem isNameChar_of_isTokenChar {c : Char} (h : isTokenChar c = true) : isNameChar c = true := by
  simp only [isTokenChar, isNameChar, isAlphanum_eq, isAlpha_eq, Bool.or_eq_true] at h ⊢
  rcases h with (h | h) | h
  · exact Or.inl (Or.inl (Or.inl h))
  · exact Or.inl (Or.inr h)
  · exact Or.inr h

theorem isTokenChar_of_isBlank {c : Char} (h : isBlank c = true) : isTokenChar c = false := by
  cases htoken : isTokenChar c with
  | false => rfl
  | true => exact absurd (isBlank_of_isNameChar (isNameChar_of_isTokenChar htoken)) (by simp [h])

theorem isTokenStart_of_isRuleStart {c : Char} (h : isRuleStart c = true) :
    isTokenStart c = false := by
  rw [isRuleStart, isLower_iff] at h
  rw [isTokenStart, ← Bool.not_eq_true, isUpper_iff]
  omega

theorem isNameText_of_isTokenSpelled {cs : List Char}
    (h : isSpelled isTokenStart isTokenChar cs = true) : IsNameText cs := by
  obtain ⟨c, cs, rfl⟩ := List.exists_cons_of_ne_nil (isSpelled_ne_nil h)
  obtain ⟨hc, hcs⟩ := isSpelled_cons.1 h
  refine isSpelled_cons.2 ⟨?_, fun d hd => isNameChar_of_isTokenChar (hcs d hd)⟩
  simp [isNameStart, isAlpha_eq, show c.isUpper = true from hc]

theorem isNameText_of_isRuleSpelled {cs : List Char}
    (h : isSpelled isRuleStart isNameChar cs = true) : IsNameText cs := by
  obtain ⟨c, cs, rfl⟩ := List.exists_cons_of_ne_nil (isSpelled_ne_nil h)
  obtain ⟨hc, hcs⟩ := isSpelled_cons.1 h
  refine isSpelled_cons.2 ⟨?_, hcs⟩
  simp [isNameStart, isAlpha_eq, show c.isLower = true from hc]

namespace Slice

theorem parenthesised?_eq_some {s name rest : Slice} (h : s.parenthesised? = some (name, rest)) :
    IsNameText name.chars ∧ ∃ bl bl', (∀ c ∈ bl, isBlank c = true) ∧ (∀ c ∈ bl', isBlank c = true) ∧
      s.chars = '(' :: (bl ++ (name.chars ++ (bl' ++ ')' :: rest.chars))) := by
  obtain ⟨opening, s₁, s₂, closing, hopening, hname, hclosing⟩ := parenthesised?_steps.1 h
  obtain ⟨hcut₁, hopen⟩ := accept?_eq_some hopening
  obtain ⟨bl₁, hbl₁, hs₁⟩ := exists_trimStart s₁
  obtain ⟨hcut₂, htext, -⟩ := name?_eq_some hname
  obtain ⟨bl₂, hbl₂, hs₂⟩ := exists_trimStart s₂
  obtain ⟨hcut₃, hclose⟩ := accept?_eq_some hclosing
  refine ⟨htext, bl₁, bl₂, hbl₁, hbl₂, ?_⟩
  rw [hcut₁.chars, hopen, hs₁, hcut₂.chars, hs₂, hcut₃.chars, hclose]
  rfl

/-- A name in parentheses, on a text that is written so. -/
theorem parenthesised?_append {bl w bl' : List Char} (column : Nat) (hbl : ∀ c ∈ bl, isBlank c = true)
    (hw : IsNameText w) (hbl' : ∀ c ∈ bl', isBlank c = true) (cs : List Char) :
    (⟨column, '(' :: (bl ++ (w ++ (bl' ++ ')' :: cs)))⟩ : Slice).parenthesised? =
      some (⟨column + 1 + bl.length, w⟩,
        ⟨column + 1 + bl.length + w.length + bl'.length + 1, cs⟩) := by
  have hopen : (⟨column, '(' :: (bl ++ (w ++ (bl' ++ ')' :: cs)))⟩ : Slice).accept? "(" =
      some (⟨column, ['(']⟩, ⟨column + 1, bl ++ (w ++ (bl' ++ ')' :: cs))⟩) :=
    accept?_append "(" column _
  have htrim := trimStart_append (column + 1) hbl (hw.head_solid (bl' ++ ')' :: cs))
  have hname := name?_append (r := bl' ++ ')' :: cs) (column + 1 + bl.length) hw
    (head_blanks_append hbl' (fun _ => isNameChar_of_isBlank) (by simp; decide))
  have htrim' := trimStart_append (r := ')' :: cs) (column + 1 + bl.length + w.length) hbl'
    (by simp; decide)
  have hclose : (⟨column + 1 + bl.length + w.length + bl'.length, ')' :: cs⟩ : Slice).accept? ")" =
      some (⟨column + 1 + bl.length + w.length + bl'.length, [')']⟩,
        ⟨column + 1 + bl.length + w.length + bl'.length + 1, cs⟩) := accept?_append ")" _ cs
  exact parenthesised?_steps.2 ⟨_, _, _, _, hopen, by rw [htrim]; exact hname, by rw [htrim']; exact hclose⟩

/-- A name in parentheses, if there is one. -/
def aliasText : Option (List Char) → List Char
  | some name => '(' :: (name ++ [')'])
  | none => []

theorem noBreak_aliasText {alias? : Option (List Char)} (h : ∀ l ∈ alias?, IsNameText l) :
    '\n' ∉ aliasText alias? := by
  cases alias? with
  | none => exact List.not_mem_nil
  | some l => simp [aliasText, (h l rfl).noBreak]

theorem optional_alias (column : Nat) {alias? : Option (List Char)}
    (h : ∀ name ∈ alias?, IsNameText name) {rest : List Char} (hrest : rest.head? ≠ some '(') :
    ∃ found? : Option Slice, found?.map Slice.chars = alias? ∧
      (⟨column, aliasText alias? ++ rest⟩ : Slice).optional parenthesised? =
        (found?, ⟨column + (aliasText alias?).length, rest⟩) := by
  cases alias? with
  | none =>
    have hnone : (⟨column, rest⟩ : Slice).accept? "(" = none := accept?_eq_none_of_head rfl hrest
    refine ⟨none, rfl, ?_⟩
    rw [show aliasText none ++ rest = rest from rfl, optional, parenthesised?, hnone]
    rfl
  | some name =>
    have htext : aliasText (some name) ++ rest = '(' :: (name ++ ')' :: rest) := by
      simp [aliasText]
    refine ⟨some ⟨column + 1, name⟩, rfl, ?_⟩
    have hread := parenthesised?_append column (List.forall_mem_nil _) (h name rfl)
      (List.forall_mem_nil _) rest
    rw [List.nil_append, List.nil_append] at hread
    rw [htext, optional, hread]
    simp [aliasText, Nat.add_assoc, Nat.add_comm 1]

end Slice

namespace Shape

open Slice

theorem tail?_eq_some {s rest : Slice} (h : tail? s = some rest) :
    rest = s.trim ∧ '\n' ∉ rest.chars := by
  unfold tail? at h
  split at h
  · cases h
  · next hmem => cases h; exact ⟨rfl, hmem⟩

theorem tail?_of {s : Slice} (h : '\n' ∉ s.trim.chars) : tail? s = some s.trim := if_neg h

theorem comment?_eq_some {s : Slice} {shape : Shape} (h : comment? s = some shape) :
    shape = .comment ∧ ∃ rest, s.chars = '/' :: '/' :: rest ∧ '\n' ∉ rest := by
  obtain ⟨mark, rest, hmark, hbreak, rfl⟩ := comment?_steps.1 h
  obtain ⟨hcut, hchars⟩ := accept?_eq_some hmark
  exact ⟨rfl, rest.chars, by rw [hcut.chars, hchars]; rfl, hbreak⟩

theorem pragma?_eq_some {s : Slice} {shape : Shape} (h : pragma? s = some shape) :
    ∃ mark name params : Slice, shape = .pragma mark name params ∧ IsNameText name.chars ∧
      mark.chars = '%' :: name.chars ∧ '\n' ∉ params.chars ∧
      ∃ rest, s.chars = '%' :: (name.chars ++ rest) ∧ params.chars = Text.trim rest ∧
        ∀ c ∈ rest.head?, isNameChar c = false := by
  obtain ⟨mark, s₁, name, s₂, params, hmark, hname, hparams, rfl⟩ := pragma?_steps.1 h
  obtain ⟨hcut, hchars⟩ := accept?_eq_some hmark
  obtain ⟨hcut', htext, hhead⟩ := name?_eq_some hname
  obtain ⟨rfl, hbreak⟩ := tail?_eq_some hparams
  have hs : s.chars = '%' :: name.chars ++ s₂.chars := by
    rw [hcut.chars, hchars, hcut'.chars]; rfl
  refine ⟨_, name, _, rfl, htext, ?_, hbreak, s₂.chars, hs, chars_trim s₂, hhead⟩
  have htake : ('%' :: name.chars ++ s₂.chars).take ('%' :: name.chars).length = '%' :: name.chars :=
    List.take_left
  rw [← hs] at htake
  exact htake

theorem token?_eq_some {s : Slice} {shape : Shape} (h : token? s = some shape) :
    ∃ name operator rest : Slice, shape = .token name operator rest ∧
      isSpelled isTokenStart isTokenChar name.chars = true ∧ operator.chars = [':', '='] ∧
      '\n' ∉ rest.chars ∧
      ∃ bl tail, (∀ c ∈ bl, isBlank c = true) ∧
        s.chars = name.chars ++ (bl ++ (':' :: '=' :: tail)) ∧ rest.chars = Text.trim tail := by
  obtain ⟨name, s₁, operator, s₂, rest, hname, hoperator, hrest, rfl⟩ := token?_steps.1 h
  obtain ⟨hcut, hspelled, -⟩ := spelled?_eq_some hname
  obtain ⟨bl, hbl, hs₁⟩ := exists_trimStart s₁
  obtain ⟨hcut', hmark⟩ := accept?_eq_some hoperator
  obtain ⟨rfl, hbreak⟩ := tail?_eq_some hrest
  refine ⟨name, operator, _, rfl, hspelled, hmark, hbreak, bl, s₂.chars, hbl, ?_, chars_trim s₂⟩
  rw [hcut.chars, hs₁, hcut'.chars, hmark]; rfl

/-- An alias as it stands after the name of a rule. -/
def IsAliasText (alias? : Option Slice) (cs : List Char) : Prop :=
  match alias? with
  | some name => IsNameText name.chars ∧ ∃ bl bl', (∀ c ∈ bl, isBlank c = true) ∧
      (∀ c ∈ bl', isBlank c = true) ∧ cs = '(' :: (bl ++ (name.chars ++ (bl' ++ [')'])))
  | none => cs = []

theorem optional_parenthesised? (s : Slice) :
    ∃ cs, IsAliasText (s.optional parenthesised?).1 cs ∧
      s.chars = cs ++ (s.optional parenthesised?).2.chars := by
  rcases hopt : s.optional parenthesised? with ⟨alias?, rest⟩
  rcases optional_eq hopt with ⟨rfl, rfl, -⟩ | ⟨name, rfl, hname⟩
  · exact ⟨[], rfl, rfl⟩
  · obtain ⟨htext, bl, bl', hbl, hbl', hchars⟩ := parenthesised?_eq_some hname
    exact ⟨_, ⟨htext, bl, bl', hbl, hbl', rfl⟩, by rw [hchars]; simp⟩

theorem rule?_eq_some {s : Slice} {shape : Shape} (h : rule? s = some shape) :
    ∃ name alias? operator rest, shape = .rule name alias? operator rest ∧
      isSpelled isRuleStart isNameChar name.chars = true ∧ operator.chars = [':', '='] ∧
      '\n' ∉ rest.chars ∧
      ∃ al bl tail, IsAliasText alias? al ∧ (∀ c ∈ bl, isBlank c = true) ∧
        s.chars = name.chars ++ (al ++ (bl ++ (':' :: '=' :: tail))) ∧
        rest.chars = Text.trim tail := by
  obtain ⟨name, s₁, operator, s₂, rest, hname, hoperator, hrest, rfl⟩ := rule?_steps.1 h
  obtain ⟨hcut, hspelled, -⟩ := spelled?_eq_some hname
  obtain ⟨al, hal, hs₁⟩ := optional_parenthesised? s₁
  obtain ⟨bl, hbl, hs₂⟩ := exists_trimStart (s₁.optional parenthesised?).2
  obtain ⟨hcut', hmark⟩ := accept?_eq_some hoperator
  obtain ⟨rfl, hbreak⟩ := tail?_eq_some hrest
  refine ⟨name, _, operator, _, rfl, hspelled, hmark, hbreak, al, bl, s₂.chars, hal, hbl, ?_,
    chars_trim s₂⟩
  rw [hcut.chars, hs₁, hs₂, hcut'.chars, hmark]; rfl

theorem of?_eq_some {s : Slice} {shape : Shape} (h : of? s = some shape) :
    comment? s = some shape ∨ pragma? s = some shape ∨ token? s = some shape ∨
      rule? s = some shape := by
  unfold of? at h
  cases hc : comment? s <;> cases hp : pragma? s <;> cases ht : token? s <;> simp_all

theorem pragma?_of_of? {s mark name params : Slice}
    (h : of? s = some (.pragma mark name params)) : pragma? s = some (.pragma mark name params) := by
  rcases of?_eq_some h with h | h | h | h
  · cases (comment?_eq_some h).1
  · exact h
  · obtain ⟨_, _, _, hshape, -⟩ := token?_eq_some h; cases hshape
  · obtain ⟨_, _, _, _, hshape, -⟩ := rule?_eq_some h; cases hshape

theorem token?_of_of? {s name operator rest : Slice}
    (h : of? s = some (.token name operator rest)) : token? s = some (.token name operator rest) := by
  rcases of?_eq_some h with h | h | h | h
  · cases (comment?_eq_some h).1
  · obtain ⟨_, _, _, hshape, -⟩ := pragma?_eq_some h; cases hshape
  · exact h
  · obtain ⟨_, _, _, _, hshape, -⟩ := rule?_eq_some h; cases hshape

theorem rule?_of_of? {s name operator rest : Slice} {alias? : Option Slice}
    (h : of? s = some (.rule name alias? operator rest)) :
    rule? s = some (.rule name alias? operator rest) := by
  rcases of?_eq_some h with h | h | h | h
  · cases (comment?_eq_some h).1
  · obtain ⟨_, _, _, hshape, -⟩ := pragma?_eq_some h; cases hshape
  · obtain ⟨_, _, _, hshape, -⟩ := token?_eq_some h; cases hshape
  · exact h

theorem comment?_of_of? {s : Slice} (h : of? s = some .comment) : comment? s = some .comment := by
  rcases of?_eq_some h with h | h | h | h
  · exact h
  · obtain ⟨_, _, _, hshape, -⟩ := pragma?_eq_some h; cases hshape
  · obtain ⟨_, _, _, hshape, -⟩ := token?_eq_some h; cases hshape
  · obtain ⟨_, _, _, _, hshape, -⟩ := rule?_eq_some h; cases hshape

-- the first character of a text excludes all shapes but one
theorem comment?_eq_none {s : Slice} (h : s.chars.head? ≠ some '/') : comment? s = none := by
  have hmark : s.accept? "//" = none := accept?_eq_none_of_head rfl h
  rw [comment?, hmark]; rfl

theorem pragma?_eq_none {s : Slice} (h : s.chars.head? ≠ some '%') : pragma? s = none := by
  have hmark : s.accept? "%" = none := accept?_eq_none_of_head rfl h
  rw [pragma?, hmark]; rfl

theorem token?_eq_none {s : Slice} (h : ∀ c ∈ s.chars.head?, isTokenStart c = false) :
    token? s = none := by
  have hname : s.spelled? isTokenStart isTokenChar = none := by
    unfold spelled?
    split
    · rfl
    · next c cs hcs => rw [if_neg]; simp [h c (by rw [hcs]; rfl)]
  rw [token?, hname]; rfl

theorem of?_comment {s : Slice} {rest : List Char} (hs : s.chars = '/' :: '/' :: rest)
    (hbreak : '\n' ∉ rest) : of? s = some .comment := by
  obtain ⟨column, cs⟩ := s
  dsimp only at hs
  subst hs
  have hmark := accept?_append "//" column rest
  have hcomment : comment? ⟨column, '/' :: '/' :: rest⟩ = some .comment :=
    comment?_steps.2 ⟨_, _, hmark, hbreak, rfl⟩
  rw [of?, hcomment]; rfl

theorem of?_pragma {s : Slice} {name rest : List Char} (hs : s.chars = '%' :: (name ++ rest))
    (hname : IsNameText name) (hrest : ∀ c ∈ rest.head?, isNameChar c = false)
    (hbreak : '\n' ∉ Text.trim rest) :
    ∃ mark name' params : Slice, of? s = some (.pragma mark name' params) ∧
      mark.chars = '%' :: name ∧ name'.chars = name ∧ params.chars = Text.trim rest := by
  obtain ⟨column, cs⟩ := s
  dsimp only at hs
  subst hs
  have hmark : (⟨column, '%' :: (name ++ rest)⟩ : Slice).accept? "%" =
      some (⟨column, ['%']⟩, ⟨column + 1, name ++ rest⟩) := accept?_append "%" column _
  have hread := name?_append (column + 1) hname hrest
  have htail : tail? ⟨column + 1 + name.length, rest⟩ =
      some (⟨column + 1 + name.length, rest⟩ : Slice).trim :=
    tail?_of (by rw [chars_trim]; exact hbreak)
  have hcut := split_append column ('%' :: name) rest
  rw [List.cons_append, List.length_cons] at hcut
  have hcomment : comment? ⟨column, '%' :: (name ++ rest)⟩ = none := comment?_eq_none (by simp)
  have hpragma := pragma?_steps.2 ⟨_, _, _, _, _, hmark, hread, htail, rfl⟩
  rw [hcut] at hpragma
  refine ⟨⟨column, '%' :: name⟩, ⟨column + 1, name⟩, _, ?_, rfl, rfl,
    chars_trim ⟨column + 1 + name.length, rest⟩⟩
  rw [of?, hcomment, hpragma]
  rfl

theorem of?_token {s : Slice} {name bl tail : List Char}
    (hs : s.chars = name ++ (bl ++ (':' :: '=' :: tail)))
    (hname : isSpelled isTokenStart isTokenChar name = true) (hbl : ∀ c ∈ bl, isBlank c = true)
    (hbreak : '\n' ∉ Text.trim tail) :
    ∃ name' operator rest : Slice, of? s = some (.token name' operator rest) ∧
      name'.chars = name ∧ operator.chars = [':', '='] ∧ rest.chars = Text.trim tail := by
  obtain ⟨column, cs⟩ := s
  dsimp only at hs
  subst hs
  have hnext : ∀ c ∈ (bl ++ (':' :: '=' :: tail)).head?, isTokenChar c = false :=
    head_blanks_append hbl (fun c hc => isTokenChar_of_isBlank hc) (by simp; decide)
  have hread := spelled?_append column hname hnext
  have htrim := trimStart_append (r := ':' :: '=' :: tail) (column + name.length) hbl
    (by simp; decide)
  have hmark : (⟨column + name.length + bl.length, ':' :: '=' :: tail⟩ : Slice).accept? ":=" =
      some (⟨column + name.length + bl.length, [':', '=']⟩,
        ⟨column + name.length + bl.length + 2, tail⟩) := accept?_append ":=" _ tail
  have htail : tail? ⟨column + name.length + bl.length + 2, tail⟩ =
      some (⟨column + name.length + bl.length + 2, tail⟩ : Slice).trim :=
    tail?_of (by rw [chars_trim]; exact hbreak)
  have hhead : ∀ c ∈ (name ++ (bl ++ (':' :: '=' :: tail))).head?, isTokenStart c = true := by
    obtain ⟨c, cs, rfl⟩ := List.exists_cons_of_ne_nil (isSpelled_ne_nil hname)
    simpa using (isSpelled_cons.1 hname).1
  have hcomment : comment? ⟨column, name ++ (bl ++ (':' :: '=' :: tail))⟩ = none :=
    comment?_eq_none fun h => absurd (hhead _ h) (by decide)
  have hpragma : pragma? ⟨column, name ++ (bl ++ (':' :: '=' :: tail))⟩ = none :=
    pragma?_eq_none fun h => absurd (hhead _ h) (by decide)
  have htoken := token?_steps.2 ⟨_, _, _, _, _, hread, by rw [htrim]; exact hmark, htail, rfl⟩
  refine ⟨⟨column, name⟩, ⟨column + name.length + bl.length, [':', '=']⟩, _, ?_, rfl, rfl,
    chars_trim ⟨column + name.length + bl.length + 2, tail⟩⟩
  rw [of?, hcomment, hpragma, htoken]
  rfl

theorem of?_rule {s : Slice} {name bl tail : List Char} {alias? : Option (List Char)}
    (hs : s.chars = name ++ (aliasText alias? ++ (bl ++ (':' :: '=' :: tail))))
    (hname : isSpelled isRuleStart isNameChar name = true)
    (halias : ∀ l ∈ alias?, IsNameText l) (hbl : ∀ c ∈ bl, isBlank c = true)
    (hbreak : '\n' ∉ Text.trim tail) :
    ∃ (name' : Slice) (found? : Option Slice) (operator rest : Slice),
      of? s = some (.rule name' found? operator rest) ∧ name'.chars = name ∧
      found?.map Slice.chars = alias? ∧ operator.chars = [':', '='] ∧
      rest.chars = Text.trim tail := by
  obtain ⟨column, cs⟩ := s
  dsimp only at hs
  subst hs
  have hgap : ∀ c ∈ (bl ++ (':' :: '=' :: tail)).head?, isNameChar c = false ∧ c ≠ '(' :=
    head_blanks_append hbl
      (fun c hc => ⟨isNameChar_of_isBlank hc, by rintro rfl; exact absurd hc (by decide)⟩)
      (by simp; decide)
  have hnext : ∀ c ∈ (aliasText alias? ++ (bl ++ (':' :: '=' :: tail))).head?,
      isNameChar c = false := by
    cases alias? with
    | none => exact fun c hc => (hgap c hc).1
    | some l => simp [aliasText]; decide
  have hread := spelled?_append column hname hnext
  obtain ⟨found?, hfound, hopt⟩ := optional_alias (column + name.length) halias
    fun h => (hgap '(' h).2 rfl
  generalize column + name.length + (aliasText alias?).length = col at hopt
  have htrim := trimStart_append (r := ':' :: '=' :: tail) col hbl (by simp; decide)
  have hmark : (⟨col + bl.length, ':' :: '=' :: tail⟩ : Slice).accept? ":=" =
      some (⟨col + bl.length, [':', '=']⟩, ⟨col + bl.length + 2, tail⟩) :=
    accept?_append ":=" _ tail
  have htail : tail? ⟨col + bl.length + 2, tail⟩ =
      some (⟨col + bl.length + 2, tail⟩ : Slice).trim :=
    tail?_of (by rw [chars_trim]; exact hbreak)
  have hhead : ∀ c ∈ (name ++ (aliasText alias? ++ (bl ++ (':' :: '=' :: tail)))).head?,
      isRuleStart c = true := by
    obtain ⟨c, cs, rfl⟩ := List.exists_cons_of_ne_nil (isSpelled_ne_nil hname)
    simpa using (isSpelled_cons.1 hname).1
  generalize hcs : name ++ (aliasText alias? ++ (bl ++ (':' :: '=' :: tail))) = cs at *
  have hcomment : comment? ⟨column, cs⟩ = none :=
    comment?_eq_none fun h => absurd (hhead _ h) (by decide)
  have hpragma : pragma? ⟨column, cs⟩ = none :=
    pragma?_eq_none fun h => absurd (hhead _ h) (by decide)
  have htoken : token? ⟨column, cs⟩ = none :=
    token?_eq_none fun c h => isTokenStart_of_isRuleStart (hhead c h)
  have hrule := rule?_steps.2 ⟨_, _, _, _, _, hread, by rw [hopt, htrim]; exact hmark, htail, rfl⟩
  rw [hopt] at hrule
  refine ⟨⟨column, name⟩, found?, ⟨col + bl.length, [':', '=']⟩, _, ?_, rfl, hfound, rfl,
    chars_trim ⟨col + bl.length + 2, tail⟩⟩
  rw [of?, hcomment, hpragma, htoken, hrule]
  rfl

end Shape

end LineGrammar
