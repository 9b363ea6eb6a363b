import LineGrammar.Proofs.BlockNameContent
import LineGrammar.Proofs.Parameters
import LineGrammar.Proofs.Places
import LineGrammar.Proofs.RuleText
import LineGrammar.Proofs.Shapes

/-! The parts of each kind of line: the parameters of the pragmas, the values of tokens, the elements of
rules and the names of blocks. Each part stands in the line where it was read, and the names of a line
follow each other from left to right. -/

namespace LineGrammar

namespace Slice

variable {cs : List Char} {s rest : Slice}

theorem singleName?_words {name : Slice} {terminated : Bool} (hs : s.Whole cs)
    (h : s.singleName? = some (name, terminated)) : name.IsWord cs ∧ s.column ≤ name.column := by
  obtain ⟨s₁, hname, -⟩ := singleName?_steps.1 h
  obtain ⟨hword, -, hcolumn, -⟩ := hs.name? hname
  exact ⟨hword, by omega⟩

theorem listItem?_words {name : Slice} (hs : s.Whole cs) (h : s.listItem? = some (name, rest)) :
    name.IsWord cs ∧ rest.Whole cs ∧ s.column ≤ name.column ∧ name.column < rest.column := by
  obtain ⟨s₁, hname, rfl⟩ := listItem?_steps.1 h
  obtain ⟨hword, hrest, hcolumn, hlt⟩ := hs.trimStart.name? hname
  have hle := column_le_trimStart s
  have hle' := column_le_trimStart s₁
  exact ⟨hword, hrest.trimStart, by omega, by omega⟩

theorem nameList?_words {names : List Slice} (hs : s.Whole cs) (h : s.nameList? = some names) :
    (∀ name ∈ names, name.IsWord cs ∧ s.column ≤ name.column) ∧
      names.Pairwise fun name other => name.column < other.column := by
  unfold nameList? at h
  dsimp only at h
  split at h
  · cases h
  · obtain ⟨hsequence, -⟩ := Option.filter_eq_some_iff.1 h
    obtain ⟨hlist, hcolumn⟩ := hs.cutTerminator
    rw [← hcolumn]
    exact hlist.sequence? cuts_listItem? Slice.column (fun hs h => listItem?_words hs h) hsequence

theorem membersParameters?_words {walker : Slice} {mark? : Option Slice} (hs : s.Whole cs)
    (h : s.membersParameters? = some (walker, mark?)) :
    walker.IsWord cs ∧ s.column ≤ walker.column ∧ ∀ mark ∈ mark?, mark.Whole cs := by
  obtain ⟨s₁, hname, hend⟩ := membersParameters?_steps.1 h
  obtain ⟨hword, hrest, hcolumn, -⟩ := hs.name? hname
  refine ⟨hword, by omega, ?_⟩
  rcases hend with ⟨mark, s₂, hmark, -, rfl⟩ | ⟨-, -, -, rfl⟩
  · simpa using (hrest.trimStart.accept? (by decide) hmark).1
  · simp

theorem interfaceParameters?_words {walker typeName : Slice} (hs : s.Whole cs)
    (h : s.interfaceParameters? = some (walker, typeName)) :
    walker.IsWord cs ∧ s.column ≤ walker.column ∧ typeName.Whole cs := by
  obtain ⟨s₁, s₂, s₃, terminated, hname, hgap, htype, -⟩ := interfaceParameters?_steps.1 h
  obtain ⟨hword, hrest, hcolumn, -⟩ := hs.name? hname
  refine ⟨hword, by omega, ((hrest.blanks? hgap).1.spelled? (fun c hc => ?_) htype).1⟩
  simp [isTypeWordChar, hc]

theorem cutsWords_qualifier? : CutsWords cs qualifier? := by
  intro s walker rest hs h
  obtain ⟨s₁, mark, hname, hmark⟩ := qualifier?_steps.1 h
  obtain ⟨hword, h₁, hcolumn, hlt⟩ := hs.name? hname
  obtain ⟨-, h₂, hle, hle'⟩ := h₁.accept? (by decide) hmark
  exact ⟨hword, h₂, by omega, by omega⟩

/-- The parts of a function declaration stand in the line, its names in order. -/
structure FunctionWords (cs : List Char) (first : Nat) (shape : FunctionShape) : Prop where
  rule : shape.rule.IsWord cs
  first : first ≤ shape.rule.column
  walker : ∀ walker ∈ shape.walker?, walker.IsWord cs ∧ shape.rule.column < walker.column ∧
    walker.column < shape.function.column
  function : shape.function.IsWord cs
  after : shape.rule.column < shape.function.column
  parameters : shape.parameters.Whole cs
  returnType : shape.returnType.Whole cs

theorem functionParameters?_words {shape : FunctionShape} (hs : s.Whole cs)
    (h : s.functionParameters? = some shape) : FunctionWords cs s.column shape := by
  obtain ⟨rule, s₁, s₂, function, s₃, opening, s₄, closing, s₅, arrow, s₆, hrule, hgap, hfunction,
    hopening, hclosing, harrow, -, rfl⟩ := functionParameters?_steps.1 h
  obtain ⟨hword, h₁, hcolumn, hlt⟩ := hs.name? hrule
  obtain ⟨h₂, hle⟩ := h₁.blanks? hgap
  obtain ⟨hwalker, hqualified, hle'⟩ := cutsWords_qualifier?.optional h₂
  obtain ⟨hword', h₃, hcolumn', -⟩ := hqualified.name? hfunction
  obtain ⟨-, h₄, -⟩ := h₃.trimStart.accept? (by decide) hopening
  obtain ⟨hparameters, h₄'⟩ := h₄.splitWhile (p := fun c => c != '(' && c != ')') <| .inl <| by
    intro c hc
    simp only [Bool.and_eq_true, bne_iff_ne]
    constructor <;> rintro rfl <;> exact absurd hc (by decide)
  obtain ⟨-, h₅, -⟩ := h₄'.accept? (by decide) hclosing
  obtain ⟨-, h₆, -⟩ := h₅.trimStart.accept? (by decide) harrow
  exact {
    rule := hword
    first := by dsimp only; omega
    walker := fun walker hmem => by
      obtain ⟨hword₂, hle₂, hlt₂⟩ := hwalker walker hmem
      refine ⟨hword₂, ?_, ?_⟩ <;> dsimp only <;> omega
    function := hword'
    after := by dsimp only; omega
    parameters := hparameters
    returnType := h₆.trimStart.cutTerminator.1 }

theorem cutsWords_markedFunction? : CutsWords cs markedFunction? := by
  intro s function rest hs h
  obtain ⟨mark, s₁, hmark, hname⟩ := markedFunction?_steps.1 h
  obtain ⟨-, h₁, hle, hle'⟩ := hs.accept? (by decide) hmark
  obtain ⟨hword, h₂, hcolumn, hlt⟩ := h₁.name? hname
  exact ⟨hword, h₂, by omega, hlt⟩

theorem blockName?_words {walker : Slice} {function? : Option Slice} (hs : s.Whole cs)
    (h : s.blockName? = some (walker, function?)) :
    walker.IsWord cs ∧
      ∀ function ∈ function?, function.IsWord cs ∧ walker.column < function.column := by
  obtain ⟨mark, s₁, s₂, hmark, hname, -, rfl⟩ := blockName?_steps.1 h
  obtain ⟨-, h₁, -⟩ := hs.accept? (by decide) hmark
  obtain ⟨hword, h₂, -, hlt⟩ := h₁.name? hname
  obtain ⟨hfunction, -⟩ := cutsWords_markedFunction?.optional h₂
  refine ⟨hword, fun function hmem => ?_⟩
  obtain ⟨hword', hle, -⟩ := hfunction function hmem
  exact ⟨hword', by omega⟩

theorem cutsWhole_literal? : CutsWhole cs literal? := by
  intro s literal rest hs h
  obtain ⟨hcut, body, hbody, hclose⟩ := literal?_eq_some h
  have hlast : ∀ c ∈ literal.chars.getLast?, isNameChar c = false := by
    intro c hc
    have hquote := last_of_closingQuote? hclose
    rw [hbody, List.getLast?_cons, hquote] at hc
    rw [← Option.some.inj hc]
    decide
  obtain ⟨hliteral, hrest⟩ := hs.cut hcut (apart_of_last hlast _)
  refine ⟨hliteral, hrest, Nat.le_of_eq hcut.column.symm, ?_⟩
  rw [hcut.next, hcut.column]
  omega

theorem cutsWhole_mode? : CutsWhole cs mode? := by
  intro s mode rest hs h
  obtain ⟨opening, s₁, s₂, closing, hopening, hfound, hclosing⟩ := mode?_steps.1 h
  obtain ⟨-, h₁, hle, hle'⟩ := hs.accept? (by decide) hopening
  have hle₁ := column_le_trimStart s₁
  have hle₂ := column_le_trimStart s₂
  have hmode : mode.Whole cs ∧ s₂.Whole cs ∧ s₁.trimStart.column ≤ mode.column ∧
      mode.column ≤ s₂.column := by
    rcases hfound with hcurrent | ⟨-, hname⟩
    · exact h₁.trimStart.accept? (by decide) hcurrent
    · obtain ⟨hword, h₂, hcolumn, hlt⟩ := h₁.trimStart.name? hname
      exact ⟨hword.whole, h₂, by omega, by omega⟩
  obtain ⟨hwhole, h₂, hle₃, hle₄⟩ := hmode
  obtain ⟨-, h₃, hle₅, hle₆⟩ := h₂.trimStart.accept? (by decide) hclosing
  exact ⟨hwhole, h₃, by omega, by omega⟩

theorem tokenValue?_whole {value : TokenValue} (hs : s.Whole cs) (h : s.tokenValue? = some value) :
    value.literal.Whole cs ∧ (∀ bang ∈ value.bang?, bang.Whole cs) ∧
      ∀ mode ∈ value.mode?, mode.Whole cs ∧ s.column ≤ mode.column := by
  obtain ⟨literal, s₁, terminated, hliteral, -, rfl⟩ := tokenValue?_steps.1 h
  obtain ⟨hwhole, h₁, hle, hle'⟩ := cutsWhole_literal? hs hliteral
  obtain ⟨hbang, h₂, hle₂⟩ := CutsWhole.optional (cutsWhole_accept? "!" (by decide)) h₁
  obtain ⟨hmode, -⟩ := cutsWhole_mode?.optional h₂.trimStart
  have hle₃ := column_le_trimStart (s₁.optional (·.accept? "!")).2
  refine ⟨hwhole, fun bang hmem => (hbang bang hmem).1, fun mode hmem => ?_⟩
  obtain ⟨hwhole', hle₄, -⟩ := hmode mode hmem
  exact ⟨hwhole', by omega⟩

/-- The parts of an element stand in the line. -/
structure ElementWords (cs : List Char) (e : ElementShape) : Prop where
  anchor : ∀ anchor ∈ e.anchor?, anchor.Whole cs
  name : e.name.IsWord cs
  aliasName : ∀ name ∈ e.alias?, name.IsWord cs

theorem element?_words {e : ElementShape} (hs : s.Whole cs) (h : s.element? = some (e, rest)) :
    ElementWords cs e ∧ rest.Whole cs ∧ s.column ≤ e.name.column ∧ e.name.column < rest.column := by
  obtain ⟨name, s₂, hname, hend, rfl⟩ := element?_steps.1 h
  obtain ⟨hanchor, h₁, hle₁⟩ :=
    CutsWhole.optional (cutsWhole_accept? "^" (by decide)) hs.trimStart
  obtain ⟨hword, h₂, hcolumn, hlt⟩ := h₁.name? hname
  obtain ⟨halias, h₃, hle₃⟩ := cutsWords_parenthesised?.optional h₂
  have hle := column_le_trimStart s
  obtain ⟨hwhole, hle'⟩ : rest.Whole cs ∧ (s₂.optional parenthesised?).2.column ≤ rest.column := by
    rcases hend with ⟨-, rfl⟩ | ⟨-, hblanks⟩
    · exact ⟨h₃, Nat.le_refl _⟩
    · exact h₃.blanks? hblanks
  exact ⟨⟨fun anchor hmem => (hanchor anchor hmem).1, hword, fun l hmem => (halias l hmem).1⟩,
    hwhole, by dsimp only; omega, by dsimp only; omega⟩

theorem elements?_words {es : List ElementShape} (hs : s.Whole cs) (h : s.elements? = some es) :
    (∀ e ∈ es, ElementWords cs e ∧ s.column ≤ e.name.column) ∧
      es.Pairwise fun e other => e.name.column < other.name.column :=
  hs.sequence? cuts_element? (fun e => e.name.column) element?_words h

/-- The elements of a body, which counts as empty when it is malformed. -/
theorem elements_words (hs : s.Whole cs) : ∀ e ∈ s.elements?.getD [], ElementWords cs e := by
  cases helements : s.elements? with
  | none => simp
  | some es => exact fun e he => ((elements?_words hs helements).1 e he).1

end Slice

namespace Shape

variable {cs : List Char} {s : Slice}

theorem tail?_whole {s₁ rest : Slice} (hs : s₁.Whole cs) (h : tail? s₁ = some rest) :
    rest.Whole cs ∧ s₁.column ≤ rest.column := by
  obtain ⟨rfl, -⟩ := tail?_eq_some h
  exact ⟨hs.trim, Slice.column_le_trimStart s₁⟩

theorem pragma?_words {mark name params : Slice} (hs : s.Whole cs)
    (h : pragma? s = some (.pragma mark name params)) :
    mark.Whole cs ∧ name.IsWord cs ∧ params.Whole cs ∧ name.column < params.column := by
  obtain ⟨percent, s₁, _, s₂, _, hmark, hname, hparams, ⟨⟩⟩ := pragma?_steps.1 h
  obtain ⟨-, h₁, -⟩ := hs.accept? (by decide) hmark
  obtain ⟨hword, h₂, -, hlt⟩ := h₁.name? hname
  obtain ⟨htail, hle⟩ := tail?_whole h₂ hparams
  obtain ⟨hcut, hchars⟩ := Slice.accept?_eq_some hmark
  obtain ⟨hcut', -, hhead⟩ := Slice.name?_eq_some hname
  refine ⟨(hs.cut (Slice.cut_split _ s) (apart_of_head ?_ _)).1, hword, htail, by omega⟩
  have hrest : (s.split (name.chars.length + 1)).2.chars = s₂.chars := by
    simp [Slice.split, hcut.chars, hchars, hcut'.chars]
  rw [hrest]
  exact hhead

theorem head_operator {mark : String} (hmark : Slice.IsMark mark) (hne : mark.toList ≠ [])
    (tail : List Char) {bl : List Char} (hbl : ∀ c ∈ bl, isBlank c = true) :
    ∀ c ∈ (bl ++ (mark.toList ++ tail)).head?, isNameChar c = false := by
  refine Slice.head_blanks_append hbl (fun _ => isNameChar_of_isBlank) fun c hc => ?_
  obtain ⟨d, more, hcons⟩ := List.exists_cons_of_ne_nil hne
  rw [hcons] at hc
  cases hc
  exact hmark _ (hcons ▸ List.mem_cons_self)

theorem token?_words {name operator rest : Slice} (hs : s.Whole cs)
    (h : token? s = some (.token name operator rest)) :
    name.IsWord cs ∧ operator.Whole cs ∧ rest.Whole cs ∧ name.column < rest.column := by
  obtain ⟨_, s₁, _, s₂, _, hname, hoperator, hrest, ⟨⟩⟩ := token?_steps.1 h
  obtain ⟨hcut, hspelled, -⟩ := Slice.spelled?_eq_some hname
  have htext := isNameText_of_isTokenSpelled hspelled
  obtain ⟨bl, hbl, hs₁⟩ := Slice.exists_trimStart s₁
  obtain ⟨hcut', hchars⟩ := Slice.accept?_eq_some hoperator
  obtain ⟨hpart, h₁⟩ := hs.cut hcut <| apart_of_head (by
    rw [hs₁, hcut'.chars, hchars]
    exact head_operator (by decide) (by decide) _ hbl) _
  obtain ⟨hmark, h₂, hle, hle'⟩ := h₁.trimStart.accept? (by decide) hoperator
  obtain ⟨htail, hle₂⟩ := tail?_whole h₂ hrest
  have hle₁ := Slice.column_le_trimStart s₁
  have hlength := List.length_pos_iff.2 (isSpelled_ne_nil htext)
  have hnext := hcut.next
  have hcolumn := hcut.column
  exact ⟨⟨hpart, htext⟩, hmark, htail, by omega⟩

theorem rule?_words {name operator rest : Slice} {alias? : Option Slice} (hs : s.Whole cs)
    (h : rule? s = some (.rule name alias? operator rest)) :
    name.IsWord cs ∧ (∀ l ∈ alias?, l.IsWord cs) ∧ operator.Whole cs ∧ rest.Whole cs ∧
      name.column < rest.column := by
  obtain ⟨_, s₁, _, s₂, _, hname, hoperator, hrest, ⟨⟩⟩ := rule?_steps.1 h
  obtain ⟨hcut, hspelled, -⟩ := Slice.spelled?_eq_some hname
  have htext := isNameText_of_isRuleSpelled hspelled
  obtain ⟨hpart, h₁⟩ := hs.spelled? (fun _ => id) hname
  obtain ⟨halias, h₁', hle₀⟩ := Slice.cutsWords_parenthesised?.optional h₁
  obtain ⟨hmark, h₂, hle, hle'⟩ := h₁'.trimStart.accept? (by decide) hoperator
  obtain ⟨htail, hle₂⟩ := tail?_whole h₂ hrest
  have hle₁ := Slice.column_le_trimStart (s₁.optional Slice.parenthesised?).2
  have hlength := List.length_pos_iff.2 (isSpelled_ne_nil htext)
  have hnext := hcut.next
  have hcolumn := hcut.column
  exact ⟨⟨hpart, htext⟩, fun l hl => (halias l hl).1, hmark, htail, by omega⟩

end Shape

namespace Line

theorem whole_body (l : Line) : l.body.Whole l.raw.toList := (Slice.whole_self _).trim

/-- The lexeme stands on the line, at its columns. -/
def Holds (line : Line) (l : Lexeme) : Prop := ∃ s : Slice, s.Whole line.raw.toList ∧ l = line.lexeme s

/-- The span of a part of the line. -/
def Marks (line : Line) (span : Span) : Prop := ∃ l, line.Holds l ∧ span = l.span

variable {line : Line} {l : Lexeme}

theorem holds_lexeme {s : Slice} (h : s.Whole line.raw.toList) : line.Holds (line.lexeme s) :=
  ⟨s, h, rfl⟩

theorem holds_whole (line : Line) : line.Holds line.whole := holds_lexeme line.whole_body

theorem Holds.number_eq (h : line.Holds l) : l.line = line.number := by
  obtain ⟨s, -, rfl⟩ := h
  rfl

theorem Holds.marks (h : line.Holds l) : line.Marks l.span := ⟨l, h, rfl⟩

theorem Marks.number_eq {span : Span} (h : line.Marks span) : span.start.line = line.number := by
  obtain ⟨l, hl, rfl⟩ := h
  exact hl.number_eq

theorem marks_span (line : Line) : line.Marks line.span := line.holds_whole.marks

theorem marks_endSpan (line : Line) : line.Marks line.endSpan :=
  ⟨line.lexeme ⟨line.body.stop, []⟩, holds_lexeme line.whole_body.atStop, rfl⟩

end Line

end LineGrammar
