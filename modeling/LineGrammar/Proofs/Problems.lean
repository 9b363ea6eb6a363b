import LineGrammar.Proofs.LineParts
import LineGrammar.Proofs.Registration
import LineGrammar.Reading.BlockName

/-! What reading a line finds wrong with its node is about the node, and is reported at
parts of the line itself. What is wrong with the order of the lines, or with a code block, is never among it. -/

namespace LineGrammar

@[simp] theorem Diagnostic.code_of (cause : Cause) (span : Span) : (of cause span).code = cause.code :=
  rfl

@[simp] theorem Diagnostic.span_of (cause : Cause) (span : Span) : (of cause span).span = span := rfl

@[simp] theorem Line.code_problem (l : Line) (cause : Cause) : (l.problem cause).code = cause.code :=
  rfl

/-- Whether the cause is about the node of a line by itself. -/
def Cause.isOwn : Cause → Bool
  | invalidTokenDefinition | invalidRuleBody | invalidParameters _ | missingTerminator
  | invalidBlockName | unknownPragma _ | alreadySpecified _ | undefinedSymbol _
  | duplicateFunction _ | multipleAnchors | invalidElementName _ | aliasCasing .. | noDefaultWalker
  | associativityAfterToken _ | unknownWalker _ | unknownFunction _ => true
  | unrecognisedLine | blockExpected | ruleNeedsBlock _ | unmatchedBlockEnd | unexpectedBlock
  | unexpectedBlockName | unclosedBlock | tooManyErrors _ | inlineImplementation .. | notDefined _ =>
    false

/-- What is wrong with the order of the lines or with a block has codes of its own. -/
theorem Cause.code_of_isOwn {cause : Cause} (h : cause.isOwn = true) :
    cause.code ∉ ["E0101", "E0201", "E0202", "E0203", "E0204", "E0205", "E0206", "E0305"] := by
  revert h
  cases cause <;> simp [Cause.isOwn, Cause.code]

/-- The diagnostics are about the node on the line, and are reported at parts of the line. -/
def Own (line : Line) (ds : List Diagnostic) : Prop :=
  ∀ d ∈ ds, d.cause.isOwn = true ∧ line.Marks d.span

variable {line : Line} {ix : Index}

theorem own_nil : Own line [] := by simp [Own]

theorem Own.append {ds es : List Diagnostic} (h : Own line ds) (h' : Own line es) :
    Own line (ds ++ es) := by
  intro d hd
  rcases List.mem_append.1 hd with hd | hd
  · exact h d hd
  · exact h' d hd

theorem own_of {cause : Cause} (h : cause.isOwn = true) {span : Span} (hspan : line.Marks span) :
    Own line [.of cause span] := by
  intro d hd
  rw [List.mem_singleton.1 hd]
  exact ⟨h, hspan⟩

theorem own_problem {cause : Cause} (h : cause.isOwn = true) : Own line [line.problem cause] :=
  own_of h line.marks_span

theorem own_checkTerminator (line : Line) (terminated : Bool) :
    Own line (line.checkTerminator terminated) := by
  unfold Line.checkTerminator
  split
  · exact own_nil
  · exact own_of rfl line.marks_endSpan

namespace PragmaBody

theorem own_checkWalker (ix : Index) {walker : Lexeme} (h : line.Holds walker) :
    Own line (checkWalker ix walker) := by
  unfold checkWalker
  split
  · exact own_nil
  · exact own_of rfl h.marks

theorem own_checkAssociative (ix : Index) {token : Lexeme} (h : line.Holds token) :
    Own line (checkAssociative ix token) := by
  unfold checkAssociative
  split
  · exact own_of rfl h.marks
  · split
    · exact own_of rfl h.marks
    · exact own_nil

section
variable {parameters : Slice} (hp : parameters.Whole line.raw.toList) {r : Reading PragmaBody}

theorem own_readClassName? (h : readClassName? line parameters ix = some r) :
    Own line r.problems := by
  obtain ⟨⟨name, terminated⟩, -, h⟩ := Option.bind_eq_some_iff.1 h
  dsimp only at h
  split at h <;> cases h
  · exact (own_checkTerminator line _).append (own_problem rfl)
  · exact own_checkTerminator line _

theorem own_readWalkers? (h : readWalkers? line parameters ix = some r) : Own line r.problems := by
  obtain ⟨names, -, h⟩ := Option.bind_eq_some_iff.1 h
  dsimp only at h
  split at h <;> cases h
  · exact own_problem rfl
  · exact own_nil

include hp

theorem own_readDefaultWalker? (h : readDefaultWalker? line parameters ix = some r) :
    Own line r.problems := by
  obtain ⟨⟨name, terminated⟩, hname, h⟩ := Option.bind_eq_some_iff.1 h
  have hword := (Slice.singleName?_words hp hname).1
  dsimp only at h
  split at h
  · cases h; exact own_problem rfl
  · split at h <;> cases h
    · exact own_nil
    · exact own_checkWalker ix (Line.holds_lexeme hword.whole)

theorem own_readMembers? (h : readMembers? line parameters ix = some r) : Own line r.problems := by
  obtain ⟨⟨name, mark?⟩, hname, h⟩ := Option.bind_eq_some_iff.1 h
  have hword := (Slice.membersParameters?_words hp hname).1
  cases h
  exact own_checkWalker ix (Line.holds_lexeme hword.whole)

theorem own_readAssociativity? {associativity : Associativity}
    (h : readAssociativity? associativity line parameters ix = some r) : Own line r.problems := by
  obtain ⟨names, hnames, h⟩ := Option.bind_eq_some_iff.1 h
  have hwords := (Slice.nameList?_words hp hnames).1
  cases h
  intro d hd
  obtain ⟨token, htoken, hd⟩ := List.mem_flatMap.1 hd
  obtain ⟨name, hname, rfl⟩ := List.mem_map.1 htoken
  exact own_checkAssociative ix (Line.holds_lexeme (hwords name hname).1.whole) d hd

theorem own_readWalkerInterface? (h : readWalkerInterface? line parameters ix = some r) :
    Own line r.problems := by
  obtain ⟨⟨name, typeName⟩, hname, h⟩ := Option.bind_eq_some_iff.1 h
  have hword := (Slice.interfaceParameters?_words hp hname).1
  cases h
  exact own_checkWalker ix (Line.holds_lexeme hword.whole)

omit hp

theorem own_functionWalker (ix : Index) {first : Nat} {shape : FunctionShape}
    (hshape : Slice.FunctionWords line.raw.toList first shape) :
    Own line (functionWalker ix (shape.bare line)).2 := by
  unfold functionWalker
  split
  · next walker hwalker =>
    obtain ⟨slice, hslice, rfl⟩ := Option.map_eq_some_iff.1 hwalker
    exact own_checkWalker ix (Line.holds_lexeme (hshape.walker slice hslice).1.whole)
  · split
    · exact own_nil
    · exact own_of rfl (Line.holds_lexeme hshape.function.whole).marks

theorem own_functionReading {decl : FunctionDecl} (hfunction : line.Holds decl.function)
    {problems : List Diagnostic} (h : Own line problems) :
    Own line (functionReading ix decl problems).problems := by
  unfold functionReading
  split
  · split
    · exact h.append (own_of rfl hfunction.marks)
    · exact h
  · exact h

include hp

theorem own_readFunction? (h : readFunction? line parameters ix = some r) :
    Own line r.problems := by
  obtain ⟨shape, hshape, -⟩ := Option.bind_eq_some_iff.1 h
  have hwords := Slice.functionParameters?_words hp hshape
  rw [readFunction?_eq hshape] at h
  cases h
  exact own_functionReading (Line.holds_lexeme hwords.function.whole)
    ((own_checkTerminator line _).append (own_functionWalker ix hwords))

theorem own_read? {keyword : Keyword} (h : read? keyword line parameters ix = some r) :
    Own line r.problems := by
  cases keyword with
  | className => exact own_readClassName? h
  | walkers => exact own_readWalkers? h
  | defaultWalker => exact own_readDefaultWalker? hp h
  | members => exact own_readMembers? hp h
  | left | right | token => exact own_readAssociativity? hp h
  | function => exact own_readFunction? hp h
  | walkerInterface => exact own_readWalkerInterface? hp h
  | lexerMode | lexerInclude | start =>
    obtain ⟨⟨name, terminated⟩, -, h⟩ := Option.bind_eq_some_iff.1 h
    cases h
    exact own_nil
  | namespaceName | prologue | epilogue | inclusion | checkUnusedTokens =>
    cases h
    exact own_nil

theorem own_readBody {name : Slice} (hname : name.Whole line.raw.toList) (ix : Index) :
    Own line (readBody line name parameters ix).problems := by
  unfold readBody
  split
  · next keyword _ =>
    cases h : read? keyword line parameters ix with
    | none =>
      refine own_of rfl ?_
      split
      · exact line.marks_span
      · exact (Line.holds_lexeme hp).marks
    | some r => exact own_read? hp h
  · exact own_of rfl (Line.holds_lexeme hname).marks

end

end PragmaBody

theorem RuleElement.own_problems (anchored : Bool) {shapes : List ElementShape}
    (h : ∀ e ∈ shapes, Slice.ElementWords line.raw.toList e) :
    Own line (RuleElement.problems anchored (shapes.map (RuleElement.ofShape line))) := by
  induction shapes generalizing anchored with
  | nil => exact own_nil
  | cons shape rest ih =>
    have hshape := h shape (by simp)
    refine Own.append (Own.append ?_ ?_) (ih _ fun e he => h e (List.mem_cons_of_mem _ he))
    · unfold RuleElement.anchorProblems
      split
      · next anchor hanchor =>
        obtain ⟨slice, hslice, rfl⟩ := Option.map_eq_some_iff.1 hanchor
        split
        · exact own_of rfl (Line.holds_lexeme (hshape.anchor slice hslice)).marks
        · exact own_nil
      · exact own_nil
    · unfold RuleElement.nameProblems
      split
      · exact own_of rfl (Line.holds_lexeme hshape.name.whole).marks
      · split
        · exact own_nil
        · next l hl =>
          obtain ⟨slice, hslice, rfl⟩ := Option.map_eq_some_iff.1 hl
          have hmarks := (Line.holds_lexeme (hshape.aliasName slice hslice).whole).marks
          dsimp only
          split <;> split
          all_goals first | exact own_nil | exact own_of rfl hmarks

theorem Node.own_read {shape : Shape} (hshape : Shape.of? line.body = some shape) (ix : Index) :
    Own line (Node.read line ix shape).problems := by
  have hbody := line.whole_body
  cases shape with
  | comment => exact own_nil
  | pragma mark name parameters =>
    obtain ⟨-, hname, hparameters, -⟩ := Shape.pragma?_words hbody (Shape.pragma?_of_of? hshape)
    exact PragmaBody.own_readBody hparameters hname.whole ix
  | token name operator rest =>
    unfold Node.read TokenDef.read
    dsimp only
    split
    · exact own_problem rfl
    · exact own_checkTerminator line _
  | rule name alias? operator rest =>
    obtain ⟨-, -, -, hrest, -⟩ := Shape.rule?_words hbody (Shape.rule?_of_of? hshape)
    obtain ⟨hlist, -⟩ := hrest.cutTerminator
    refine Own.append ?_ (RuleElement.own_problems false (Slice.elements_words hlist))
    split
    · exact own_nil
    · exact own_of rfl (Line.holds_lexeme hlist).marks

theorem BlockName.own_read (line : Line) (rule? : Option String) (ix : Index) :
    Own line (BlockName.read line rule? ix).problems := by
  unfold BlockName.read
  dsimp only
  split
  · exact own_problem rfl
  · next walker function? hname =>
    obtain ⟨hwalker, hfunction⟩ := Slice.blockName?_words line.whole_body hname
    refine Own.append ?_ ?_
    · dsimp only
      split
      · exact own_nil
      · exact own_of rfl (Line.holds_lexeme hwalker.whole).marks
    · split
      · next function key hkey =>
        have hholds : line.Holds function := by
          cases function? with
          | none => cases hkey
          | some slice =>
            cases rule? <;> cases hkey
            exact Line.holds_lexeme (hfunction slice rfl).1.whole
        split
        · exact own_nil
        · exact own_of rfl hholds.marks
      · exact own_nil

end LineGrammar
