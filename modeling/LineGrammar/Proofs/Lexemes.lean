import LineGrammar.Proofs.LineParts
import LineGrammar.Proofs.Registration
import LineGrammar.Reading.BlockName

/-! The lexemes of a node. All of them stand on the line from which the node was read, and the names
among them are words of this line, from left to right. -/

namespace LineGrammar

def CodeBlock.lexemes (b : CodeBlock) : List Lexeme := b.opening :: b.closing.toList

def RuleElement.lexemes (e : RuleElement) : List Lexeme :=
  e.anchor?.toList ++ e.name :: e.alias?.toList

def FunctionDecl.words (f : FunctionDecl) : List Lexeme := f.rule :: (f.walker?.toList ++ [f.function])

namespace PragmaBody

/-- The names of symbols in the order in which they are written. -/
def words : PragmaBody → List Lexeme
  | walkers ws _ => ws
  | defaultWalker walker | members walker _ _ | walkerInterface walker _ _ => [walker]
  | associativity _ tokens => tokens
  | function decl => decl.words
  | lexerMode mode | lexerInclude mode => [mode]
  | start rule => [rule]
  | className _ | reserved | invalid | unknown => []

/-- What else is written. -/
def parts : PragmaBody → List Lexeme
  | className name => [name]
  | members _ opening block => opening.toList ++ block.toList.flatMap CodeBlock.lexemes
  | function decl => [decl.parameters, decl.returnType]
  | walkerInterface _ typeName _ => [typeName]
  | _ => []

end PragmaBody

namespace Node

/-- The names of symbols in the order in which they are written. -/
def words : Node → List Lexeme
  | pragma p => p.body.words
  | token t => t.name :: t.lexerMode?.toList
  | rule r => r.name :: r.elements.map RuleElement.name
  | blockName n => n.walker?.toList ++ n.function?.toList
  | comment _ | block _ => []

/-- Everything that the node keeps of the text, with its place. -/
def lexemes : Node → List Lexeme
  | comment text => [text]
  | pragma p => p.mark :: p.name :: p.parameters :: (p.body.words ++ p.body.parts)
  | token t => t.name :: t.operator :: (t.literal?.toList ++ t.bang?.toList ++ t.mode?.toList)
  | rule r => r.name :: (r.alias?.toList ++ r.operator :: r.elements.flatMap RuleElement.lexemes)
  | block b => b.lexemes
  | blockName n => n.marker :: (n.walker?.toList ++ n.function?.toList)

/-- The references of a node are some of its names, in the same order. -/
theorem references_sublist (n : Node) : (n.references.map Prod.fst).Sublist n.words := by
  cases n with
  | comment text => exact List.Sublist.refl _
  | block b => exact List.Sublist.refl _
  | pragma p =>
    obtain ⟨mark, name, parameters, keyword?, body, span⟩ := p
    cases body with
    | walkers walkers declared =>
      simp [references, Pragma.references, words, PragmaBody.words, Function.comp_def]
    | associativity associativity tokens =>
      simp [references, Pragma.references, words, PragmaBody.words, Function.comp_def]
    | function decl =>
      simp only [references, Pragma.references, FunctionDecl.references, words, PragmaBody.words,
        FunctionDecl.words, List.map_cons, List.cons_append, List.map_append, List.map_map]
      refine (List.Sublist.append ?_ ?_).cons_cons _
      · simp [Function.comp_def]
      · cases decl.key? <;> simp
    | _ => exact List.Sublist.refl _
  | token t => simp [references, TokenDef.references, words, Function.comp_def]
  | rule r =>
    simp only [references, RuleDef.references, words, List.map_cons, List.map_filterMap]
    refine List.Sublist.cons_cons _ ?_
    rw [← List.filterMap_eq_map]
    induction r.elements with
    | nil => exact List.Sublist.refl _
    | cons e rest ih =>
      cases hs : e.symbol? with
      | none => simpa [hs] using ih.cons _
      | some s => simpa [hs] using ih
  | blockName n =>
    simp only [references, BlockName.references, words, List.map_append, List.map_map]
    refine List.Sublist.append ?_ ?_
    · simp [Function.comp_def]
    · obtain ⟨marker, walker?, function?, rule?, span⟩ := n
      cases walker? <;> cases function? <;> cases rule? <;> simp [BlockName.functionKey?]

end Node

theorem Node.mem_words {n : Node} {ref : Lexeme × Symbol} (h : ref ∈ n.references) : ref.1 ∈ n.words :=
  n.references_sublist.subset (List.mem_map_of_mem h)

@[simp] theorem Line.start_lexeme (line : Line) (s : Slice) : (line.lexeme s).start = s.column := rfl

/-- The lexeme is a name on the line. -/
def Line.HoldsWord (line : Line) (l : Lexeme) : Prop :=
  ∃ s : Slice, s.IsWord line.raw.toList ∧ l = line.lexeme s

theorem Line.HoldsWord.holds {line : Line} {l : Lexeme} (h : line.HoldsWord l) : line.Holds l := by
  obtain ⟨s, hs, rfl⟩ := h
  exact holds_lexeme hs.whole

variable {line : Line}

/-- What is written in a body stands on the line, its names from left to right and none before a
column. -/
structure PragmaBody.StandsOn (line : Line) (first : Nat) (body : PragmaBody) : Prop where
  words : ∀ l ∈ body.words, line.HoldsWord l
  first : ∀ l ∈ body.words, first ≤ l.start
  order : body.words.Pairwise fun l l' => l.start < l'.start
  parts : ∀ l ∈ body.parts, line.Holds l

/-- What is written in a node stands on the line, its names from left to right. -/
structure Node.StandsOn (line : Line) (n : Node) : Prop where
  words : ∀ l ∈ n.words, line.HoldsWord l
  order : n.words.Pairwise fun l l' => l.start < l'.start
  lexemes : ∀ l ∈ n.lexemes, line.Holds l

/-- Names that are read from left to right. -/
theorem words_map (line : Line) (names : List Slice) (hwords : ∀ s ∈ names, s.IsWord line.raw.toList)
    (horder : names.Pairwise fun s t => s.column < t.column) :
    (∀ l ∈ names.map line.lexeme, line.HoldsWord l) ∧
      (names.map line.lexeme).Pairwise fun l l' => l.start < l'.start := by
  refine ⟨fun l hl => ?_, List.pairwise_map.2 horder⟩
  obtain ⟨s, hs, rfl⟩ := List.mem_map.1 hl
  exact ⟨s, hwords s hs, rfl⟩

namespace PragmaBody

theorem standsOn_of {first : Nat} {body : PragmaBody} (names : List Slice)
    (hnames : body.words = names.map line.lexeme)
    (hwords : ∀ s ∈ names, s.IsWord line.raw.toList ∧ first ≤ s.column)
    (horder : names.Pairwise fun s t => s.column < t.column)
    (hparts : ∀ l ∈ body.parts, line.Holds l) : body.StandsOn line first := by
  obtain ⟨hheld, hpairs⟩ := words_map line names (fun s hs => (hwords s hs).1) horder
  refine ⟨by rwa [hnames], fun l hl => ?_, by rwa [hnames], hparts⟩
  rw [hnames] at hl
  obtain ⟨s, hs, rfl⟩ := List.mem_map.1 hl
  exact (hwords s hs).2

theorem standsOn_one {first : Nat} {body : PragmaBody} {name : Slice}
    (hnames : body.words = [line.lexeme name]) (hword : name.IsWord line.raw.toList ∧ first ≤ name.column)
    (hparts : ∀ l ∈ body.parts, line.Holds l) : body.StandsOn line first :=
  standsOn_of [name] hnames (by simpa using hword) (by simp) hparts

/-- Looking up the walker changes nothing that is written. -/
theorem written_functionReading (ix : Index) (decl : FunctionDecl) (problems : List Diagnostic) :
    (functionReading ix decl problems).node.words = decl.words ∧
      (functionReading ix decl problems).node.parts = [decl.parameters, decl.returnType] := by
  unfold functionReading
  split
  · split <;> exact ⟨rfl, rfl⟩
  · exact ⟨rfl, rfl⟩

section
variable {parameters : Slice} (hp : parameters.Whole line.raw.toList) {ix : Index}
  {r : Reading PragmaBody}
include hp

theorem standsOn_readClassName? (h : readClassName? line parameters ix = some r) :
    r.node.StandsOn line parameters.column := by
  obtain ⟨⟨name, terminated⟩, hname, h⟩ := Option.bind_eq_some_iff.1 h
  have hholds : ∀ l ∈ [line.lexeme name], line.Holds l := fun l hl => by
    rw [List.mem_singleton.1 hl]
    exact Line.holds_lexeme (Slice.singleName?_words hp hname).1.whole
  dsimp only at h
  split at h <;> cases h
  all_goals exact ⟨by simp [words], by simp [words], by simp [words], hholds⟩

theorem standsOn_readWalkers? (h : readWalkers? line parameters ix = some r) :
    r.node.StandsOn line parameters.column := by
  obtain ⟨names, hnames, h⟩ := Option.bind_eq_some_iff.1 h
  obtain ⟨hwords, horder⟩ := Slice.nameList?_words hp hnames
  dsimp only at h
  split at h <;> cases h
  all_goals exact standsOn_of names rfl hwords horder (by simp [parts])

theorem standsOn_readDefaultWalker? (h : readDefaultWalker? line parameters ix = some r) :
    r.node.StandsOn line parameters.column := by
  obtain ⟨⟨name, terminated⟩, hname, h⟩ := Option.bind_eq_some_iff.1 h
  have hword := Slice.singleName?_words hp hname
  dsimp only at h
  split at h
  · cases h; exact standsOn_one rfl hword (by simp [parts])
  · split at h <;> cases h
    all_goals exact standsOn_one rfl hword (by simp [parts])

theorem standsOn_readMembers? (h : readMembers? line parameters ix = some r) :
    r.node.StandsOn line parameters.column := by
  obtain ⟨⟨name, mark?⟩, hname, h⟩ := Option.bind_eq_some_iff.1 h
  obtain ⟨hword, hfirst, hmark⟩ := Slice.membersParameters?_words hp hname
  cases h
  refine standsOn_one rfl ⟨hword, hfirst⟩ fun l hl => ?_
  cases mark? with
  | none => simp [parts] at hl
  | some mark =>
    obtain rfl : l = line.lexeme mark := by simpa [parts] using hl
    exact Line.holds_lexeme (hmark mark rfl)

theorem standsOn_readAssociativity? {associativity : Associativity}
    (h : readAssociativity? associativity line parameters ix = some r) :
    r.node.StandsOn line parameters.column := by
  obtain ⟨names, hnames, h⟩ := Option.bind_eq_some_iff.1 h
  obtain ⟨hwords, horder⟩ := Slice.nameList?_words hp hnames
  cases h
  exact standsOn_of names rfl hwords horder (by simp [parts])

theorem standsOn_readFunction? (h : readFunction? line parameters ix = some r) :
    r.node.StandsOn line parameters.column := by
  obtain ⟨shape, hshape, -⟩ := Option.bind_eq_some_iff.1 h
  have hwords := Slice.functionParameters?_words hp hshape
  rw [readFunction?_eq hshape] at h
  cases h
  obtain ⟨hnames, hparts⟩ := written_functionReading ix
    { shape.bare line with walkerName := (functionWalker ix (shape.bare line)).1 }
    (line.checkTerminator shape.terminated ++ (functionWalker ix (shape.bare line)).2)
  refine standsOn_of (shape.rule :: (shape.walker?.toList ++ [shape.function])) ?_ ?_ ?_ ?_
  · rw [hnames]
    cases hwalker : shape.walker? <;> simp [FunctionDecl.words, FunctionShape.bare, hwalker]
  · have hfunction := Nat.le_trans hwords.first (Nat.le_of_lt hwords.after)
    have hwalker := hwords.walker
    cases hw : shape.walker? with
    | none => simp [hwords.rule, hwords.first, hwords.function, hfunction]
    | some walker =>
      obtain ⟨hword, hafter, -⟩ := hwalker walker hw
      simp [hwords.rule, hwords.first, hwords.function, hfunction, hword,
        Nat.le_trans hwords.first (Nat.le_of_lt hafter)]
  · have hwalker := hwords.walker
    cases hw : shape.walker? with
    | none => simpa using hwords.after
    | some walker => simpa using ⟨⟨(hwalker walker hw).2.1, hwords.after⟩, (hwalker walker hw).2.2⟩
  · rw [hparts]
    simpa [FunctionShape.bare] using
      ⟨Line.holds_lexeme hwords.parameters, Line.holds_lexeme hwords.returnType⟩

theorem standsOn_readLexerMode? (h : readLexerMode? line parameters ix = some r) :
    r.node.StandsOn line parameters.column := by
  obtain ⟨⟨name, terminated⟩, hname, h⟩ := Option.bind_eq_some_iff.1 h
  cases h
  exact standsOn_one rfl (Slice.singleName?_words hp hname) (by simp [parts])

theorem standsOn_readLexerInclude? (h : readLexerInclude? line parameters ix = some r) :
    r.node.StandsOn line parameters.column := by
  obtain ⟨⟨name, terminated⟩, hname, h⟩ := Option.bind_eq_some_iff.1 h
  cases h
  exact standsOn_one rfl (Slice.singleName?_words hp hname) (by simp [parts])

theorem standsOn_readWalkerInterface? (h : readWalkerInterface? line parameters ix = some r) :
    r.node.StandsOn line parameters.column := by
  obtain ⟨⟨name, typeName⟩, hname, h⟩ := Option.bind_eq_some_iff.1 h
  obtain ⟨hword, hfirst, htype⟩ := Slice.interfaceParameters?_words hp hname
  cases h
  exact standsOn_one rfl ⟨hword, hfirst⟩ (by simpa [parts] using Line.holds_lexeme htype)

theorem standsOn_readStart? (h : readStart? line parameters ix = some r) :
    r.node.StandsOn line parameters.column := by
  obtain ⟨⟨name, terminated⟩, hname, h⟩ := Option.bind_eq_some_iff.1 h
  cases h
  exact standsOn_one rfl (Slice.singleName?_words hp hname) (by simp [parts])

theorem standsOn_read? {keyword : Keyword} (h : read? keyword line parameters ix = some r) :
    r.node.StandsOn line parameters.column := by
  cases keyword with
  | className => exact standsOn_readClassName? hp h
  | walkers => exact standsOn_readWalkers? hp h
  | defaultWalker => exact standsOn_readDefaultWalker? hp h
  | members => exact standsOn_readMembers? hp h
  | left | right | token => exact standsOn_readAssociativity? hp h
  | function => exact standsOn_readFunction? hp h
  | lexerMode => exact standsOn_readLexerMode? hp h
  | lexerInclude => exact standsOn_readLexerInclude? hp h
  | walkerInterface => exact standsOn_readWalkerInterface? hp h
  | start => exact standsOn_readStart? hp h
  | namespaceName | prologue | epilogue | inclusion | checkUnusedTokens =>
    cases h
    exact ⟨by simp [words], by simp [words], by simp [words], by simp [parts]⟩

theorem standsOn_readBody (name : Slice) :
    (readBody line name parameters ix).node.StandsOn line parameters.column := by
  unfold readBody
  split
  · next keyword _ =>
    cases h : read? keyword line parameters ix with
    | none => exact ⟨by simp [readInvalid, words], by simp [readInvalid, words],
        by simp [readInvalid, words], by simp [readInvalid, parts]⟩
    | some r => exact standsOn_read? hp h
  · exact ⟨by simp [readUnknown, words], by simp [readUnknown, words], by simp [readUnknown, words],
      by simp [readUnknown, parts]⟩

end

end PragmaBody

namespace Node

theorem standsOn_comment (line : Line) : (Node.comment line.whole).StandsOn line :=
  ⟨by simp [words], by simp [words], by simpa [lexemes] using line.holds_whole⟩

theorem standsOn_pragma {mark name parameters : Slice} (ix : Index)
    (h : Shape.pragma? line.body = some (.pragma mark name parameters)) :
    (Node.pragma (Pragma.read line mark name parameters ix).node).StandsOn line := by
  obtain ⟨hmark, hname, hparameters, -⟩ := Shape.pragma?_words line.whole_body h
  have hbody := @PragmaBody.standsOn_readBody line parameters hparameters ix name
  refine ⟨hbody.words, hbody.order, fun l hl => ?_⟩
  rw [Pragma.read_eq] at hl
  simp only [lexemes, List.mem_cons, List.mem_append] at hl
  rcases hl with rfl | rfl | rfl | hl | hl
  · exact Line.holds_lexeme hmark
  · exact Line.holds_lexeme hname.whole
  · exact Line.holds_lexeme hparameters
  · exact (hbody.words l hl).holds
  · exact hbody.parts l hl

theorem standsOn_token {name operator rest : Slice} (ix : Index)
    (h : Shape.token? line.body = some (.token name operator rest)) :
    (Node.token (TokenDef.read line name operator rest ix).node).StandsOn line := by
  obtain ⟨hname, hoperator, hrest, hlt⟩ := Shape.token?_words line.whole_body h
  have hself : line.HoldsWord (line.lexeme name) := ⟨name, hname, rfl⟩
  have hmark := Line.holds_lexeme hoperator
  unfold TokenDef.read
  dsimp only
  split
  · exact ⟨by simpa [words, TokenDef.lexerMode?] using hself, by simp [words, TokenDef.lexerMode?],
      by simpa [lexemes] using ⟨hself.holds, hmark⟩⟩
  · next value hvalue =>
    obtain ⟨hliteral, hbang, hmode⟩ := Slice.tokenValue?_whole hrest hvalue
    obtain ⟨-, -, -, htext⟩ := Slice.tokenValue?_eq_some hvalue
    have hnamed : ∀ l ∈ (value.mode?.map line.lexeme).filter (·.text ≠ currentMode),
        line.HoldsWord l ∧ name.column < l.start := by
      intro l hl
      obtain ⟨hl, hother⟩ := Option.mem_filter_iff.1 hl
      obtain ⟨mode, hmem, rfl⟩ := Option.map_eq_some_iff.1 hl
      obtain ⟨hwhole, hle⟩ := hmode mode hmem
      refine ⟨⟨mode, ⟨hwhole, ?_⟩, rfl⟩, Nat.lt_of_lt_of_le hlt hle⟩
      rcases htext mode hmem with hcurrent | hname
      · exact absurd (by simp [Line.lexeme, Slice.lexeme, Slice.text, hcurrent]) (of_decide_eq_true hother)
      · exact hname
    refine ⟨fun l hl => ?_, ?_, fun l hl => ?_⟩
    · rcases List.mem_cons.1 hl with rfl | hl
      · exact hself
      · exact (hnamed l (Option.mem_toList.1 hl)).1
    · refine List.pairwise_cons.2 ⟨fun l hl => (hnamed l (Option.mem_toList.1 hl)).2, ?_⟩
      cases TokenDef.lexerMode? _ <;> simp
    · simp only [lexemes, TokenDef.fill, List.mem_cons, List.mem_append, Option.mem_toList,
        Option.map_eq_some_iff, Option.some.injEq] at hl
      rcases hl with rfl | rfl | (rfl | ⟨bang, hmem, rfl⟩) | ⟨mode, hmem, rfl⟩
      · exact hself.holds
      · exact hmark
      · exact Line.holds_lexeme hliteral
      · exact Line.holds_lexeme (hbang bang hmem)
      · exact Line.holds_lexeme (hmode mode hmem).1

theorem standsOn_rule {name operator rest : Slice} {alias? : Option Slice} (ix : Index)
    (h : Shape.rule? line.body = some (.rule name alias? operator rest)) :
    (Node.rule (RuleDef.read line name alias? operator rest ix).node).StandsOn line := by
  obtain ⟨hname, halias, hoperator, hrest, hlt⟩ := Shape.rule?_words line.whole_body h
  obtain ⟨hlist, hcolumn⟩ := hrest.cutTerminator
  have helements := Slice.elements_words hlist
  have hnames : ∃ shapes : List ElementShape, rest.cutTerminator.1.elements?.getD [] = shapes ∧
      (∀ e ∈ shapes, name.column < e.name.column) ∧
      shapes.Pairwise fun e other => e.name.column < other.name.column := by
    cases hshapes : rest.cutTerminator.1.elements? with
    | none => exact ⟨[], rfl, by simp, by simp⟩
    | some shapes =>
      obtain ⟨hle, horder⟩ := Slice.elements?_words hlist hshapes
      refine ⟨shapes, rfl, fun e he => ?_, horder⟩
      have := (hle e he).2
      omega
  obtain ⟨shapes, hshapes, hfirst, horder⟩ := hnames
  rw [hshapes] at helements
  have hread : (RuleDef.read line name alias? operator rest ix).node.elements =
      shapes.map (RuleElement.ofShape line) := by rw [← hshapes]; rfl
  have hmap : (Node.rule (RuleDef.read line name alias? operator rest ix).node).words =
      (name :: shapes.map ElementShape.name).map line.lexeme := by
    rw [words, hread, List.map_map, List.map_cons, List.map_map]
    rfl
  obtain ⟨hwords, hsorted⟩ := words_map line (name :: shapes.map ElementShape.name)
    (by simpa [hname] using fun e he => (helements e he).name)
    (by simpa [List.pairwise_map] using ⟨hfirst, horder⟩)
  rw [← hmap] at hwords hsorted
  refine ⟨hwords, hsorted, fun l hl => ?_⟩
  rw [lexemes, hread] at hl
  simp only [List.mem_cons, List.mem_append, Option.mem_toList, List.mem_flatMap, List.mem_map] at hl
  rcases hl with rfl | hl | rfl | ⟨e, ⟨shape, hshape, rfl⟩, hl⟩
  · exact Line.holds_lexeme hname.whole
  · obtain ⟨s, hs, rfl⟩ := Option.map_eq_some_iff.1 hl
    exact Line.holds_lexeme (halias s hs).whole
  · exact Line.holds_lexeme hoperator
  · have hwhole := helements shape hshape
    simp only [RuleElement.lexemes, RuleElement.ofShape, List.mem_append, List.mem_cons,
      Option.mem_toList, Option.map_eq_some_iff] at hl
    rcases hl with ⟨s, hs, rfl⟩ | rfl | ⟨s, hs, rfl⟩
    · exact Line.holds_lexeme (hwhole.anchor s hs)
    · exact Line.holds_lexeme hwhole.name.whole
    · exact Line.holds_lexeme (hwhole.aliasName s hs).whole

/-- The node of a line by itself. -/
theorem standsOn_read {shape : Shape} (hshape : Shape.of? line.body = some shape) (ix : Index) :
    (Node.read line ix shape).node.StandsOn line := by
  cases shape with
  | comment => exact standsOn_comment line
  | pragma mark name parameters => exact standsOn_pragma ix (Shape.pragma?_of_of? hshape)
  | token name operator rest => exact standsOn_token ix (Shape.token?_of_of? hshape)
  | rule name alias? operator rest => exact standsOn_rule ix (Shape.rule?_of_of? hshape)

/-- The marker is the first character of the line, wherever the name goes wrong. -/
theorem whole_marker (hmark : line.namesBlock = true) :
    (line.body.split 1).1.Whole line.raw.toList := by
  refine (line.whole_body.cut (Slice.cut_split _ _) (apart_of_last (fun c hc => ?_) _)).1
  obtain ⟨d, rest, hbody⟩ : ∃ d rest, line.body.chars = d :: rest := by
    cases hbody : line.body.chars with
    | nil => simp [Line.namesBlock, hbody] at hmark
    | cons d rest => exact ⟨d, rest, rfl⟩
  have hd : d = '@' := by simpa [Line.namesBlock, hbody] using hmark
  have hc : c = '@' := by simpa [Slice.split, hbody, hd, eq_comm] using hc
  rw [hc]
  decide

theorem standsOn_blockName (hmark : line.namesBlock = true) (rule? : Option String) (ix : Index) :
    (Node.blockName (BlockName.read line rule? ix).node).StandsOn line := by
  have hmarker := Line.holds_lexeme (whole_marker hmark)
  unfold BlockName.read
  dsimp only
  split
  · exact ⟨by simp [words], by simp [words], by simpa [lexemes] using hmarker⟩
  · next walker function? hname =>
    obtain ⟨hwalker, hfunction⟩ := Slice.blockName?_words line.whole_body hname
    have hmap : ([line.lexeme walker] ++ (function?.map line.lexeme).toList) =
        (walker :: function?.toList).map line.lexeme := by cases function? <;> rfl
    obtain ⟨hwords, hsorted⟩ := words_map line (walker :: function?.toList)
      (by simpa [hwalker] using fun s hs => (hfunction s hs).1)
      (by
        refine List.pairwise_cons.2 ⟨fun s hs => (hfunction s (Option.mem_toList.1 hs)).2, ?_⟩
        cases function? <;> simp)
    rw [← hmap] at hwords hsorted
    refine ⟨hwords, hsorted, fun l hl => ?_⟩
    rcases List.mem_cons.1 hl with rfl | hl
    · exact hmarker
    · exact (hwords l hl).holds

end Node

end LineGrammar
