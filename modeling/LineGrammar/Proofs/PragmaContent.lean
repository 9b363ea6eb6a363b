import LineGrammar.Proofs.Parameters
import LineGrammar.Proofs.ReadingContent
import LineGrammar.Proofs.RecastNodes

/-! Reading a pragma again after its parameters have been collapsed. On an index of the same content
every reader gives a reading of the same content. -/

namespace LineGrammar

theorem content_bare_congr {line line' : Line} (hline : line'.number = line.number)
    {shape shape' : FunctionShape} {f f' : FunctionText} (h : shape.Holds f) (h' : shape'.Holds f')
    (hlike : FunctionText.Like f' f) : (shape'.bare line').content = (shape.bare line).content := by
  have hrule := content_lexeme_congr hline (h'.rule.trans (hlike.rule.trans h.rule.symm))
  have hwalker := content_lexeme?_congr hline (h'.walker.trans (hlike.walker.trans h.walker.symm))
  have hfunction :=
    content_lexeme_congr hline (h'.function.trans (hlike.function.trans h.function.symm))
  have hdense : ∀ {s s' : Slice}, Text.dense s'.chars = Text.dense s.chars →
      (line'.lexeme s').denseContent = (line.lexeme s).denseContent := by
    intro s s' hs
    have hlexeme : ∀ (l : Line) (s : Slice), (l.lexeme s).denseContent =
        ⟨String.ofList (Text.dense s.chars), .onLine l.number 0 0⟩ := by
      intro l s
      simp [Line.lexeme, Slice.lexeme, Lexeme.denseContent, Slice.text]
    rw [hlexeme, hlexeme, hs, hline]
  have hparameters := hdense (h'.parameters ▸ h.parameters ▸ hlike.parameters)
  have hreturn := hdense (h'.returnType ▸ h.returnType ▸ hlike.returnType)
  simp only [FunctionShape.bare, FunctionDecl.content, hrule, hwalker, hfunction, hparameters,
    hreturn]

namespace PragmaBody

/-- Two readings of one pragma's body. -/
abbrev Alike (r' r : Reading PragmaBody) : Prop := r'.content PragmaBody.content = r.content PragmaBody.content

section
variable {ix ix' : Index} (hix : ix'.content = ix.content) {l l' : Lexeme}
  (hl : l'.content = l.content)
include hix hl

theorem content_checkWalker_congr :
    (checkWalker ix' l').map Diagnostic.content = (checkWalker ix l).map Diagnostic.content :=
  (recast_checkWalker .content ix' l').trans
    ((congr (congrArg checkWalker hix) hl).trans (recast_checkWalker .content ix l).symm)

theorem content_mention_congr (symbol : String → Symbol) :
    (ix'.mention (symbol l'.text) l'.span).content =
      (ix.mention (symbol l.text) l.span).content := by
  rw [Index.content_mention, Index.content_mention, hix, Lexeme.text_of_content hl,
    Lexeme.onLines_of_content hl]

theorem content_checkAssociative_congr :
    (checkAssociative ix' l').map Diagnostic.content =
      (checkAssociative ix l).map Diagnostic.content :=
  (recast_checkAssociative .content ix' l').trans
    ((congr (congrArg checkAssociative hix) hl).trans (recast_checkAssociative .content ix l).symm)

end

theorem content_update_congr {d d' : FunctionDecl} (hd : d'.content = d.content)
    (walkerName : Option String) (declared : Bool) :
    ({ d' with walkerName, declared } : FunctionDecl).content =
      ({ d with walkerName, declared } : FunctionDecl).content :=
  congrArg (fun e : FunctionDecl => { e with walkerName, declared }) hd

section
variable {ix ix' : Index} (hix : ix'.content = ix.content) {d d' : FunctionDecl}
  (hd : d'.content = d.content)
include hix hd

theorem content_functionWalker_congr :
    (functionWalker ix' d').1 = (functionWalker ix d).1 ∧
      (functionWalker ix' d').2.map Diagnostic.content =
        (functionWalker ix d).2.map Diagnostic.content := by
  have hrecast := (functionWalker_recast .content ix' d').symm.trans
    ((congr (congrArg functionWalker hix) hd).trans (functionWalker_recast .content ix d))
  exact Prod.ext_iff.1 hrecast

theorem alike_functionReading {problems problems' : List Diagnostic}
    (hproblems : problems'.map Diagnostic.content = problems.map Diagnostic.content) :
    Alike (functionReading ix' d' problems') (functionReading ix d problems) := by
  have h := recast_functionReading .content ix d problems
  have h' := recast_functionReading .content ix' d' problems'
  refine h'.trans (Eq.trans ?_ h.symm)
  exact congr (congr (congrArg functionReading hix) hd) hproblems

end

section
variable {line line' : Line} (hline : line'.number = line.number)
  {parameters parameters' : Slice} (hs : parameters'.chars = Text.collapse parameters.chars)
  {ix ix' : Index} (hix : ix'.content = ix.content) {r : Reading PragmaBody}
include hline hs hix

theorem alike_readClassName? (h : readClassName? line parameters ix = some r) :
    ∃ r', readClassName? line' parameters' ix' = some r' ∧ Alike r' r := by
  obtain ⟨⟨name, terminated⟩, hname, h⟩ := Option.bind_eq_some_iff.1 h
  obtain ⟨name', hchars, hname'⟩ := Slice.singleName?_collapse hs hname
  have hnode := content_lexeme_congr hline hchars
  have hmissing := content_checkTerminator_congr hline terminated
  simp only [readClassName?, hname', Option.bind_eq_bind, Option.bind_some,
    Index.settings_of_content hix]
  dsimp only at h
  split at h <;> rename_i hc <;> cases h
  · rw [if_pos hc]
    refine ⟨_, rfl, Reading.content_eq (congrArg className hnode) ?_ hix rfl⟩
    simp only [List.map_append, hmissing, List.map_cons, List.map_nil,
      content_problem_congr hline]
  · rw [if_neg hc]
    refine ⟨_, rfl, Reading.content_eq (congrArg className hnode) hmissing ?_ rfl⟩
    rw [Index.content_adjust, Index.content_adjust, hix, Slice.text, Slice.text, hchars]

theorem alike_readWalkers? (h : readWalkers? line parameters ix = some r) :
    ∃ r', readWalkers? line' parameters' ix' = some r' ∧ Alike r' r := by
  obtain ⟨names, hnames, h⟩ := Option.bind_eq_some_iff.1 h
  obtain ⟨names', hchars, hnames'⟩ := Slice.nameList?_collapse hs hnames
  have hwalkers := content_lexemes_congr hline hchars
  simp only [readWalkers?, hnames', Option.bind_eq_bind, Option.bind_some,
    Index.settings_of_content hix]
  dsimp only at h
  split at h <;> rename_i hc <;> cases h
  · rw [if_pos hc]
    refine ⟨_, rfl, Reading.content_eq ?_ ?_ hix rfl⟩
    · simp only [content, hwalkers]
    · simp only [List.map_cons, List.map_nil, content_problem_congr hline]
  · rw [if_neg hc]
    have hhead : ((names'.map line'.lexeme).head?.map Lexeme.text) =
        ((names.map line.lexeme).head?.map Lexeme.text) := by
      rw [head?_text, hwalkers, ← head?_text]
    refine ⟨_, rfl, Reading.content_eq ?_ rfl ?_ rfl⟩
    · simp only [content, hwalkers]
    · rw [Index.content_adjust, Index.content_adjust, hix, hhead]

theorem alike_readDefaultWalker? (h : readDefaultWalker? line parameters ix = some r) :
    ∃ r', readDefaultWalker? line' parameters' ix' = some r' ∧ Alike r' r := by
  obtain ⟨⟨name, terminated⟩, hname, h⟩ := Option.bind_eq_some_iff.1 h
  obtain ⟨name', hchars, hname'⟩ := Slice.singleName?_collapse hs hname
  have hwalker := content_lexeme_congr hline hchars
  simp only [readDefaultWalker?, hname', Option.bind_eq_bind, Option.bind_some,
    Index.settings_of_content hix, Index.isDefined_of_content hix, Lexeme.text_of_content hwalker]
  dsimp only at h
  split at h
  · next hc =>
    cases h
    rw [if_pos hc]
    refine ⟨_, rfl, Reading.content_eq (congrArg defaultWalker hwalker) ?_ hix rfl⟩
    simp only [List.map_cons, List.map_nil, content_problem_congr hline]
  · next hc =>
    rw [if_neg hc]
    split at h <;> rename_i hd <;> cases h
    · rw [if_pos hd]
      refine ⟨_, rfl, Reading.content_eq (congrArg defaultWalker hwalker) rfl ?_ rfl⟩
      rw [Index.content_adjust, Index.content_adjust, hix]
    · rw [if_neg hd]
      exact ⟨_, rfl, Reading.content_eq (congrArg defaultWalker hwalker)
        (content_checkWalker_congr hix hwalker) hix rfl⟩

theorem alike_readMembers? (h : readMembers? line parameters ix = some r) :
    ∃ r', readMembers? line' parameters' ix' = some r' ∧ Alike r' r := by
  obtain ⟨⟨name, mark?⟩, hname, h⟩ := Option.bind_eq_some_iff.1 h
  obtain ⟨name', mark?', hchars, hmark, hname'⟩ := Slice.membersParameters?_collapse hs hname
  have hwalker := content_lexeme_congr hline hchars
  have hopening := content_lexeme?_congr hline hmark
  simp only [readMembers?, hname', Option.bind_eq_bind, Option.bind_some]
  cases h
  refine ⟨_, rfl, Reading.content_eq ?_ (content_checkWalker_congr hix hwalker) hix ?_⟩
  · simp only [content, hwalker, hopening]
  · cases mark? <;> cases mark?'
    · simp only [Option.map_none, Lexeme.text_of_content hwalker]
    · cases hmark
    · cases hmark
    · simp only [Option.map_some, Option.some.injEq] at hopening
      simp [Sequel.content, CodeBlock.content, hopening, Lexeme.text_of_content hwalker]

theorem alike_readAssociativity? {a : Associativity}
    (h : readAssociativity? a line parameters ix = some r) :
    ∃ r', readAssociativity? a line' parameters' ix' = some r' ∧ Alike r' r := by
  obtain ⟨names, hnames, h⟩ := Option.bind_eq_some_iff.1 h
  obtain ⟨names', hchars, hnames'⟩ := Slice.nameList?_collapse hs hnames
  have htokens := content_lexemes_congr hline hchars
  simp only [readAssociativity?, hnames', Option.bind_eq_bind, Option.bind_some]
  cases h
  refine ⟨_, rfl, Reading.content_eq ?_ ?_ ?_ rfl⟩
  · simp only [content, htokens]
  · exact content_flatMap_congr (fun _ _ h => content_checkAssociative_congr hix h) htokens
  · have hfoldl := Index.recast_foldl (recast_awaitAssociative .content)
    exact (hfoldl _ ix').trans
      ((congr (congrArg (List.foldl awaitAssociative) hix) htokens).trans (hfoldl _ ix).symm)

theorem alike_readLexerMode? (h : readLexerMode? line parameters ix = some r) :
    ∃ r', readLexerMode? line' parameters' ix' = some r' ∧ Alike r' r := by
  obtain ⟨⟨name, terminated⟩, hname, h⟩ := Option.bind_eq_some_iff.1 h
  obtain ⟨name', hchars, hname'⟩ := Slice.singleName?_collapse hs hname
  simp only [readLexerMode?, hname', Option.bind_eq_bind, Option.bind_some]
  cases h
  exact ⟨_, rfl, Reading.content_eq (congrArg lexerMode (content_lexeme_congr hline hchars)) rfl hix
    rfl⟩

theorem alike_readLexerInclude? (h : readLexerInclude? line parameters ix = some r) :
    ∃ r', readLexerInclude? line' parameters' ix' = some r' ∧ Alike r' r := by
  obtain ⟨⟨name, terminated⟩, hname, h⟩ := Option.bind_eq_some_iff.1 h
  obtain ⟨name', hchars, hname'⟩ := Slice.singleName?_collapse hs hname
  have hmode := content_lexeme_congr hline hchars
  simp only [readLexerInclude?, hname', Option.bind_eq_bind, Option.bind_some]
  cases h
  exact ⟨_, rfl, Reading.content_eq (congrArg lexerInclude hmode) rfl
    (content_mention_congr hix hmode Symbol.lexerMode) rfl⟩

theorem alike_readWalkerInterface? (h : readWalkerInterface? line parameters ix = some r) :
    ∃ r', readWalkerInterface? line' parameters' ix' = some r' ∧ Alike r' r := by
  obtain ⟨⟨name, typeName⟩, hname, h⟩ := Option.bind_eq_some_iff.1 h
  obtain ⟨name', typeName', hchars, htype, hname'⟩ := Slice.interfaceParameters?_collapse hs hname
  have hwalker := content_lexeme_congr hline hchars
  have htypeName := content_lexeme_congr hline htype
  simp only [readWalkerInterface?, hname', Option.bind_eq_bind, Option.bind_some]
  cases h
  refine ⟨_, rfl, Reading.content_eq ?_ (content_checkWalker_congr hix hwalker) hix rfl⟩
  simp only [content, hwalker, htypeName, Lexeme.text_of_content hwalker,
    Index.isDefined_of_content hix]

theorem alike_readStart? (h : readStart? line parameters ix = some r) :
    ∃ r', readStart? line' parameters' ix' = some r' ∧ Alike r' r := by
  obtain ⟨⟨name, terminated⟩, hname, h⟩ := Option.bind_eq_some_iff.1 h
  obtain ⟨name', hchars, hname'⟩ := Slice.singleName?_collapse hs hname
  have hrule := content_lexeme_congr hline hchars
  simp only [readStart?, hname', Option.bind_eq_bind, Option.bind_some]
  cases h
  refine ⟨_, rfl, Reading.content_eq (congrArg start hrule) rfl ?_ rfl⟩
  refine content_mention_congr ?_ hrule Symbol.rule
  rw [Index.content_adjust, Index.content_adjust, hix, Lexeme.text_of_content hrule]

theorem alike_readFunction? (h : readFunction? line parameters ix = some r) :
    ∃ r', readFunction? line' parameters' ix' = some r' ∧ Alike r' r := by
  obtain ⟨shape, hshape, -⟩ := Option.bind_eq_some_iff.1 h
  obtain ⟨shape', f, f', hshape', hholds, hholds', hlike⟩ :=
    Slice.functionParameters?_collapse hs hshape
  have hd := content_bare_congr hline hholds hholds' hlike
  obtain ⟨hname, hproblems⟩ := content_functionWalker_congr hix hd
  rw [readFunction?_eq hshape] at h
  cases h
  refine ⟨_, readFunction?_eq hshape', alike_functionReading hix ?_ ?_⟩
  · rw [hname]
    exact content_update_congr hd _ false
  · rw [List.map_append, List.map_append, hproblems, hholds'.terminated, hlike.terminated,
      ← hholds.terminated, content_checkTerminator_congr hline]

theorem alike_read? {keyword : Keyword} (hkeyword : keyword.isReserved = false)
    (h : read? keyword line parameters ix = some r) :
    ∃ r', read? keyword line' parameters' ix' = some r' ∧ Alike r' r := by
  cases keyword with
  | className => exact alike_readClassName? hline hs hix h
  | walkers => exact alike_readWalkers? hline hs hix h
  | defaultWalker => exact alike_readDefaultWalker? hline hs hix h
  | members => exact alike_readMembers? hline hs hix h
  | left | right | token => exact alike_readAssociativity? hline hs hix h
  | function => exact alike_readFunction? hline hs hix h
  | lexerMode => exact alike_readLexerMode? hline hs hix h
  | lexerInclude => exact alike_readLexerInclude? hline hs hix h
  | walkerInterface => exact alike_readWalkerInterface? hline hs hix h
  | start => exact alike_readStart? hline hs hix h
  | namespaceName | prologue | epilogue | inclusion | checkUnusedTokens => cases hkeyword

end

end PragmaBody

end LineGrammar
