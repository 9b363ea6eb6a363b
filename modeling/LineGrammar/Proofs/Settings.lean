import LineGrammar.Proofs.Registration

/-! What a line does to the settings of a document. Only pragmas change them. What the body of a pragma sets,
and whether it counts, is told by the body and the index before it. -/

namespace LineGrammar

@[simp] theorem settings_mention (s : Symbol) (span : Span) (ix : Index) :
    (ix.mention s span).settings = ix.settings := by
  unfold Index.mention
  split <;> rfl

@[simp] theorem settings_enterAll (ix : Index) (ds : List Definition) :
    (ix.enterAll ds).settings = ix.settings := by
  induction ds generalizing ix with
  | nil => rfl
  | cons d rest ih => exact ih (ix.enter d)

theorem settings_foldl {α : Type} {f : Index → α → Index} (hf : ∀ ix a, (f ix a).settings = ix.settings)
    (as : List α) (ix : Index) : (as.foldl f ix).settings = ix.settings := by
  induction as generalizing ix with
  | nil => rfl
  | cons a rest ih => exact (ih (f ix a)).trans (hf ix a)

theorem TokenDef.settings_register (t : TokenDef) (ix : Index) :
    (t.register ix).settings = ix.settings := by
  unfold TokenDef.register
  dsimp only
  split
  · rw [settings_mention, settings_enterAll]
  · exact settings_enterAll ix _

theorem RuleDef.settings_register (r : RuleDef) (ix : Index) :
    (r.register ix).settings = ix.settings := by
  have hmention : ∀ (ix : Index) (e : RuleElement), (r.mentionElement ix e).settings = ix.settings := by
    intro ix e
    unfold RuleDef.mentionElement
    split
    · rfl
    · split
      · rfl
      · exact settings_mention _ _ _
  have hawait : ∀ (ix : Index) (d : Definition), (r.awaitBlock ix d).settings = ix.settings := by
    intro ix d
    unfold RuleDef.awaitBlock
    split
    · split <;> rfl
    · rfl
  have henter : ((r.elements.foldl r.mentionElement ix).enter r.definition).settings = ix.settings :=
    settings_foldl hmention r.elements ix
  unfold RuleDef.register
  dsimp only
  split
  · exact henter
  · rw [settings_foldl hawait, henter]

namespace PragmaBody

theorem settings_awaitAssociative (ix : Index) (token : Lexeme) :
    (awaitAssociative ix token).settings = ix.settings := by
  unfold awaitAssociative
  split <;> simp

theorem settings_registerFunction (decl : FunctionDecl) (walker : String) (ix : Index) :
    (registerFunction decl walker ix).settings = ix.settings := by
  have hawait : ∀ (ix : Index) (d : Definition), (awaitBlock walker decl.function ix d).settings =
      ix.settings := by
    intro ix d
    unfold awaitBlock
    split <;> rfl
  unfold registerFunction
  dsimp only
  split
  · exact settings_mention _ _ _
  · rw [settings_foldl hawait, settings_mention]

/-- What the body sets: the first class name, the first list of walkers and the first default that names a
walker count, and the last start rule. -/
def set (isWalker : String → Bool) (s : Settings) : PragmaBody → Settings
  | .className name => if s.className.isSome then s else { s with className := some name.text }
  | .walkers names _ =>
    if s.walkersDeclared then s
    else { s with walkersDeclared := true, defaultWalker := names.head?.map Lexeme.text }
  | .defaultWalker walker =>
    if s.defaultWalkerSpecified then s
    else if isWalker walker.text then
      { s with defaultWalker := some walker.text, defaultWalkerSpecified := true }
    else s
  | .start rule => { s with startRule := some rule.text }
  | _ => s

/-- Whether the body counts, and for which walker, is what the index says of it. -/
def Judged (ix : Index) : PragmaBody → Prop
  | .walkers names declared => names ≠ [] ∧ declared = !ix.settings.walkersDeclared
  | .function decl =>
    decl.walkerName = (functionWalker ix decl).1 ∧
      decl.declared = decl.key?.any fun key => !ix.isDefined (.function key)
  | .walkerInterface walker _ declared => declared = ix.isDefined (.walker walker.text)
  | _ => True

/-- What reading a body does beside its definitions. -/
structure Sets (ix : Index) (r : Reading PragmaBody) : Prop where
  settings : r.index.settings = r.node.set (fun walker => ix.isDefined (.walker walker)) ix.settings
  judged : r.node.Judged ix

section
variable {line : Line} {parameters : Slice} {ix : Index} {r : Reading PragmaBody}

theorem sets_readClassName? (h : readClassName? line parameters ix = some r) : Sets ix r := by
  obtain ⟨⟨name, terminated⟩, -, h⟩ := Option.bind_eq_some_iff.1 h
  dsimp only at h
  split at h <;> cases h
  · next hset => exact ⟨(if_pos hset).symm, trivial⟩
  · next hset => exact ⟨(if_neg hset).symm, trivial⟩

theorem sets_readWalkers? (h : readWalkers? line parameters ix = some r) : Sets ix r := by
  obtain ⟨names, hnames, h⟩ := Option.bind_eq_some_iff.1 h
  have hne : names.map line.lexeme ≠ [] := by
    unfold Slice.nameList? at hnames
    dsimp only at hnames
    split at hnames
    · cases hnames
    · simpa using (Option.filter_eq_some_iff.1 hnames).2
  dsimp only at h
  split at h <;> cases h
  · next hset => exact ⟨(if_pos hset).symm, hne, by simp [hset]⟩
  · next hset => exact ⟨(if_neg hset).symm, hne, by simp [hset]⟩

theorem sets_readDefaultWalker? (h : readDefaultWalker? line parameters ix = some r) : Sets ix r := by
  obtain ⟨⟨name, terminated⟩, -, h⟩ := Option.bind_eq_some_iff.1 h
  dsimp only at h
  split at h
  · next hset => cases h; exact ⟨(if_pos hset).symm, trivial⟩
  · next hset =>
    split at h <;> cases h
    · next hwalker => exact ⟨((if_neg hset).trans (if_pos hwalker)).symm, trivial⟩
    · next hwalker => exact ⟨((if_neg hset).trans (if_neg hwalker)).symm, trivial⟩

theorem sets_readMembers? (h : readMembers? line parameters ix = some r) : Sets ix r := by
  obtain ⟨⟨name, mark?⟩, -, h⟩ := Option.bind_eq_some_iff.1 h
  cases h
  exact ⟨rfl, trivial⟩

theorem sets_readAssociativity? {associativity : Associativity}
    (h : readAssociativity? associativity line parameters ix = some r) : Sets ix r := by
  obtain ⟨names, -, h⟩ := Option.bind_eq_some_iff.1 h
  cases h
  exact ⟨settings_foldl settings_awaitAssociative _ ix, trivial⟩

theorem sets_functionReading {decl : FunctionDecl} (hwalker : decl.walkerName = (functionWalker ix decl).1)
    (hdeclared : decl.declared = false) (problems : List Diagnostic) :
    Sets ix (functionReading ix decl problems) := by
  unfold functionReading
  split
  · next walker key _ hkey =>
    split
    · next hdefined => exact ⟨rfl, hwalker, by simp [hdeclared, hkey, hdefined]⟩
    · next hnew =>
      refine ⟨settings_registerFunction _ _ _, hwalker, ?_⟩
      rw [show ({ decl with declared := true } : FunctionDecl).key? = some key from hkey]
      simpa using hnew
  · next hnone =>
    refine ⟨rfl, hwalker, ?_⟩
    cases hname : decl.walkerName with
    | none => simp [hdeclared, FunctionDecl.key?, hname]
    | some walker =>
      have hkey : decl.key? = some (functionKey decl.rule.text walker decl.function.text) := by
        rw [FunctionDecl.key?, hname]; rfl
      exact (hnone walker _ hname hkey).elim

theorem sets_readFunction? (h : readFunction? line parameters ix = some r) : Sets ix r := by
  obtain ⟨shape, hshape, -⟩ := Option.bind_eq_some_iff.1 h
  rw [readFunction?_eq hshape] at h
  cases h
  exact sets_functionReading rfl rfl _

theorem sets_readLexerMode? (h : readLexerMode? line parameters ix = some r) : Sets ix r := by
  obtain ⟨⟨name, terminated⟩, -, h⟩ := Option.bind_eq_some_iff.1 h
  cases h
  exact ⟨rfl, trivial⟩

theorem sets_readLexerInclude? (h : readLexerInclude? line parameters ix = some r) : Sets ix r := by
  obtain ⟨⟨name, terminated⟩, -, h⟩ := Option.bind_eq_some_iff.1 h
  cases h
  exact ⟨settings_mention _ _ _, trivial⟩

theorem sets_readWalkerInterface? (h : readWalkerInterface? line parameters ix = some r) :
    Sets ix r := by
  obtain ⟨⟨name, typeName⟩, -, h⟩ := Option.bind_eq_some_iff.1 h
  cases h
  exact ⟨rfl, rfl⟩

theorem sets_readStart? (h : readStart? line parameters ix = some r) : Sets ix r := by
  obtain ⟨⟨name, terminated⟩, -, h⟩ := Option.bind_eq_some_iff.1 h
  cases h
  exact ⟨settings_mention _ _ _, trivial⟩

theorem sets_read? {keyword : Keyword} (h : read? keyword line parameters ix = some r) : Sets ix r := by
  cases keyword with
  | className => exact sets_readClassName? h
  | walkers => exact sets_readWalkers? h
  | defaultWalker => exact sets_readDefaultWalker? h
  | members => exact sets_readMembers? h
  | left | right | token => exact sets_readAssociativity? h
  | function => exact sets_readFunction? h
  | lexerMode => exact sets_readLexerMode? h
  | lexerInclude => exact sets_readLexerInclude? h
  | walkerInterface => exact sets_readWalkerInterface? h
  | start => exact sets_readStart? h
  | namespaceName | prologue | epilogue | inclusion | checkUnusedTokens =>
    cases h
    exact ⟨rfl, trivial⟩

end

theorem sets_readBody (line : Line) (name parameters : Slice) (ix : Index) :
    Sets ix (readBody line name parameters ix) := by
  unfold readBody
  split
  · next keyword _ =>
    cases h : read? keyword line parameters ix with
    | none => exact ⟨rfl, trivial⟩
    | some r => exact sets_read? h
  · exact ⟨rfl, trivial⟩

end PragmaBody

end LineGrammar
