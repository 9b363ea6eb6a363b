import LineGrammar.Navigation
import LineGrammar.Proofs.Positions

/-! Undefined names are reported where they are written. Whatever a node refers to is defined by the node
itself or above it, or is owed by the node and then reported at the end, or is reported at once. -/

namespace LineGrammar

/-- Every name of the node is defined by the node or in the index, is owed by the node, or is reported
where it is written. -/
def Node.Answers (ix : Index) (problems : List Diagnostic) (n : Node) : Prop :=
  ∀ ref ∈ n.references, (∃ d ∈ n.definitions, d.symbol = ref.2) ∨
    (∀ above, ⟨ref.2, ref.1.span⟩ ∈ n.obligations above) ∨ ix.isDefined ref.2 = true ∨
      ∃ d ∈ problems, d.code ∈ ["W0303", "W0304"] ∧ d.span = ref.1.span

/-- None of the diagnostics is an error. -/
def Harmless (ds : List Diagnostic) : Prop := ∀ d ∈ ds, d.isError = false

theorem not_harmless {ds : List Diagnostic} {d : Diagnostic} (hd : d ∈ ds) (herror : d.isError = true)
    (h : Harmless ds) : False := absurd (herror.symm.trans (h d hd)) (by simp)

theorem Harmless.mono {ds es : List Diagnostic} (h : Harmless es) (hsub : ds ⊆ es) : Harmless ds :=
  fun d hd => h d (hsub hd)

theorem terminated_of_harmless {line : Line} {terminated : Bool}
    (h : Harmless (line.checkTerminator terminated)) : terminated = true := by
  cases terminated with
  | true => rfl
  | false => exact (not_harmless (List.mem_singleton_self _) rfl h).elim

theorem Pragma.definitions_function {p : Pragma} {decl : FunctionDecl} {walker : String}
    (hp : p.body = .function decl) (hdeclared : decl.declared = true)
    (hwalker : decl.walkerName = some walker) :
    p.definitions = [⟨.function (functionKey decl.rule.text walker decl.function.text),
      decl.function.span, p.span,
      .function decl.rule.text walker decl.function.text decl.signature⟩] := by
  obtain ⟨rule, walker?, function, parameters, returnType, walkerName, declared⟩ := decl
  subst hdeclared hwalker
  simp only [definitions, hp]
  rfl

namespace PragmaBody

theorem isDefined_of_harmless {ix : Index} {walker : Lexeme} (h : Harmless (checkWalker ix walker)) :
    ix.isDefined (.walker walker.text) = true := by
  unfold checkWalker at h
  split at h
  · assumption
  · exact (not_harmless (List.mem_singleton_self _) rfl h).elim

/-- What a body without errors says of its names. -/
def Answered (ix : Index) (r : Reading PragmaBody) : Prop :=
  Harmless r.problems → ∀ p : Pragma, p.body = r.node → (Node.pragma p).Answers ix r.problems

section
variable {line : Line} {parameters : Slice} {ix : Index} {r : Reading PragmaBody}

/-- A body that only names a walker. -/
theorem answered_walker {walker : Lexeme} (hdefined : ix.isDefined (.walker walker.text) = true)
    {p : Pragma} (hp : p.references = [(walker, .walker walker.text)]) (problems : List Diagnostic) :
    (Node.pragma p).Answers ix problems := by
  intro ref href
  change ref ∈ p.references at href
  rw [hp, List.mem_singleton] at href
  rw [href]
  exact .inr (.inr (.inl hdefined))

theorem answered_readClassName? (h : readClassName? line parameters ix = some r) : Answered ix r := by
  obtain ⟨⟨name, terminated⟩, -, h⟩ := Option.bind_eq_some_iff.1 h
  dsimp only at h
  split at h <;> cases h
  all_goals
    intro _ p hp ref href
    simp [Node.references, Pragma.references, hp] at href

theorem answered_readWalkers? (h : readWalkers? line parameters ix = some r) : Answered ix r := by
  obtain ⟨names, -, h⟩ := Option.bind_eq_some_iff.1 h
  dsimp only at h
  split at h <;> cases h
  · exact fun hclean => (not_harmless (List.mem_singleton_self _) rfl hclean).elim
  · intro _ p hp ref href
    simp only [Node.references, Pragma.references, hp] at href
    obtain ⟨walker, hwalker, rfl⟩ := List.mem_map.1 href
    refine .inl ⟨⟨.walker walker.text, walker.span, p.span, .plain⟩, ?_, rfl⟩
    simp only [Node.definitions, Pragma.definitions, hp]
    exact List.mem_map_of_mem hwalker

theorem answered_readDefaultWalker? (h : readDefaultWalker? line parameters ix = some r) :
    Answered ix r := by
  obtain ⟨⟨name, terminated⟩, -, h⟩ := Option.bind_eq_some_iff.1 h
  dsimp only at h
  split at h
  · cases h
    exact fun hclean => (not_harmless (List.mem_singleton_self _) rfl hclean).elim
  · split at h <;> cases h
    · next hdefined =>
      exact fun _ p hp => answered_walker hdefined (by simp only [Pragma.references, hp]) _
    · exact fun hclean p hp =>
        answered_walker (isDefined_of_harmless hclean) (by simp only [Pragma.references, hp]) _

theorem answered_readMembers? (h : readMembers? line parameters ix = some r) : Answered ix r := by
  obtain ⟨⟨name, mark?⟩, -, h⟩ := Option.bind_eq_some_iff.1 h
  cases h
  exact fun hclean p hp =>
    answered_walker (isDefined_of_harmless hclean) (by simp only [Pragma.references, hp]) _

theorem answered_readWalkerInterface? (h : readWalkerInterface? line parameters ix = some r) :
    Answered ix r := by
  obtain ⟨⟨name, typeName⟩, -, h⟩ := Option.bind_eq_some_iff.1 h
  cases h
  exact fun hclean p hp =>
    answered_walker (isDefined_of_harmless hclean) (by simp only [Pragma.references, hp]) _

theorem answered_readAssociativity? {associativity : Associativity}
    (h : readAssociativity? associativity line parameters ix = some r) : Answered ix r := by
  obtain ⟨names, -, h⟩ := Option.bind_eq_some_iff.1 h
  cases h
  intro _ p hp ref href
  simp only [Node.references, Pragma.references, hp] at href
  obtain ⟨token, htoken, rfl⟩ := List.mem_map.1 href
  refine .inr (.inl fun above => ?_)
  simp only [Node.obligations, PragmaBody.obligations, hp]
  exact List.mem_map.2 ⟨token, htoken, rfl⟩

/-- A function is declared unless something about it is wrong. -/
theorem answered_readFunction? (h : readFunction? line parameters ix = some r) : Answered ix r := by
  obtain ⟨shape, hshape, -⟩ := Option.bind_eq_some_iff.1 h
  rw [readFunction?_eq hshape] at h
  cases h
  generalize hbare : shape.bare line = bare
  generalize howner : functionWalker ix bare = owner
  generalize hdecl : { bare with walkerName := owner.1 } = decl
  generalize line.checkTerminator shape.terminated = missing
  have hwalkers : Harmless owner.2 → (∀ walker ∈ decl.walker?, ix.isDefined (.walker walker.text) = true) ∧
      decl.walkerName.isSome = true := by
    intro hclean
    rw [← hdecl]
    dsimp only
    rw [← howner] at hclean ⊢
    unfold functionWalker at hclean ⊢
    split at hclean
    · next walker hwalker =>
      have hdefined := isDefined_of_harmless hclean
      simp [hwalker, hdefined]
    · next hwalker =>
      split at hclean
      · simp [hwalker]
      · exact (not_harmless (List.mem_singleton_self _) rfl hclean).elim
  unfold functionReading
  split
  · next walker key hwalker hkey =>
    split
    · intro hclean
      exact (not_harmless (List.mem_append_right _ (List.mem_singleton_self _)) rfl hclean).elim
    · intro hclean p hp ref href
      obtain ⟨hnamed, -⟩ := hwalkers (hclean.mono (List.subset_append_right _ _))
      simp only [Node.references, Pragma.references, hp, FunctionDecl.references] at href
      rcases List.mem_append.1 href with href | href
      · rcases List.mem_cons.1 href with rfl | href
        · refine .inr (.inl fun above => ?_)
          simp [Node.obligations, PragmaBody.obligations, hp, FunctionDecl.obligations, hwalker]
        · obtain ⟨named, hmem, rfl⟩ := List.mem_map.1 href
          exact .inr (.inr (.inl (hnamed named (Option.mem_toList.1 hmem))))
      · obtain ⟨key', hkey', rfl⟩ := List.mem_map.1 href
        obtain rfl : key = key' := Option.some.inj (hkey.symm.trans (Option.mem_toList.1 hkey'))
        have hdefinitions := Pragma.definitions_function hp rfl hwalker
        simp only [FunctionDecl.key?, hwalker, Option.map_some, Option.some.injEq] at hkey
        refine .inl ⟨_, hdefinitions ▸ List.mem_singleton_self _, ?_⟩
        rw [← hkey]
  · next hnone =>
    intro hclean
    obtain ⟨-, hsome⟩ := hwalkers (hclean.mono (List.subset_append_right _ _))
    obtain ⟨walker, hwalker⟩ := Option.isSome_iff_exists.1 hsome
    exact (hnone walker _ hwalker (by rw [FunctionDecl.key?, hwalker]; rfl)).elim

theorem answered_readLexerMode? (h : readLexerMode? line parameters ix = some r) : Answered ix r := by
  obtain ⟨⟨name, terminated⟩, -, h⟩ := Option.bind_eq_some_iff.1 h
  cases h
  intro _ p hp ref href
  simp only [Node.references, Pragma.references, hp, List.mem_singleton] at href
  rw [href]
  refine .inl ⟨(⟨.lexerMode (line.lexeme name).text, (line.lexeme name).span, p.span, .plain⟩ :
    Definition), ?_, rfl⟩
  simp only [Node.definitions, Pragma.definitions, hp]
  exact List.mem_singleton_self _

theorem answered_readLexerInclude? (h : readLexerInclude? line parameters ix = some r) :
    Answered ix r := by
  obtain ⟨⟨name, terminated⟩, -, h⟩ := Option.bind_eq_some_iff.1 h
  cases h
  intro _ p hp ref href
  simp only [Node.references, Pragma.references, hp, List.mem_singleton] at href
  refine .inr (.inl fun above => ?_)
  simp [Node.obligations, PragmaBody.obligations, hp, href]

theorem answered_readStart? (h : readStart? line parameters ix = some r) : Answered ix r := by
  obtain ⟨⟨name, terminated⟩, -, h⟩ := Option.bind_eq_some_iff.1 h
  cases h
  intro _ p hp ref href
  simp only [Node.references, Pragma.references, hp, List.mem_singleton] at href
  refine .inr (.inl fun above => ?_)
  simp [Node.obligations, PragmaBody.obligations, hp, href]

theorem answered_read? {keyword : Keyword} (h : read? keyword line parameters ix = some r) :
    Answered ix r := by
  cases keyword with
  | className => exact answered_readClassName? h
  | walkers => exact answered_readWalkers? h
  | defaultWalker => exact answered_readDefaultWalker? h
  | members => exact answered_readMembers? h
  | left | right | token => exact answered_readAssociativity? h
  | function => exact answered_readFunction? h
  | lexerMode => exact answered_readLexerMode? h
  | lexerInclude => exact answered_readLexerInclude? h
  | walkerInterface => exact answered_readWalkerInterface? h
  | start => exact answered_readStart? h
  | namespaceName | prologue | epilogue | inclusion | checkUnusedTokens =>
    cases h
    exact fun _ p hp ref href => by simp [Node.references, Pragma.references, hp] at href

theorem answered_readBody (line : Line) (name parameters : Slice) (ix : Index) :
    Answered ix (readBody line name parameters ix) := by
  unfold readBody
  split
  · next keyword _ =>
    cases h : read? keyword line parameters ix with
    | none =>
      exact fun hclean => (not_harmless (List.mem_singleton_self _) rfl hclean).elim
    | some r => exact answered_read? h
  · exact fun hclean => (not_harmless (List.mem_singleton_self _) rfl hclean).elim

end

end PragmaBody

namespace Node

theorem answers_token (line : Line) (name operator rest : Slice) (ix : Index)
    (h : Harmless (TokenDef.read line name operator rest ix).problems) (problems : List Diagnostic) :
    (Node.token (TokenDef.read line name operator rest ix).node).Answers ix problems := by
  unfold TokenDef.read at h ⊢
  dsimp only at h ⊢
  split at h
  · exact (not_harmless (List.mem_singleton_self _) rfl h).elim
  · next value hvalue =>
    have hterminated := terminated_of_harmless h
    intro ref href
    rcases List.mem_cons.1 href with rfl | href
    · refine .inl ⟨(⟨.token (line.lexeme name).text, (line.lexeme name).span, line.span,
        .token (line.lexeme value.literal).text⟩ : Definition), ?_, rfl⟩
      simp [definitions, TokenDef.definitions, TokenDef.fill, hterminated]
    · obtain ⟨mode, hmode, rfl⟩ := List.mem_map.1 href
      refine .inr (.inl fun above => ?_)
      simp only [obligations, TokenDef.obligations, TokenDef.fill, hterminated, Option.isSome_some,
        Bool.and_self, if_true]
      exact List.mem_map.2 ⟨mode, hmode, rfl⟩

theorem answers_rule (r : RuleDef) (ix : Index) (problems : List Diagnostic) :
    (Node.rule r).Answers ix problems := by
  intro ref href
  rcases List.mem_cons.1 href with rfl | href
  · exact .inl ⟨r.definition, List.mem_singleton_self _, rfl⟩
  · obtain ⟨e, he, hs⟩ := List.mem_filterMap.1 href
    obtain ⟨s, hsymbol, rfl⟩ := Option.map_eq_some_iff.1 hs
    refine .inr (.inl fun above => List.mem_append_left _ ?_)
    rw [RuleDef.owedElements_eq]
    exact List.mem_filterMap.2 ⟨e, he, by rw [hsymbol]; rfl⟩

theorem answers_read (line : Line) (ix : Index) (shape : Shape)
    (h : Harmless (Node.read line ix shape).problems) :
    (Node.read line ix shape).node.Answers ix (Node.read line ix shape).problems := by
  cases shape with
  | comment => exact fun ref href => by cases href
  | pragma mark name parameters => exact PragmaBody.answered_readBody line name parameters ix h _ rfl
  | token name operator rest => exact answers_token line name operator rest ix h _
  | rule name alias? operator rest => exact answers_rule _ ix _

theorem answers_problems (n : BlockName) (ix : Index) :
    (Node.blockName n).Answers ix (n.problems ix) := by
  intro ref href
  rcases List.mem_append.1 href with href | href
  · obtain ⟨walker, hwalker, rfl⟩ := List.mem_map.1 href
    replace hwalker : n.walker? = some walker := Option.mem_toList.1 hwalker
    by_cases hdefined : ix.isDefined (.walker walker.text) = true
    · exact .inr (.inr (.inl hdefined))
    · refine .inr (.inr (.inr ⟨.of (.unknownWalker walker.text) walker.span, ?_,
        by simp [Cause.code], rfl⟩))
      simp [BlockName.problems, hwalker, hdefined]
  · obtain ⟨⟨function, key⟩, hkey, rfl⟩ := List.mem_map.1 href
    replace hkey : n.functionKey? = some (function, key) := Option.mem_toList.1 hkey
    by_cases hdefined : ix.isDefined (.function key) = true
    · exact .inr (.inr (.inl hdefined))
    · refine .inr (.inr (.inr ⟨.of (.unknownFunction key) function.span, ?_,
        by simp [Cause.code], rfl⟩))
      simp [BlockName.problems, hkey, hdefined]

theorem answers_blockName (line : Line) (rule? : Option String) (ix : Index) :
    (Node.blockName (BlockName.read line rule? ix).node).Answers ix
      (BlockName.read line rule? ix).problems := by
  unfold BlockName.read
  dsimp only
  split
  · exact fun ref href => by cases href
  · exact answers_problems _ ix

end Node

namespace Analysis

variable {limit : Nat} {lines : List String}

theorem diagnostics_subset_finish (a : Analysis) : a.reader.diagnostics ⊆ a.finish.diagnostics := by
  obtain ⟨ds, hds, -⟩ := diagnostics_finish_eq a
  rw [hds]
  exact List.subset_append_left _ _

/-- An analysis without errors was not stopped. -/
theorem analyzeLines_of_harmless (h : Harmless (analyzeLines limit lines).diagnostics) :
    analyzeLines limit lines = (after lines).finish := by
  cases haborted : (run limit lines).aborted with
  | false => rw [analyzeLines, run_of_running haborted]
  | true =>
    obtain ⟨front, raw, rest, rfl, hover⟩ := exists_overruns_of_aborted haborted
    have hstop : .of (.tooManyErrors limit) (after (front ++ [raw])).reader.line.span ∈
        (run limit (front ++ raw :: rest)).reader.diagnostics := by
      rw [run_eq_halt hover]
      exact List.mem_append_right _ (List.mem_singleton_self _)
    exact (not_harmless (diagnostics_subset_finish _ hstop) rfl h).elim

/-- Each node answers for its names, under the lines above it. -/
theorem answers_of_origin (h : Harmless (after lines).reader.diagnostics) {line : Nat} {n : Node}
    (horigin : OriginAt lines line n) :
    ∃ problems, problems ⊆ (after lines).reader.diagnostics ∧
      n.bare.Answers (after (lines.take line)).index problems := by
  obtain ⟨raw, hraw, horigin⟩ := horigin
  have hkept := subset_diagnostics_line hraw
  cases horigin with
  | shape hblock shape hshape _ hbare hopening =>
    have hproblems := List.Subset.trans (problems_read_subset hblock hshape) hkept
    refine ⟨_, hproblems, ?_⟩
    rw [hbare]
    exact Node.answers_read _ _ _ (h.mono hproblems)
  | name hblock hexpects hnames =>
    exact ⟨_, List.Subset.trans (problems_name_subset hblock hexpects hnames) hkept,
      Node.answers_blockName _ _ _⟩
  | block b hopening => exact ⟨[], List.nil_subset _, fun ref href => by cases href⟩

/-- What a node owes is defined or reported. -/
theorem answered_obligation (lines : List String) {n : Node} (hn : n ∈ (after lines).finish.nodeList)
    {use : Pending} (huse : ∀ above, use ∈ n.obligations above) :
    (after lines).index.isDefined use.symbol = true ∨
      .of (.notDefined use.symbol) use.span ∈ (after lines).finish.diagnostics := by
  obtain ⟨ds, hsubset⟩ := exists_obligations_subset hn []
  by_cases hdefined : (after lines).index.isDefined use.symbol = true
  · exact .inl hdefined
  · refine .inr ?_
    rw [diagnostics_finish_of_running (aborted_after lines)]
    refine List.mem_append_right _ (List.mem_map.2 ⟨use, ?_, rfl⟩)
    rw [← index_conclude, (accounted_after lines).conclude.unresolved_eq]
    refine List.mem_filter.2 ⟨hsubset (huse ds), ?_⟩
    rw [index_conclude]
    simpa using hdefined

theorem answered_reference (h : Harmless (after lines).finish.diagnostics) {line : Nat} {n : Node}
    (hn : (after lines).finish.nodeAt? line = some n) {t : Lexeme} {s : Symbol}
    (href : (t, s) ∈ n.references) :
    (after lines).index.isDefined s = true ∨
      ∃ d ∈ (after lines).finish.diagnostics, d.code ∈ ["W0301", "W0303", "W0304"] ∧
        d.span = t.span := by
  have hreports := diagnostics_subset_finish (after lines)
  have hmem : n ∈ (after lines).finish.nodeList := Document.mem_nodeList.2 ⟨line, hn⟩
  rw [nodeAt?_finish] at hn
  obtain ⟨problems, hproblems, hanswers⟩ :=
    answers_of_origin (h.mono hreports) (originAt_conclude lines hn)
  rw [← Node.references_bare] at href
  rcases hanswers _ href with ⟨d, hd, hsymbol⟩ | howed | habove | ⟨d, hd, hcode, hspan⟩
  · left
    have hrecords := (accounted_after lines).conclude.books.records
    rw [index_conclude] at hrecords
    rw [hrecords.isDefined, List.any_eq_true]
    exact ⟨d, List.mem_flatMap.2 ⟨n, hmem, n.definitions_bare_subset hd⟩, decide_eq_true hsymbol⟩
  · rcases answered_obligation lines hmem fun above => by
        rw [← Node.obligations_bare]; exact howed above with hdefined | hreported
    · exact .inl hdefined
    · exact .inr ⟨_, hreported, by simp [Cause.code], rfl⟩
  · left
    have hlater := isDefined_after (lines.take line) (lines.drop line) habove
    rwa [List.take_append_drop] at hlater
  · refine .inr ⟨d, hreports (hproblems hd), ?_, hspan⟩
    exact List.mem_cons_of_mem _ hcode

end Analysis

theorem Document.definitionsAt_ne_nil {d : Document} {p : Position} {n : Node}
    (hn : d.nodeAt? p.line = some n) {ref : Lexeme × Symbol} (href : ref ∈ n.references)
    (hp : ref.1.contains p = true) (hdefined : ∀ ref ∈ n.references, d.index.definitionsOf ref.2 ≠ []) :
    d.definitionsAt p ≠ [] := by
  cases hfound : n.referenceAt? p with
  | none => exact absurd hp (List.find?_eq_none.1 hfound ref href)
  | some found =>
    have hsome := hdefined found (List.mem_of_find?_eq_some hfound)
    simpa [definitionsAt, referenceAt?, hn, hfound, definitionSpans] using hsome

open Analysis in
/-- Without errors every name that a node refers to is defined, or there is a warning just where it is
written. Without any diagnostics every name leads to a definition, wherever in it one asks. -/
theorem undefined_names_reported (limit : Nat) (text : String)
    (h : ∀ d ∈ (analyze limit text).diagnostics, d.severity ≠ .error) :
    (∀ n ∈ (analyze limit text).nodeList, ∀ ref ∈ n.references,
      (analyze limit text).index.definitionsOf ref.2 ≠ [] ∨
        ∃ d ∈ (analyze limit text).diagnostics, d.code ∈ ["W0301", "W0303", "W0304"] ∧
          d.span = ref.1.span) ∧
      ((analyze limit text).diagnostics = [] → ∀ n ∈ (analyze limit text).nodeList,
        ∀ ref ∈ n.references, ∀ p, ref.1.contains p = true →
          (analyze limit text).definitionsAt p ≠ []) := by
  have hclean : Harmless (analyze limit text).diagnostics := fun d hd => by
    simpa [Diagnostic.isError] using h d hd
  clear h
  have hdocument := analyzeLines_of_harmless hclean
  have hbuckets : (analyze limit text).index.buckets = (after (Text.lines text)).index.buckets := by
    rw [analyze, hdocument]
    exact buckets_finish _
  have hanswered : ∀ line n, (analyze limit text).nodeAt? line = some n → ∀ ref ∈ n.references,
      (analyze limit text).index.definitionsOf ref.2 ≠ [] ∨
        ∃ d ∈ (analyze limit text).diagnostics, d.code ∈ ["W0301", "W0303", "W0304"] ∧
          d.span = ref.1.span := by
    intro line n hn ref href
    rw [Index.definitionsOf_congr hbuckets]
    rw [analyze, hdocument] at hclean hn ⊢
    refine (answered_reference hclean hn href).imp_left fun hdefined => ?_
    simpa [Index.isDefined] using hdefined
  refine ⟨fun n hn => ?_, fun hnone n hn ref href p hp => ?_⟩
  · obtain ⟨line, hline⟩ := Document.mem_nodeList.1 hn
    exact hanswered line n hline
  · obtain ⟨line, hline⟩ := Document.mem_nodeList.1 hn
    obtain rfl := line_of_contains hline (Node.mem_words href) hp
    refine Document.definitionsAt_ne_nil hline href hp fun other hother => ?_
    rcases hanswered _ n hline other hother with hdefined | ⟨d, hd, -⟩
    · exact hdefined
    · rw [hnone] at hd
      cases hd

/-- A rule with an element that nobody defines, and one whose names are all defined. -/
theorem undefined_names_reported_both :
    (∀ d ∈ (analyze 25 "r := A;").diagnostics, d.severity ≠ .error) ∧
      (∀ n ∈ (analyze 25 "r := A;").nodeList, ∀ ref ∈ n.references,
        (analyze 25 "r := A;").index.definitionsOf ref.2 ≠ [] ∨
          ∃ d ∈ (analyze 25 "r := A;").diagnostics, d.code ∈ ["W0301", "W0303", "W0304"] ∧
            d.span = ref.1.span) ∧
      (analyze 25 "r := A;").diagnostics.map Diagnostic.code = ["W0301"] ∧
      (analyze 25 "A := \"a\";\nr := A;").diagnostics = [] ∧
      ∀ n ∈ (analyze 25 "A := \"a\";\nr := A;").nodeList, ∀ ref ∈ n.references, ∀ p,
        ref.1.contains p = true → (analyze 25 "A := \"a\";\nr := A;").definitionsAt p ≠ [] :=
  have hwarned : ∀ d ∈ (analyze 25 "r := A;").diagnostics, d.severity ≠ .error := by decide +kernel
  have hclean : (analyze 25 "A := \"a\";\nr := A;").diagnostics = [] := by decide +kernel
  ⟨hwarned, (undefined_names_reported 25 "r := A;" hwarned).1, by decide +kernel, hclean,
    (undefined_names_reported 25 "A := \"a\";\nr := A;" (by rw [hclean]; simp)).2 hclean⟩

end LineGrammar
