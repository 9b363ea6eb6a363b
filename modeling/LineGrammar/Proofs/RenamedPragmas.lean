import LineGrammar.Proofs.RenamedLines
import LineGrammar.Proofs.Settings

/-! Reading a pragma whose names are renamed. A reader that finds nothing wrong finds nothing wrong with the
renamed line, and all that it gives is followed by what it gives there. -/

namespace LineGrammar

namespace Renaming

/-- The function of a walker for the open rule, if there is one. -/
def functionFor (ρ : Renaming) (rule? : Option String) (walker function : String) : String :=
  match rule? with
  | some rule => ρ.apply (.function rule walker) function
  | none => function

/-- What the next block implements; a part of the walker itself belongs to no rule. -/
structure SendsTarget (ρ : Renaming) (rule? : Option String) (t t' : Target) : Prop where
  walker : ρ.SendsPart .walker t.walker t'.walker
  function : t'.function = ρ.functionFor (if t.isMembers then none else rule?) t.walker t.function
  plain : IsPlain t.function
  isMembers : t'.isMembers = t.isMembers

/-- A block that is open, at the same line in both documents. -/
structure SendsBlock (ρ : Renaming) (b b' : CodeBlock) : Prop where
  startLine : b'.startLine = b.startLine
  isInline : b'.isInline = b.isInline
  name : Option.Rel (fun key key' => ρ.Sends (.codeBlock key) (.codeBlock key')) b.name b'.name
  walker : Option.Rel (ρ.SendsPart .walker) b.walker b'.walker
  external : b.external = none
  external' : b'.external = none

/-- A rule that waits for blocks. -/
def SendsOpenRule (ρ : Renaming) (o o' : OpenRule) : Prop :=
  ρ.SendsBodyName o.name.text o'.name.text o.internalName o'.internalName

/-- What is asked of the lines that follow, under the rule that is open. -/
inductive SendsSequel (ρ : Renaming) (rule? : Option String) : Sequel → Sequel → Prop
  | nothing : ρ.SendsSequel rule? .nothing .nothing
  | rule {o o' : OpenRule} (h : ρ.SendsOpenRule o o') : ρ.SendsSequel rule? (.rule o) (.rule o')
  | body {b b' : CodeBlock} (h : ρ.SendsBlock b b') : ρ.SendsSequel rule? (.body b) (.body b')
  | name {t? t?' : Option Target} (h : Option.Rel (ρ.SendsTarget rule?) t? t?') :
    ρ.SendsSequel rule? (.name t?) (.name t?')
  | block {t t' : Target} (h : ρ.SendsTarget rule? t t') : ρ.SendsSequel rule? (.block t) (.block t')

/-- What is read of a renamed line, if nothing is wrong with it. -/
structure SendsReading {α : Type} (ρ : Renaming) (rule? : Option String) (Sends : α → α → Prop)
    (r r' : Reading α) : Prop where
  node : Sends r.node r'.node
  problems : r'.problems = []
  settings : ρ.SendsSettings r.index.settings r'.index.settings
  sequel : ρ.SendsSequel rule? r.sequel r'.sequel

theorem SendsReading.map {α β : Type} {ρ : Renaming} {rule? : Option String} {S : β → β → Prop} {f : α → β}
    {r r' : Reading α} (h : ρ.SendsReading rule? (fun x y => S (f x) (f y)) r r') :
    ρ.SendsReading rule? S (r.map f) (r'.map f) :=
  ⟨h.node, h.problems, h.settings, h.sequel⟩

/-- The nodes of pragmas with these bodies. -/
def SendsBody (ρ : Renaming) (body body' : PragmaBody) : Prop :=
  ∀ p p' : Pragma, p.body = body → p'.body = body' → ρ.SendsNode (.pragma p) (.pragma p')

variable {ρ : Renaming}

/-- A node that defines nothing and owes nothing. -/
theorem sendsNode_of_references {n n' : Node} (hrefs : ρ.SendsReferences n.references n'.references)
    (hd : n.definitions = []) (hd' : n'.definitions = []) (ho : ∀ log, n.obligations log = [])
    (ho' : ∀ log, n'.obligations log = []) : ρ.SendsNode n n' where
  references := hrefs
  definitions := by rw [hd, hd']; exact .nil
  obligations := fun _ => by rw [ho, ho']; exact .nil

open PragmaBody

theorem checkTerminator_eq_nil {line : Line} {terminated : Bool} :
    line.checkTerminator terminated = [] ↔ terminated = true := by
  cases terminated <;> simp [Line.checkTerminator]

section
variable {ix : Index} {decl : FunctionDecl} {problems : List Diagnostic}

/-- Whether it counts or not, the declaration stays. -/
theorem node_functionReading (ix : Index) (decl : FunctionDecl) (problems : List Diagnostic) :
    ∃ declared, (functionReading ix decl problems).node = .function { decl with declared } := by
  unfold functionReading
  split
  · split
    · exact ⟨decl.declared, rfl⟩
    · exact ⟨true, rfl⟩
  · exact ⟨decl.declared, rfl⟩

theorem problems_functionReading_clean (h : (functionReading ix decl problems).problems = []) :
    problems = [] := by
  unfold functionReading at h
  split at h
  · split at h
    · exact (List.append_eq_nil_iff.1 h).1
    · exact h
  · exact h

/-- A function that has a walker counts, if its key is not taken. -/
theorem functionReading_of_fresh {walker : String} (hwalker : decl.walkerName = some walker)
    (hfresh : ix.isDefined (.function (functionKey decl.rule.text walker decl.function.text)) = false) :
    functionReading ix decl problems =
      { node := .function { decl with declared := true }
        problems
        index := registerFunction decl walker ix } := by
  rw [functionReading, FunctionDecl.key?, hwalker]
  dsimp only [Option.map_some]
  rw [hfresh, if_neg Bool.false_ne_true]

theorem fresh_of_functionReading_clean {walker : String} (hwalker : decl.walkerName = some walker)
    (h : (functionReading ix decl problems).problems = []) :
    ix.isDefined (.function (functionKey decl.rule.text walker decl.function.text)) = false := by
  rw [functionReading, FunctionDecl.key?, hwalker] at h
  dsimp only [Option.map_some] at h
  split at h
  · exact absurd (List.append_eq_nil_iff.1 h).2 (by simp)
  · next hfresh => exact Bool.eq_false_iff.2 hfresh

end

variable {w : Rewriting} {refs : List (Lexeme × Symbol)} {line line' : Line}

theorem checkAssociative_eq_nil {ix : Index} {token : Lexeme} :
    checkAssociative ix token = [] ↔
      isTokenName token.text = true ∧ ix.isDefined (.token token.text) = false := by
  unfold checkAssociative
  cases isTokenName token.text <;> cases ix.isDefined (.token token.text) <;> simp

theorem filter_isTokenName {names : List Slice} (h : ∀ s ∈ names, isTokenName (line.lexeme s).text = true) :
    (names.map line.lexeme).filter (fun token => isTokenName token.text) = names.map line.lexeme :=
  List.filter_eq_self.2 (List.forall_mem_map.2 h)

section
variable (h : ρ.Renames w refs line line') (hρ : ρ.Valid) {ix ix' : Index} (hix : ρ.SendsIndex ix ix')
include h hρ hix

theorem checkWalker_clean {walker : Slice} (hword : walker.IsWord line.raw.toList)
    (hmem : (line.lexeme walker, .walker (line.lexeme walker).text) ∈ refs)
    (hclean : checkWalker ix (line.lexeme walker) = []) :
    ix.isDefined (.walker (line.lexeme walker).text) = true ∧
      ix'.isDefined (.walker (line'.lexeme (w.slice walker)).text) = true := by
  have hwalker : ρ.Sends (.walker (line.lexeme walker).text) (.walker (line'.lexeme (w.slice walker)).text) :=
    h.sendsLexeme hρ hword (k := .walker) rfl hmem
  rw [hix.isDefined hwalker (by rintro ⟨⟩), and_self]
  unfold checkWalker at hclean
  split at hclean
  · assumption
  · cases hclean

/-- The walker that gets a function. -/
theorem sends_functionWalker {shape : FunctionShape}
    (hwords : ∀ walker ∈ shape.walker?, walker.IsWord line.raw.toList)
    (hmem : ∀ walker ∈ shape.walker?, (line.lexeme walker, .walker (line.lexeme walker).text) ∈ refs)
    (hclean : (functionWalker ix (shape.bare line)).2 = []) :
    ∃ x y, functionWalker ix (shape.bare line) = (some x, []) ∧
      functionWalker ix' ((shape.map w.slice).bare line') = (some y, []) ∧ ρ.SendsPart .walker x y := by
  unfold functionWalker at hclean ⊢
  simp only [FunctionShape.bare, FunctionShape.map] at hclean ⊢
  cases hwalker : shape.walker? with
  | some walker =>
    rw [hwalker] at hclean
    simp only [Option.map_some] at hclean ⊢
    obtain ⟨hdefined, hdefined'⟩ :=
      checkWalker_clean h hρ hix (hwords walker hwalker) (hmem walker hwalker) hclean
    rw [checkWalker, checkWalker, if_pos hdefined, if_pos hdefined, if_pos hdefined', if_pos hdefined']
    exact ⟨_, _, rfl, rfl, h.sendsPart hρ (hwords walker hwalker) (k := .walker) rfl (hmem walker hwalker)⟩
  | none =>
    rw [hwalker] at hclean
    simp only [Option.map_none] at hclean ⊢
    have hdefault := hix.settings.defaultWalker
    generalize ix.settings.defaultWalker = x? at hdefault hclean
    generalize ix'.settings.defaultWalker = y? at hdefault
    cases hdefault with
    | none => cases hclean
    | some hsend => exact ⟨_, _, rfl, rfl, hsend⟩

omit h hρ in
/-- A function that counts. -/
theorem sends_functionReading {decl decl' : FunctionDecl} (hdecl : ρ.SendsFunctionDecl decl decl')
    {problems : List Diagnostic} (hclean : (functionReading ix decl problems).problems = []) :
    ρ.SendsReading none ρ.SendsBody (functionReading ix decl problems) (functionReading ix' decl' []) := by
  obtain ⟨x, y, hx, hy, hwalker, hfunction⟩ := hdecl.named
  have hfresh := fresh_of_functionReading_clean hx hclean
  have hkey := Sends.function hdecl.rule hwalker hfunction
  rw [functionReading_of_fresh hx hfresh,
    functionReading_of_fresh hy ((hix.isDefined hkey (by rintro ⟨⟩)).trans hfresh)]
  have hdeclared : ρ.SendsFunctionDecl { decl with declared := true } { decl' with declared := true } :=
    ⟨hdecl.rule, hdecl.walker, hdecl.named, hdecl.plain, rfl⟩
  refine ⟨fun p p' hp hp' => hdeclared.node hp hp', rfl, ?_, .nothing⟩
  rw [settings_registerFunction, settings_registerFunction]
  exact hix.settings

variable {parameters : Slice} (hp : parameters.Whole line.raw.toList) {r : Reading PragmaBody}
  (hclean : r.problems = [])
include hp hclean

theorem sends_readClassName? (hr : readClassName? line parameters ix = some r) :
    ∃ r', readClassName? line' (w.slice parameters) ix' = some r' ∧ ρ.SendsReading none ρ.SendsBody r r' := by
  obtain ⟨⟨name, terminated⟩, hname, hr⟩ := Option.bind_eq_some_iff.1 hr
  simp only [readClassName?, Rewriting.singleName?_slice (h.fits hρ) hp hname, Option.bind_eq_bind,
    Option.bind_some, hix.settings.className]
  dsimp only at hr
  split at hr <;> rename_i hset <;> cases hr
  · exact absurd (List.append_eq_nil_iff.1 hclean).2 (by simp)
  · rw [if_neg hset]
    have hterm : terminated = true := checkTerminator_eq_nil.1 hclean
    refine ⟨_, rfl, fun p p' hp hp' => ?_, ?_, ?_, .nothing⟩
    · apply sendsNode_of_references <;>
        simp [Node.references, Pragma.references, Node.definitions, Pragma.definitions,
          Node.obligations, PragmaBody.obligations, hp, hp']
    · exact checkTerminator_eq_nil.2 hterm
    · exact ⟨rfl, hix.settings.walkersDeclared, hix.settings.defaultWalker,
        hix.settings.defaultWalkerSpecified⟩

variable {p : Pragma} (hrefs : p.references = refs) (hbody : p.body = r.node)
include hrefs hbody

theorem sends_readWalkers? (hr : readWalkers? line parameters ix = some r) :
    ∃ r', readWalkers? line' (w.slice parameters) ix' = some r' ∧ ρ.SendsReading none ρ.SendsBody r r' := by
  obtain ⟨names, hnames, hr⟩ := Option.bind_eq_some_iff.1 hr
  simp only [readWalkers?, Rewriting.nameList?_slice (h.fits hρ) hp hnames, Option.bind_eq_bind,
    Option.bind_some, hix.settings.walkersDeclared]
  dsimp only at hr
  split at hr <;> rename_i hset <;> cases hr
  · cases hclean
  · rw [if_neg hset]
    have hwords : ∀ s ∈ names, s.IsWord line.raw.toList :=
      fun s hs => ((Slice.nameList?_words hp hnames).1 s hs).1
    have hmem : ∀ s ∈ names, (line.lexeme s, .walker (line.lexeme s).text) ∈ refs := by
      intro s hs
      rw [← hrefs, Pragma.references, hbody]
      exact List.mem_map_of_mem (List.mem_map_of_mem hs)
    have hwalkers := h.sendsLexemes hρ (k := .walker) rfl hwords hmem
    refine ⟨_, rfl, fun p p' hp hp' => ⟨?_, ?_, fun _ => ?_⟩, rfl, ?_, .nothing⟩
    · simp only [Node.references, Pragma.references, hp, hp']
      exact forall₂_map hwalkers fun _ _ hwalker => hwalker
    · simp only [Node.definitions, Pragma.definitions, hp, hp']
      exact forall₂_map hwalkers fun _ _ hwalker => ⟨hwalker, .plain⟩
    · simp only [Node.obligations, PragmaBody.obligations, hp, hp']
      exact .nil
    · refine ⟨hix.settings.className, rfl, ?_, hix.settings.defaultWalkerSpecified⟩
      cases names with
      | nil => exact .none
      | cons s rest => exact .some (h.sendsPart hρ (hwords s (by simp)) (k := .walker) rfl (hmem s (by simp)))

theorem sends_readDefaultWalker? (hr : readDefaultWalker? line parameters ix = some r) :
    ∃ r', readDefaultWalker? line' (w.slice parameters) ix' = some r' ∧
      ρ.SendsReading none ρ.SendsBody r r' := by
  obtain ⟨⟨name, terminated⟩, hname, hr⟩ := Option.bind_eq_some_iff.1 hr
  have hword := (Slice.singleName?_words hp hname).1
  have hmem : r.node = .defaultWalker (line.lexeme name) →
      (line.lexeme name, .walker (line.lexeme name).text) ∈ refs := by
    intro hnode
    rw [← hrefs, Pragma.references, hbody, hnode]
    exact List.mem_singleton_self _
  simp only [readDefaultWalker?, Rewriting.singleName?_slice (h.fits hρ) hp hname, Option.bind_eq_bind,
    Option.bind_some, hix.settings.defaultWalkerSpecified]
  dsimp only at hr
  split at hr
  · cases hr
    cases hclean
  · next hset =>
    split at hr <;> rename_i hdefined <;> cases hr
    · have hwalker := h.sendsLexeme hρ hword (k := .walker) rfl (hmem rfl)
      have hdefined' : ix'.isDefined (.walker (line'.lexeme (w.slice name)).text) = true :=
        (hix.isDefined hwalker (by rintro ⟨⟩)).trans hdefined
      rw [if_neg hset, if_pos hdefined']
      refine ⟨_, rfl, fun p p' hp hp' => ?_, rfl, ?_, .nothing⟩
      · apply sendsNode_of_references <;>
          simp [Node.references, Pragma.references, Node.definitions, Pragma.definitions,
            Node.obligations, PragmaBody.obligations, hp, hp']
        exact hwalker
      · exact ⟨hix.settings.className, hix.settings.walkersDeclared,
          .some (h.sendsPart hρ hword (k := .walker) rfl (hmem rfl)), rfl⟩
    · exact absurd (checkWalker_clean h hρ hix hword (hmem rfl) hclean).1 hdefined

theorem sends_readMembers? (hr : readMembers? line parameters ix = some r) :
    ∃ r', readMembers? line' (w.slice parameters) ix' = some r' ∧ ρ.SendsReading none ρ.SendsBody r r' := by
  obtain ⟨⟨name, mark?⟩, hname, hr⟩ := Option.bind_eq_some_iff.1 hr
  have hword := (Slice.membersParameters?_words hp hname).1
  cases hr
  have hmem : (line.lexeme name, .walker (line.lexeme name).text) ∈ refs := by
    rw [← hrefs, Pragma.references, hbody]
    exact List.mem_singleton_self _
  have hwalker := h.sendsPart hρ hword (k := .walker) rfl hmem
  have hdefined := (checkWalker_clean h hρ hix hword hmem hclean).2
  simp only [readMembers?, Rewriting.membersParameters?_slice (h.fits hρ) hp hname, Option.bind_eq_bind,
    Option.bind_some]
  refine ⟨_, rfl, fun p p' hp hp' => ?_, ?_, hix.settings, ?_⟩
  · apply sendsNode_of_references <;>
      simp [Node.references, Pragma.references, Node.definitions, Pragma.definitions,
        Node.obligations, PragmaBody.obligations, hp, hp']
    exact h.sendsLexeme hρ hword (k := .walker) rfl hmem
  · rw [checkWalker, if_pos hdefined]
  · have hplain : IsPlain membersPart := by decide
    cases mark? with
    | none => exact .block ⟨hwalker, rfl, hplain, rfl⟩
    | some mark =>
      refine .body ⟨h.number, rfl, .some (.members hwalker hplain), .some hwalker, rfl, rfl⟩

theorem sends_readAssociativity? {associativity : Associativity}
    (hr : readAssociativity? associativity line parameters ix = some r) :
    ∃ r', readAssociativity? associativity line' (w.slice parameters) ix' = some r' ∧
      ρ.SendsReading none ρ.SendsBody r r' := by
  obtain ⟨names, hnames, hr⟩ := Option.bind_eq_some_iff.1 hr
  cases hr
  have hwords : ∀ s ∈ names, s.IsWord line.raw.toList :=
    fun s hs => ((Slice.nameList?_words hp hnames).1 s hs).1
  -- Every name is that of a token, and the token comes later.
  have htokens : ∀ s ∈ names, isTokenName (line.lexeme s).text = true ∧
      ix.isDefined (.token (line.lexeme s).text) = false :=
    fun s hs => checkAssociative_eq_nil.1 (List.flatMap_eq_nil_iff.1 hclean _ (List.mem_map_of_mem hs))
  have hall := filter_isTokenName fun s hs => (htokens s hs).1
  have hmem : ∀ s ∈ names, (line.lexeme s, .token (line.lexeme s).text) ∈ refs := by
    intro s hs
    rw [← hrefs, Pragma.references, hbody]
    dsimp only
    rw [hall]
    exact List.mem_map_of_mem (List.mem_map_of_mem hs)
  have hsends := h.sendsLexemes hρ (k := .token) rfl hwords hmem
  have htokens' : ∀ s ∈ names, isTokenName (line'.lexeme (w.slice s)).text = true ∧
      ix'.isDefined (.token (line'.lexeme (w.slice s)).text) = false := by
    intro s hs
    have hsend : ρ.Sends (.token (line.lexeme s).text) (.token (line'.lexeme (w.slice s)).text) :=
      h.sendsLexeme hρ (hwords s hs) (k := .token) rfl (hmem s hs)
    have hname := (h.sendsPart hρ (hwords s hs) (k := .token) rfl (hmem s hs)).name
    exact ⟨hname.isTokenName hρ (htokens s hs).1, (hix.isDefined hsend (by rintro ⟨⟩)).trans (htokens s hs).2⟩
  have hall' := filter_isTokenName (List.forall_mem_map.2 fun s hs => (htokens' s hs).1)
  simp only [readAssociativity?, Rewriting.nameList?_slice (h.fits hρ) hp hnames, Option.bind_eq_bind,
    Option.bind_some]
  refine ⟨_, rfl, fun p p' hp hp' => ⟨?_, ?_, fun _ => ?_⟩, ?_, ?_, .nothing⟩
  · simp only [Node.references, Pragma.references, hp, hp', hall, hall']
    exact forall₂_map hsends fun _ _ htoken => htoken
  · simp only [Node.definitions, Pragma.definitions, hp, hp']
    exact .nil
  · simp only [Node.obligations, PragmaBody.obligations, hp, hp', hall, hall']
    exact forall₂_map hsends fun _ _ htoken => htoken
  · refine List.flatMap_eq_nil_iff.2 (List.forall_mem_map.2 (List.forall_mem_map.2 fun s hs => ?_))
    exact checkAssociative_eq_nil.2 (htokens' s hs)
  · rw [settings_foldl settings_awaitAssociative, settings_foldl settings_awaitAssociative]
    exact hix.settings

theorem sends_readLexerMode? (hr : readLexerMode? line parameters ix = some r) :
    ∃ r', readLexerMode? line' (w.slice parameters) ix' = some r' ∧ ρ.SendsReading none ρ.SendsBody r r' := by
  obtain ⟨⟨name, terminated⟩, hname, hr⟩ := Option.bind_eq_some_iff.1 hr
  cases hr
  have hmem : (line.lexeme name, .lexerMode (line.lexeme name).text) ∈ refs := by
    rw [← hrefs, Pragma.references, hbody]
    exact List.mem_singleton_self _
  have hmode := h.sendsLexeme hρ (Slice.singleName?_words hp hname).1 (k := .lexerMode) rfl hmem
  simp only [readLexerMode?, Rewriting.singleName?_slice (h.fits hρ) hp hname, Option.bind_eq_bind,
    Option.bind_some]
  refine ⟨_, rfl, fun p p' hp hp' => ⟨?_, ?_, fun _ => ?_⟩, rfl, hix.settings, .nothing⟩
  · simp only [Node.references, Pragma.references, hp, hp']
    exact .cons hmode .nil
  · simp only [Node.definitions, Pragma.definitions, hp, hp']
    exact .cons ⟨hmode, .plain⟩ .nil
  · simp only [Node.obligations, PragmaBody.obligations, hp, hp']
    exact .nil

theorem sends_readLexerInclude? (hr : readLexerInclude? line parameters ix = some r) :
    ∃ r', readLexerInclude? line' (w.slice parameters) ix' = some r' ∧
      ρ.SendsReading none ρ.SendsBody r r' := by
  obtain ⟨⟨name, terminated⟩, hname, hr⟩ := Option.bind_eq_some_iff.1 hr
  cases hr
  have hmem : (line.lexeme name, .lexerMode (line.lexeme name).text) ∈ refs := by
    rw [← hrefs, Pragma.references, hbody]
    exact List.mem_singleton_self _
  have hmode := h.sendsLexeme hρ (Slice.singleName?_words hp hname).1 (k := .lexerMode) rfl hmem
  simp only [readLexerInclude?, Rewriting.singleName?_slice (h.fits hρ) hp hname, Option.bind_eq_bind,
    Option.bind_some]
  refine ⟨_, rfl, fun p p' hp hp' => ⟨?_, ?_, fun _ => ?_⟩, rfl, ?_, .nothing⟩
  · simp only [Node.references, Pragma.references, hp, hp']
    exact .cons hmode .nil
  · simp only [Node.definitions, Pragma.definitions, hp, hp']
    exact .nil
  · simp only [Node.obligations, PragmaBody.obligations, hp, hp']
    exact .cons hmode .nil
  · simpa using hix.settings

theorem sends_readStart? (hr : readStart? line parameters ix = some r) :
    ∃ r', readStart? line' (w.slice parameters) ix' = some r' ∧ ρ.SendsReading none ρ.SendsBody r r' := by
  obtain ⟨⟨name, terminated⟩, hname, hr⟩ := Option.bind_eq_some_iff.1 hr
  cases hr
  have hmem : (line.lexeme name, .rule (line.lexeme name).text) ∈ refs := by
    rw [← hrefs, Pragma.references, hbody]
    exact List.mem_singleton_self _
  have hrule := h.sendsLexeme hρ (Slice.singleName?_words hp hname).1 (k := .rule) rfl hmem
  simp only [readStart?, Rewriting.singleName?_slice (h.fits hρ) hp hname, Option.bind_eq_bind,
    Option.bind_some]
  refine ⟨_, rfl, fun p p' hp hp' => ⟨?_, ?_, fun _ => ?_⟩, rfl, ?_, .nothing⟩
  · simp only [Node.references, Pragma.references, hp, hp']
    exact .cons hrule .nil
  · simp only [Node.definitions, Pragma.definitions, hp, hp']
    exact .nil
  · simp only [Node.obligations, PragmaBody.obligations, hp, hp']
    exact .cons hrule .nil
  · simpa using ⟨hix.settings.className, hix.settings.walkersDeclared, hix.settings.defaultWalker,
      hix.settings.defaultWalkerSpecified⟩

theorem sends_readWalkerInterface? (hr : readWalkerInterface? line parameters ix = some r) :
    ∃ r', readWalkerInterface? line' (w.slice parameters) ix' = some r' ∧
      ρ.SendsReading none ρ.SendsBody r r' := by
  obtain ⟨⟨name, typeName⟩, hname, hr⟩ := Option.bind_eq_some_iff.1 hr
  have hword := (Slice.interfaceParameters?_words hp hname).1
  cases hr
  have hmem : (line.lexeme name, .walker (line.lexeme name).text) ∈ refs := by
    rw [← hrefs, Pragma.references, hbody]
    exact List.mem_singleton_self _
  obtain ⟨hdefined, hdefined'⟩ := checkWalker_clean h hρ hix hword hmem hclean
  simp only [readWalkerInterface?, Rewriting.interfaceParameters?_slice (h.fits hρ) hp hname,
    Option.bind_eq_bind, Option.bind_some]
  refine ⟨_, rfl, fun p p' hp hp' => ⟨?_, ?_, fun _ => ?_⟩, ?_, hix.settings, .nothing⟩
  · simp only [Node.references, Pragma.references, hp, hp']
    exact .cons (h.sendsLexeme hρ hword (k := .walker) rfl hmem) .nil
  · simp only [Node.definitions, Pragma.definitions, hp, hp', hdefined, hdefined']
    exact .cons ⟨.interface (h.sendsPart hρ hword (k := .walker) rfl hmem), .interface _ _⟩ .nil
  · simp only [Node.obligations, PragmaBody.obligations, hp, hp']
    exact .nil
  · rw [checkWalker, if_pos hdefined']

theorem sends_readFunction? (hr : readFunction? line parameters ix = some r) :
    ∃ r', readFunction? line' (w.slice parameters) ix' = some r' ∧ ρ.SendsReading none ρ.SendsBody r r' := by
  obtain ⟨shape, hshape, -⟩ := Option.bind_eq_some_iff.1 hr
  have hwords := Slice.functionParameters?_words hp hshape
  have hshape' := Rewriting.functionParameters?_slice (h.fits hρ) hp hshape
  rw [readFunction?_eq hshape] at hr
  cases hr
  have hproblems := problems_functionReading_clean hclean
  obtain ⟨hterm, howner⟩ := List.append_eq_nil_iff.1 hproblems
  obtain ⟨declared, hnode⟩ := node_functionReading ix
    { shape.bare line with walkerName := (functionWalker ix (shape.bare line)).1 }
    (line.checkTerminator shape.terminated ++ (functionWalker ix (shape.bare line)).2)
  -- The references of the declaration are its rule, its walker and its key.
  have hlist : refs = FunctionDecl.references
      { shape.bare line with walkerName := (functionWalker ix (shape.bare line)).1, declared } := by
    rw [← hrefs, Pragma.references, hbody, hnode]
  have hrule : (line.lexeme shape.rule, .rule (line.lexeme shape.rule).text) ∈ refs := by
    rw [hlist]
    exact List.mem_append_left _ List.mem_cons_self
  have hmem : ∀ walker ∈ shape.walker?, (line.lexeme walker, .walker (line.lexeme walker).text) ∈ refs := by
    intro walker hw
    rw [hlist]
    refine List.mem_append_left _ (List.mem_cons_of_mem _ (List.mem_map.2 ⟨line.lexeme walker, ?_, rfl⟩))
    exact Option.mem_toList.2 (Option.mem_map_of_mem line.lexeme hw)
  obtain ⟨x, y, hx, hy, hwalker⟩ := sends_functionWalker h hρ hix
    (fun walker hw => (hwords.walker walker hw).1) hmem howner
  have hfunction : (line.lexeme shape.function,
      .function (functionKey (line.lexeme shape.rule).text x (line.lexeme shape.function).text)) ∈ refs := by
    rw [hlist, hx]
    exact List.mem_append_right _ (List.mem_singleton_self _)
  have hsendsRule := h.sendsPart hρ hwords.rule (k := .rule) rfl hrule
  have hsendsFunction := h.sendsName hρ hwords.function
    (show (Subject.function (line.lexeme shape.rule).text x).IsSimple from ⟨hsendsRule.plain, hwalker.plain⟩)
    hfunction
  have hdecl : ρ.SendsFunctionDecl { shape.bare line with walkerName := some x }
      { (shape.map w.slice).bare line' with walkerName := some y } := by
    refine ⟨hsendsRule, ?_, ⟨x, y, rfl, rfl, hwalker, hsendsFunction⟩, isPlain_of_word hwords.function, rfl⟩
    simp only [FunctionShape.bare, FunctionShape.map]
    cases hw : shape.walker? with
    | none => exact .none
    | some walker =>
      exact .some (h.sendsLexeme hρ (hwords.walker walker hw).1 rfl (hmem walker hw))
  have hterm' : line'.checkTerminator (shape.map w.slice).terminated = [] :=
    checkTerminator_eq_nil.2 (checkTerminator_eq_nil.1 hterm)
  refine ⟨_, readFunction?_eq hshape', ?_⟩
  rw [hx] at hclean ⊢
  rw [hy, hterm']
  exact sends_functionReading hix hdecl hclean

theorem sends_read? {keyword : Keyword} (hr : read? keyword line parameters ix = some r) :
    ∃ r', read? keyword line' (w.slice parameters) ix' = some r' ∧ ρ.SendsReading none ρ.SendsBody r r' := by
  cases keyword with
  | className => exact sends_readClassName? h hρ hix hp hclean hr
  | walkers => exact sends_readWalkers? h hρ hix hp hclean hrefs hbody hr
  | defaultWalker => exact sends_readDefaultWalker? h hρ hix hp hclean hrefs hbody hr
  | members => exact sends_readMembers? h hρ hix hp hclean hrefs hbody hr
  | left | right | token => exact sends_readAssociativity? h hρ hix hp hclean hrefs hbody hr
  | function => exact sends_readFunction? h hρ hix hp hclean hrefs hbody hr
  | lexerMode => exact sends_readLexerMode? h hρ hix hp hclean hrefs hbody hr
  | lexerInclude => exact sends_readLexerInclude? h hρ hix hp hclean hrefs hbody hr
  | walkerInterface => exact sends_readWalkerInterface? h hρ hix hp hclean hrefs hbody hr
  | start => exact sends_readStart? h hρ hix hp hclean hrefs hbody hr
  | namespaceName | prologue | epilogue | inclusion | checkUnusedTokens =>
    cases hr
    refine ⟨_, rfl, fun p p' hp hp' => ?_, rfl, hix.settings, .nothing⟩
    apply sendsNode_of_references <;>
      simp [Node.references, Pragma.references, Node.definitions, Pragma.definitions,
        Node.obligations, PragmaBody.obligations, hp, hp']

end

end Renaming

end LineGrammar
