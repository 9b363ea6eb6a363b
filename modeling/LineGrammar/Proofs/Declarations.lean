import LineGrammar.Proofs.BodyNames
import LineGrammar.Proofs.Directives

/-! The settings, walkers and functions of a document. Whatever its directives are, in which order and how
many of them are rejected, the index says of them what the directives say, at every line of a run. -/

namespace LineGrammar

def Node.directives : Node → List Pragma
  | pragma p => if p.isDirective then [p] else []
  | _ => []

def Document.directives (d : Document) : List Pragma := d.nodeList.flatMap Node.directives

theorem blindToBlocks_directives : BlindToBlocks Node.directives where
  block _ := rfl
  members p walker opening block? hbody := by
    rw [Node.directives, Pragma.isDirective, hbody]
    rfl

/-- The kinds of symbols that only directives define. -/
def SymbolKind.isDeclared : SymbolKind → Bool
  | walker | function | walkerInterface => true
  | rule | token | lexerMode | codeBlock => false

/-- What a directive defines goes with its body. -/
theorem Pragma.definition_cases {p : Pragma} {d : Definition} (h : d ∈ p.definitions) :
    (∃ names, p.body = .walkers names true ∧ d.symbol.kind = .walker) ∨
    (∃ decl, p.body = .function decl ∧ d.symbol.kind = .function) ∨
    (∃ walker typeName, p.body = .walkerInterface walker typeName true ∧
      d.symbol = .walkerInterface walker.text) ∨
    d.symbol.kind.isDeclared = false := by
  cases Pragma.mem_definitions.1 h with
  | walker hbody => exact .inl ⟨_, hbody, rfl⟩
  | function hbody => exact .inr (.inl ⟨_, hbody, rfl⟩)
  | walkerInterface hbody => exact .inr (.inr (.inl ⟨_, _, hbody, rfl⟩))
  | lexerMode => exact .inr (.inr (.inr rfl))
  | block _ hdefined => exact .inr (.inr (.inr (by rw [CodeBlock.kind_of_definition hdefined]; rfl)))

theorem Node.not_declared_of_definition {n : Node} (hn : n.directives = []) {d : Definition}
    (hd : d ∈ n.definitions) : d.symbol.kind.isDeclared = false := by
  cases n with
  | pragma p =>
    have hp : p.isDirective = false := by simpa [directives] using hn
    rcases Pragma.definition_cases hd with ⟨_, hbody, -⟩ | ⟨_, hbody, -⟩ | ⟨_, _, hbody, -⟩ | hkind
    · simp [Pragma.isDirective, hbody] at hp
    · simp [Pragma.isDirective, hbody] at hp
    · simp [Pragma.isDirective, hbody] at hp
    · exact hkind
  | token t => rw [TokenDef.kind_of_definition hd]; rfl
  | rule r => rw [List.mem_singleton.1 hd]; rfl
  | block b => rw [CodeBlock.kind_of_definition hd]; rfl
  | comment text => cases hd
  | blockName name => cases hd

/-- The index says what the directives say. -/
structure Declares (ix : Index) (ps : List Pragma) : Prop where
  settings : ix.settings = settingsOf ps
  walkers : ∀ name, ix.definitionsOf (.walker name) = (walkersOf ps).filter (·.symbol = .walker name)
  functions : ∀ key, ix.definitionsOf (.function key) = (functionOf? ps key).toList
  interfaces : ∀ walker, ix.isDefined (.walkerInterface walker) = true →
    ix.isDefined (.walker walker) = true
  resolved : ∀ front p rest decl, ps = front ++ p :: rest → p.body = .function decl →
    decl.walkerName = resolvedWalker front decl.walker?
  named : ∀ p ∈ ps, ∀ ds ∈ p.walkers?, ds ≠ []

theorem declares_nil : Declares {} [] where
  settings := rfl
  walkers _ := rfl
  functions _ := rfl
  interfaces _ h := by cases h
  resolved front p rest decl h := by simp at h
  named p h := by cases h

section
variable {ix ix' : Index} {ps : List Pragma}

/-- A line that is no directive. -/
theorem Declares.same (h : Declares ix ps) (hsettings : ix'.settings = ix.settings)
    (hdefinitions : ∀ s, s.kind.isDeclared = true → ix'.definitionsOf s = ix.definitionsOf s) :
    Declares ix' ps where
  settings := hsettings.trans h.settings
  walkers name := (hdefinitions _ rfl).trans (h.walkers name)
  functions key := (hdefinitions _ rfl).trans (h.functions key)
  interfaces walker hdefined := by
    rw [Index.isDefined, hdefinitions _ rfl] at hdefined ⊢
    exact h.interfaces walker hdefined
  resolved := h.resolved
  named := h.named

theorem Declares.sameOf (h : Declares ix ps) {ds : List Definition} (hsettings : ix'.settings = ix.settings)
    (hbuckets : ix'.buckets = addAll ds ix.buckets)
    (hds : ∀ d ∈ ds, d.symbol.kind.isDeclared = false) : Declares ix' ps := by
  refine h.same hsettings fun s hs => ?_
  have hnone : ds.filter (·.symbol = s) = [] := by
    rw [List.filter_eq_nil_iff]
    intro d hd hsymbol
    have hkind := hds d hd
    rw [of_decide_eq_true hsymbol, hs] at hkind
    cases hkind
  rw [Index.definitionsOf_of_addAll hbuckets, hnone, List.append_nil]

variable (h : Declares ix ps)
include h

theorem Declares.isDefined_walker (name : String) :
    ix.isDefined (.walker name) = decide (name ∈ walkerNames ps) := by
  rw [Index.isDefined, h.walkers, Bool.eq_iff_iff]
  simp only [Bool.not_eq_true', List.isEmpty_eq_false_iff_exists_mem, List.mem_filter, decide_eq_true_eq,
    walkerNames, List.mem_map]
  constructor
  · rintro ⟨d, hd, hsymbol⟩
    exact ⟨d, hd, by rw [hsymbol]; rfl⟩
  · rintro ⟨d, hd, hname⟩
    exact ⟨d, hd, by rw [symbol_of_mem_walkersOf hd, hname]⟩

theorem Declares.isDefined_function (key : String) :
    ix.isDefined (.function key) = (functionOf? ps key).isSome := by
  rw [Index.isDefined, h.functions]
  cases functionOf? ps key <;> rfl

section
variable {p : Pragma} (hbuckets : ix'.buckets = addAll p.definitions ix.buckets)
  (hjudged : p.body.Judged ix)
include hbuckets hjudged

/-- Only the first list of walkers is entered. -/
theorem Declares.walkers_directive (name : String) :
    ix'.definitionsOf (.walker name) = (walkersOf (ps ++ [p])).filter (·.symbol = .walker name) := by
  rw [Index.definitionsOf_of_addAll hbuckets, h.walkers]
  cases hbody : p.body with
  | walkers names declared =>
    have hlist : p.walkers? =
        some (names.map fun name => ⟨.walker name.text, name.span, p.span, .plain⟩) := by
      rw [Pragma.walkers?, hbody]
    have hdeclared : declared = !(ps.findSome? Pragma.walkers?).isSome := by
      rw [hbody] at hjudged
      rw [hjudged.2, h.settings, settingsOf]
    cases hfirst : ps.findSome? Pragma.walkers? with
    | none =>
      rw [hfirst] at hdeclared
      rw [walkersOf_concat, walkersOf_of_none hfirst, hfirst, hlist]
      simp [Pragma.definitions, hbody, hdeclared]
    | some ds =>
      rw [hfirst] at hdeclared
      rw [walkersOf_concat_same (.inl (by rw [hfirst]; rfl))]
      simp [Pragma.definitions, hbody, hdeclared]
  | _ =>
    have hnone : p.definitions.filter (·.symbol = .walker name) = [] := by
      rw [List.filter_eq_nil_iff]
      intro d hd hsymbol
      have hsymbol := of_decide_eq_true hsymbol
      rcases Pragma.definition_cases hd with ⟨_, h, -⟩ | ⟨_, _, h⟩ | ⟨_, _, _, h⟩ | h
      · rw [hbody] at h; cases h
      all_goals rw [hsymbol] at h; cases h
    rw [hnone, List.append_nil, walkersOf_concat_same (.inr (by rw [Pragma.walkers?, hbody]))]

/-- Only the first function with a key is entered. -/
theorem Declares.functions_directive (key : String) :
    ix'.definitionsOf (.function key) = (functionOf? (ps ++ [p]) key).toList := by
  rw [Index.definitionsOf_of_addAll hbuckets, h.functions, functionOf?_concat]
  cases hbody : p.body with
  | function decl =>
    rw [hbody] at hjudged
    have hdeclared := hjudged.2
    cases hwalker : decl.walkerName with
    | none => simp [Pragma.definitions, Pragma.function?, FunctionDecl.key?, hbody, hwalker]
    | some walker =>
      have hkey : decl.key? = some (functionKey decl.rule.text walker decl.function.text) := by
        rw [FunctionDecl.key?, hwalker]; rfl
      rw [hkey, Option.any_some, h.isDefined_function] at hdeclared
      by_cases hsame : functionKey decl.rule.text walker decl.function.text = key
      · subst hsame
        cases hprev : functionOf? ps (functionKey decl.rule.text walker decl.function.text) <;>
          simp [Pragma.definitions, Pragma.function?, hbody, hwalker, hkey, hdeclared, hprev, Option.filter]
      · cases hprev : functionOf? ps (functionKey decl.rule.text walker decl.function.text) <;>
          simp [Pragma.definitions, Pragma.function?, hbody, hwalker, hkey, hdeclared, hprev, Option.filter,
            Symbol.function, hsame]
  | _ =>
    have hnone : p.definitions.filter (·.symbol = .function key) = [] := by
      rw [List.filter_eq_nil_iff]
      intro d hd hsymbol
      have hsymbol := of_decide_eq_true hsymbol
      rcases Pragma.definition_cases hd with ⟨_, _, h⟩ | ⟨_, h, -⟩ | ⟨_, _, _, h⟩ | h
      · rw [hsymbol] at h; cases h
      · rw [hbody] at h; cases h
      all_goals rw [hsymbol] at h; cases h
    simp [hnone, Pragma.function?, hbody]

theorem Declares.interfaces_directive (walker : String)
    (hdefined : ix'.isDefined (.walkerInterface walker) = true) : ix'.isDefined (.walker walker) = true := by
  refine Index.isDefined_of_addAll hbuckets ?_
  rw [Index.isDefined, Index.definitionsOf_of_addAll hbuckets, Bool.not_eq_true',
    List.isEmpty_eq_false_iff_exists_mem] at hdefined
  obtain ⟨d, hd⟩ := hdefined
  rcases List.mem_append.1 hd with hd | hd
  · refine h.interfaces walker ?_
    rw [Index.isDefined, Bool.not_eq_true', List.isEmpty_eq_false_iff_exists_mem]
    exact ⟨d, hd⟩
  · obtain ⟨hd, hsymbol⟩ := List.mem_filter.1 hd
    have hsymbol := of_decide_eq_true hsymbol
    rcases Pragma.definition_cases hd with ⟨_, _, h⟩ | ⟨_, _, h⟩ | ⟨name, _, hbody, h⟩ | h
    · rw [hsymbol] at h; cases h
    · rw [hsymbol] at h; cases h
    · rw [hbody] at hjudged
      obtain rfl : walker = name.text := congrArg Symbol.name (hsymbol.symm.trans h)
      exact hjudged.symm
    · rw [hsymbol] at h; cases h

omit hbuckets in
/-- The function goes to the walker that the directives before it give. -/
theorem Declares.resolved_directive (front : List Pragma) (q : Pragma) (rest : List Pragma)
    (decl : FunctionDecl) (heq : ps ++ [p] = front ++ q :: rest) (hbody : q.body = .function decl) :
    decl.walkerName = resolvedWalker front decl.walker? := by
  rcases List.eq_nil_or_concat rest with rfl | ⟨init, last, rfl⟩
  · obtain ⟨rfl, hq⟩ := List.append_inj' heq rfl
    cases hq
    rw [hbody] at hjudged
    rw [hjudged.1]
    cases hwalker : decl.walker? with
    | some walker => simp only [PragmaBody.functionWalker, hwalker, resolvedWalker, h.isDefined_walker,
        decide_eq_true_eq]
    | none =>
      rw [resolvedWalker, ← h.settings, PragmaBody.functionWalker, hwalker]
      cases ix.settings.defaultWalker <;> rfl
  · rw [List.concat_eq_append, ← List.cons_append, ← List.append_assoc] at heq
    exact h.resolved front q init decl (List.append_inj' heq rfl).1 hbody

theorem Declares.directive
    (hsettings : ix'.settings = p.body.set (fun walker => ix.isDefined (.walker walker)) ix.settings) :
    Declares ix' (ps ++ [p]) where
  settings := by
    rw [hsettings, settingsOf_concat, h.settings]
    exact congrArg (p.body.set · _) (funext h.isDefined_walker)
  walkers := h.walkers_directive hbuckets hjudged
  functions := h.functions_directive hbuckets hjudged
  interfaces := h.interfaces_directive hbuckets hjudged
  resolved := h.resolved_directive hjudged
  named q hq ds hds := by
    rcases List.mem_append.1 hq with hq | hq
    · exact h.named q hq ds hds
    · obtain rfl := List.mem_singleton.1 hq
      unfold Pragma.walkers? at hds
      split at hds
      · next names declared hbody =>
        cases hds
        rw [hbody] at hjudged
        simpa using hjudged.1
      · cases hds

end

end

theorem settings_readName (line : Line) (rule? : Option String) (ix : Index) :
    (BlockName.read line rule? ix).index.settings = ix.settings := by
  unfold BlockName.read
  dsimp only
  split <;> rfl

theorem settings_readToken (line : Line) (name operator rest : Slice) (ix : Index) :
    (TokenDef.read line name operator rest ix).index.settings = ix.settings := by
  unfold TokenDef.read
  split
  · rfl
  · dsimp only
    split
    · exact TokenDef.settings_register _ _
    · rfl

theorem settings_readPragma (line : Line) (mark name parameters : Slice) (ix : Index) :
    (Pragma.read line mark name parameters ix).index.settings =
      (Pragma.read line mark name parameters ix).node.body.set
        (fun walker => ix.isDefined (.walker walker)) ix.settings :=
  (settings_enterAll _ _).trans (PragmaBody.sets_readBody line name parameters ix).settings

/-- A line that is read is one more directive, or changes nothing that directives tell. -/
theorem Declares.read {line : Line} {ix : Index} {ps : List Pragma} {r : Reading Node}
    (hr : LineReading line ix r) (h : Declares ix ps) : Declares r.index (ps ++ r.node.directives) := by
  have hbuckets := hr.registers.buckets
  have hother : r.node.directives = [] → r.index.settings = ix.settings →
      Declares r.index (ps ++ r.node.directives) := by
    intro hnone hsettings
    rw [hnone, List.append_nil]
    exact h.sameOf hsettings hbuckets fun d hd => Node.not_declared_of_definition hnone hd
  cases hr with
  | name rule? => exact hother rfl (settings_readName _ _ _)
  | shape shape hshape =>
    cases shape with
    | comment => exact hother rfl rfl
    | token name operator rest => exact hother rfl (settings_readToken _ _ _ _ _)
    | rule name alias? operator rest => exact hother rfl (RuleDef.settings_register _ _)
    | pragma mark name parameters =>
      have hsettings := settings_readPragma line mark name parameters ix
      by_cases hdirective : (Pragma.read line mark name parameters ix).node.isDirective = true
      · rw [Node.read, Reading.map, Node.directives, if_pos hdirective]
        exact h.directive hbuckets (PragmaBody.sets_readBody line name parameters ix).judged hsettings
      · refine hother (if_neg hdirective) (hsettings.trans ?_)
        unfold Pragma.isDirective at hdirective
        split at hdirective
        · next hbody => rw [hbody]; rfl
        · exact absurd rfl hdirective

theorem Declares.block {ix : Index} {ps : List Pragma} (b : CodeBlock) (h : Declares ix ps) :
    Declares (ix.enterAll b.definitions) ps :=
  h.sameOf (settings_enterAll _ _) (Index.buckets_enterAll ..)
    fun d hd => by rw [CodeBlock.kind_of_definition hd]; rfl

/-- What a document says of its settings, walkers and functions. -/
structure Document.Declared (d : Document) : Prop where
  settings : d.index.settings = settingsOf d.directives
  walkersDeclared : d.index.settings.walkersDeclared = true ↔
    ∃ name, d.index.isDefined (.walker name) = true
  defaultWalker : d.index.settings.walkersDeclared = true ↔
    d.index.settings.defaultWalker.isSome = true
  walkers : ∀ name, d.index.definitionsOf (.walker name) =
    (walkersOf d.directives).filter (·.symbol = .walker name)
  resolved : ∀ front p rest decl, d.directives = front ++ p :: rest → p.body = .function decl →
    decl.walkerName = resolvedWalker front decl.walker?
  functions : ∀ key, d.index.definitionsOf (.function key) = (functionOf? d.directives key).toList
  functionWalkers : ∀ key, ∀ f ∈ d.index.definitionsOf (.function key),
    ∃ rule walker function signature, f.detail = .function rule walker function signature ∧
      key = functionKey rule walker function ∧
      d.index.isDefined (.walker walker) = true
  interfaceWalkers : ∀ walker, d.index.isDefined (.walkerInterface walker) = true →
    d.index.isDefined (.walker walker) = true

theorem Declares.functionWalkers {ix : Index} {ps : List Pragma} (h : Declares ix ps) (key : String)
    (f : Definition) (hf : f ∈ ix.definitionsOf (.function key)) :
    ∃ rule walker function signature, f.detail = .function rule walker function signature ∧
      key = functionKey rule walker function ∧ ix.isDefined (.walker walker) = true := by
  rw [h.functions, Option.mem_toList] at hf
  obtain ⟨front, p, rest, decl, walker, heq, hbody, hwalker, hkey, hdetail⟩ := exists_of_functionOf? hf
  have hmem := mem_of_resolvedWalker ((h.resolved front p rest decl heq hbody).symm.trans hwalker)
  refine ⟨_, walker, _, _, hdetail, hkey, ?_⟩
  rw [h.isDefined_walker, heq, walkerNames, walkersOf_append hmem]
  exact decide_eq_true hmem

theorem declares_analyze (limit : Nat) (text : String) :
    Declares (analyze limit text).index (analyze limit text).directives := by
  obtain ⟨ix, hindex, hdeclares⟩ := Analysis.gathered_analyze blindToBlocks_directives
    (Q := Declares) declares_nil (fun _ _ _ _ hr h => h.read hr) (fun _ _ b h => h.block b) limit text
  rw [hindex]
  exact hdeclares.same rfl fun s _ => Index.definitionsOf_congr rfl s

/-- The settings, the walkers and the functions of every document are those that its directives tell. -/
theorem declared_analyze (limit : Nat) (text : String) : (analyze limit text).Declared := by
  have h := declares_analyze limit text
  constructor
  case settings => exact h.settings
  case walkersDeclared =>
    rw [h.settings, ← exists_walkerName_iff h.named]
    simp [h.isDefined_walker]
  case defaultWalker => rw [h.settings, isSome_defaultWalker h.named]
  case walkers => exact h.walkers
  case resolved => exact h.resolved
  case functions => exact h.functions
  case functionWalkers => exact h.functionWalkers
  case interfaceWalkers => exact h.interfaces

end LineGrammar
