import LineGrammar.Proofs.Recast
import LineGrammar.Proofs.Registration
import LineGrammar.Reading.BlockName
import LineGrammar.Reading.Rule
import LineGrammar.Reading.Token

/-! What the nodes of a recast document define, wait for and report: the same as before, with the other
places. -/

namespace LineGrammar

variable (ρ : Recast)

namespace RuleElement

theorem symbol?_recast (e : RuleElement) : (e.recast ρ).symbol? = e.symbol? := rfl

theorem recast_anchorProblems (anchored : Bool) (e : RuleElement) :
    (e.anchorProblems anchored).map (Diagnostic.recast ρ) = (e.recast ρ).anchorProblems anchored := by
  obtain ⟨anchor?, name, alias?⟩ := e
  cases anchor? <;> cases anchored <;> rfl

theorem recast_nameProblems (e : RuleElement) :
    e.nameProblems.map (Diagnostic.recast ρ) = (e.recast ρ).nameProblems := by
  obtain ⟨anchor?, name, alias?⟩ := e
  unfold nameProblems
  rw [symbol?_recast]
  split
  · rfl
  · cases alias? with
    | none => rfl
    | some l =>
      dsimp only [recast, Option.map_some]
      rw [Lexeme.text_recast]
      split <;> split <;> rfl

theorem recast_problems (anchored : Bool) (es : List RuleElement) :
    (problems anchored es).map (Diagnostic.recast ρ) = problems anchored (es.map (recast ρ)) := by
  induction es generalizing anchored with
  | nil => rfl
  | cons e rest ih =>
    have hsome : (e.recast ρ).anchor?.isSome = e.anchor?.isSome := Option.isSome_map
    rw [List.map_cons, problems, problems, List.map_append, List.map_append,
      recast_anchorProblems, recast_nameProblems, ih, hsome]

end RuleElement

namespace RuleDef

theorem recast_mentionElement (r : RuleDef) (ix : Index) (e : RuleElement) :
    (r.mentionElement ix e).recast ρ = (r.recast ρ).mentionElement (ix.recast ρ) (e.recast ρ) := by
  unfold mentionElement
  rw [RuleElement.symbol?_recast]
  split
  · rfl
  · next symbol _ =>
    by_cases h : symbol = .rule r.name.text
    · rw [if_pos h]
      exact (if_pos h).symm
    · rw [if_neg h, Index.recast_mention]
      exact (if_neg h).symm

theorem recast_awaitBlock (r : RuleDef) (ix : Index) (d : Definition) :
    (r.awaitBlock ix d).recast ρ = (r.recast ρ).awaitBlock (ix.recast ρ) (d.recast ρ) := by
  obtain ⟨symbol, span, fullSpan, detail⟩ := d
  cases detail with
  | function rule walker function signature =>
    dsimp only [awaitBlock, Definition.recast, Detail.recast]
    rw [Index.interfaceOf_recast]
    split
    · rfl
    · exact Index.recast_await ρ _ _ ix
  | _ => rfl

theorem definition_recast (r : RuleDef) : (r.recast ρ).definition = r.definition.recast ρ := rfl

theorem recast_register (r : RuleDef) (ix : Index) :
    (r.register ix).recast ρ = (r.recast ρ).register (ix.recast ρ) := by
  have helements : ((r.elements.foldl r.mentionElement ix).enter r.definition).recast ρ =
      ((r.recast ρ).elements.foldl (r.recast ρ).mentionElement (ix.recast ρ)).enter
        (r.recast ρ).definition := by
    rw [Index.recast_enter, definition_recast, Index.recast_foldl (r.recast_mentionElement ρ)]
    rfl
  unfold register
  dsimp only
  rw [← helements]
  have hterm : (r.recast ρ).terminated = r.terminated := rfl
  rw [hterm]
  split
  · rfl
  · rw [Index.functionsOfRule_recast, Index.recast_foldl (r.recast_awaitBlock ρ)]
    rfl

theorem recast_sequel (r : RuleDef) : r.sequel.recast ρ = (r.recast ρ).sequel := by
  unfold sequel
  have hterm : (r.recast ρ).terminated = r.terminated := rfl
  rw [hterm]
  split <;> rfl

end RuleDef

namespace TokenDef

theorem definitions_recast (t : TokenDef) :
    (t.recast ρ).definitions = t.definitions.map (Definition.recast ρ) := by
  obtain ⟨name, operator, literal?, bang?, mode?, terminated, span⟩ := t
  cases literal? <;> cases terminated <;> rfl

theorem lexerMode?_recast (t : TokenDef) :
    (t.recast ρ).lexerMode? = t.lexerMode?.map (Lexeme.recast ρ) := by
  obtain ⟨name, operator, literal?, bang?, mode?, terminated, span⟩ := t
  cases mode? with
  | none => rfl
  | some mode =>
    by_cases h : mode.text = currentMode <;> simp [lexerMode?, recast, Option.filter, h]

theorem recast_register (t : TokenDef) (ix : Index) :
    (t.register ix).recast ρ = (t.recast ρ).register (ix.recast ρ) := by
  unfold register
  rw [lexerMode?_recast, definitions_recast]
  cases t.lexerMode? with
  | none => exact Index.recast_enterAll ρ ix _
  | some mode =>
    dsimp only [Option.map_some]
    rw [Index.recast_mention, Index.recast_enterAll]
    rfl

end TokenDef

theorem FunctionDecl.key?_recast (f : FunctionDecl) : (f.recast ρ).key? = f.key? := rfl

namespace PragmaBody

theorem recast_checkWalker (ix : Index) (walker : Lexeme) :
    (checkWalker ix walker).map (Diagnostic.recast ρ) = checkWalker (ix.recast ρ) (walker.recast ρ) := by
  unfold checkWalker
  rw [Index.isDefined_recast, Lexeme.text_recast]
  split <;> rfl

theorem recast_checkAssociative (ix : Index) (token : Lexeme) :
    (checkAssociative ix token).map (Diagnostic.recast ρ) =
      checkAssociative (ix.recast ρ) (token.recast ρ) := by
  unfold checkAssociative
  rw [Index.isDefined_recast, Lexeme.text_recast]
  split
  · rfl
  · split <;> rfl

theorem recast_awaitAssociative (ix : Index) (token : Lexeme) :
    (awaitAssociative ix token).recast ρ = awaitAssociative (ix.recast ρ) (token.recast ρ) := by
  unfold awaitAssociative
  rw [Lexeme.text_recast]
  split
  · exact Index.recast_mention ρ _ _ ix
  · rfl

theorem functionWalker_recast (ix : Index) (decl : FunctionDecl) :
    functionWalker (ix.recast ρ) (decl.recast ρ) =
      Prod.map id (List.map (Diagnostic.recast ρ)) (functionWalker ix decl) := by
  unfold functionWalker
  rw [Index.settings_recast]
  dsimp only [FunctionDecl.recast]
  cases decl.walker? with
  | none =>
    dsimp only [Option.map_none]
    split <;> rfl
  | some walker =>
    dsimp only [Option.map_some]
    rw [Index.isDefined_recast, Lexeme.text_recast, ← recast_checkWalker]
    rfl

theorem recast_awaitBlock (walker : String) (function : Lexeme) (ix : Index) (d : Definition) :
    (awaitBlock walker function ix d).recast ρ =
      awaitBlock walker (function.recast ρ) (ix.recast ρ) (d.recast ρ) := by
  unfold awaitBlock
  rw [Definition.expectsBlocks_recast, Definition.internalName_recast, Lexeme.text_recast]
  split
  · exact Index.recast_await ρ _ _ ix
  · rfl

theorem recast_registerFunction (decl : FunctionDecl) (walker : String) (ix : Index) :
    (registerFunction decl walker ix).recast ρ =
      registerFunction (decl.recast ρ) walker (ix.recast ρ) := by
  have hmention := Index.recast_mention ρ (.rule decl.rule.text) decl.rule.span ix
  unfold registerFunction
  dsimp only [FunctionDecl.recast]
  rw [Lexeme.text_recast, Lexeme.span_recast, ← hmention, Index.interfaceOf_recast,
    Index.definitionsOf_recast]
  split
  · rfl
  · exact Index.recast_foldl (recast_awaitBlock ρ walker decl.function) _ _

theorem recast_functionReading (ix : Index) (decl : FunctionDecl) (problems : List Diagnostic) :
    (functionReading ix decl problems).recast ρ (recast ρ) =
      functionReading (ix.recast ρ) (decl.recast ρ) (problems.map (Diagnostic.recast ρ)) := by
  unfold functionReading
  rw [FunctionDecl.key?_recast]
  have hwalker : (decl.recast ρ).walkerName = decl.walkerName := rfl
  rw [hwalker]
  split
  · next walker key _ _ =>
    rw [Index.isDefined_recast]
    split
    · rw [Reading.recast, List.map_append]
      rfl
    · rw [Reading.recast, recast_registerFunction]
      rfl
  · rfl

end PragmaBody

namespace BlockName

theorem functionKey?_recast (n : BlockName) :
    (n.recast ρ).functionKey? = n.functionKey?.map fun (l, key) => (l.recast ρ, key) := by
  obtain ⟨marker, walker?, function?, rule?, span⟩ := n
  cases walker? <;> cases function? <;> cases rule? <;> rfl

theorem recast_problems (n : BlockName) (ix : Index) :
    (n.problems ix).map (Diagnostic.recast ρ) = (n.recast ρ).problems (ix.recast ρ) := by
  unfold problems
  rw [functionKey?_recast, List.map_append]
  congr 1
  · dsimp only [recast]
    cases n.walker? with
    | none => rfl
    | some walker =>
      dsimp only [Option.map_some]
      rw [Index.isDefined_recast, Lexeme.text_recast]
      split <;> rfl
  · cases n.functionKey? with
    | none => rfl
    | some found =>
      dsimp only [Option.map_some]
      rw [Index.isDefined_recast]
      split <;> rfl

theorem target_recast (n : BlockName) : (n.recast ρ).target = n.target := by
  obtain ⟨marker, walker?, function?, rule?, span⟩ := n
  cases walker? <;> cases function? <;> rfl

end BlockName

theorem CodeBlock.definitions_recast {b : CodeBlock} (hspan : (b.recast ρ).span = ρ.span b.span) :
    (b.recast ρ).definitions = b.definitions.map (Definition.recast ρ) := by
  unfold definitions
  rw [hspan]
  have hclosed : (b.recast ρ).isClosed = b.isClosed := Option.isSome_map
  rw [hclosed]
  dsimp only [recast]
  split
  · split <;> rfl
  · rfl

theorem CodeBlock.symbols_recast (b : CodeBlock) :
    (b.recast ρ).definitions.map Definition.symbol = b.definitions.map Definition.symbol := by
  obtain ⟨opening, closing, name, walker, body, isInline, external⟩ := b
  cases name <;> cases external <;> cases closing <;> rfl

theorem Pragma.symbols_recast (p : Pragma) :
    (p.recast ρ).definitions.map Definition.symbol = p.definitions.map Definition.symbol := by
  obtain ⟨mark, name, parameters, keyword?, body, span⟩ := p
  cases body with
  | walkers walkers declared =>
    cases declared with
    | true => simp [recast, PragmaBody.recast, definitions]
    | false => rfl
  | members walker opening block? =>
    cases block? with
    | some b => exact b.symbols_recast ρ
    | none => rfl
  | function decl =>
    have hdeclared : (decl.recast ρ).declared = decl.declared := rfl
    have hwalker : (decl.recast ρ).walkerName = decl.walkerName := rfl
    simp only [recast, PragmaBody.recast, definitions, FunctionDecl.key?_recast, hdeclared, hwalker]
    cases decl.declared <;> cases decl.key? <;> cases decl.walkerName <;> rfl
  | walkerInterface walker typeName declared => cases declared <;> rfl
  | _ => rfl

/-- A node defines the same symbols, whatever becomes of its block. -/
theorem Node.symbols_recast (n : Node) :
    (n.recast ρ).definitions.map Definition.symbol = n.definitions.map Definition.symbol := by
  cases n with
  | pragma p => exact p.symbols_recast ρ
  | token t =>
    simp only [recast, definitions, TokenDef.definitions_recast, List.map_map]
    rfl
  | block b => exact b.symbols_recast ρ
  | comment _ | rule _ | blockName _ => rfl

section
variable (above : List Definition)

theorem hasInterface_recast (walker : String) :
    hasInterface (above.map (Definition.recast ρ)) walker = hasInterface above walker := by
  rw [hasInterface, List.any_map]
  rfl

theorem RuleDef.obligations_recast (r : RuleDef) :
    (r.recast ρ).obligations (above.map (Definition.recast ρ)) =
      (r.obligations above).map (Pending.recast ρ) := by
  have helements : (r.recast ρ).owedElements = r.owedElements.map (Pending.recast ρ) := by
    simp only [owedElements_eq, recast, List.filterMap_map, List.map_filterMap, Function.comp_def,
      RuleElement.symbol?_recast, Option.map_map]
    rfl
  have hblock : ∀ d, (r.recast ρ).owedBlock? (above.map (Definition.recast ρ)) (d.recast ρ) =
      (r.owedBlock? above d).map (Pending.recast ρ) := by
    rintro ⟨symbol, span, fullSpan, detail⟩
    cases detail with
    | function rule walker function signature =>
      simp only [owedBlock?, Definition.recast, Detail.recast, hasInterface_recast, recast, Lexeme.text_recast]
      rw [apply_ite (Option.map (Pending.recast ρ))]
      rfl
    | _ => rfl
  have hblocks : (above.map (Definition.recast ρ)).filterMap
      ((r.recast ρ).owedBlock? (above.map (Definition.recast ρ))) =
        (above.filterMap (r.owedBlock? above)).map (Pending.recast ρ) := by
    rw [List.filterMap_map, List.map_filterMap]
    exact congrArg (above.filterMap ·) (funext hblock)
  have hterminated : (r.recast ρ).terminated = r.terminated := rfl
  rw [obligations, obligations, helements, hterminated, hblocks, List.map_append,
    apply_ite (List.map (Pending.recast ρ))]
  rfl

theorem FunctionDecl.obligations_recast (f : FunctionDecl) :
    (f.recast ρ).obligations (above.map (Definition.recast ρ)) =
      (f.obligations above).map (Pending.recast ρ) := by
  obtain ⟨rule, walker?, function, parameters, returnType, walkerName, declared⟩ := f
  cases declared with
  | false => rfl
  | true =>
    cases walkerName with
    | none => rfl
    | some walker =>
      simp only [obligations, recast, hasInterface_recast, List.map_cons]
      congr 1
      split
      · rfl
      · simp only [List.filter_map, List.map_map, Function.comp_def, Definition.symbol_recast,
          Definition.internalName_recast, Definition.expectsBlocks_recast]
        rfl

/-- A node owes the same uses, at their other places. -/
theorem Node.obligations_recast (n : Node) :
    (n.recast ρ).obligations (above.map (Definition.recast ρ)) =
      (n.obligations above).map (Pending.recast ρ) := by
  cases n with
  | rule r => exact r.obligations_recast ρ above
  | token t =>
    have hliteral : (t.recast ρ).literal?.isSome = t.literal?.isSome := Option.isSome_map
    have hterminated : (t.recast ρ).terminated = t.terminated := rfl
    simp only [obligations, recast, TokenDef.obligations, hliteral, hterminated, TokenDef.lexerMode?_recast]
    split
    · cases t.lexerMode? <;> rfl
    · rfl
  | pragma p =>
    obtain ⟨mark, name, parameters, keyword?, body, span⟩ := p
    cases body with
    | associativity a tokens =>
      simp [obligations, recast, Pragma.recast, PragmaBody.recast, PragmaBody.obligations,
        List.filter_map, Function.comp_def, Pending.recast]
    | function decl => exact decl.obligations_recast ρ above
    | _ => rfl
  | comment _ | block _ | blockName _ => rfl

end

end LineGrammar
