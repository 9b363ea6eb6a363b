import LineGrammar.Proofs.Obligations
import LineGrammar.Proofs.RenamedIndex

/-! Nodes under a renaming. What a node refers to, defines and owes is followed, each in its order, by what
the renamed node refers to, defines and owes. -/

namespace LineGrammar

namespace Renaming

variable {ρ : Renaming}

abbrev SendsReferences (ρ : Renaming) : List (Lexeme × Symbol) → List (Lexeme × Symbol) → Prop :=
  List.Forall₂ fun ref ref' => ρ.Sends ref.2 ref'.2

abbrev SendsUses (ρ : Renaming) : List Pending → List Pending → Prop :=
  List.Forall₂ fun use use' => ρ.Sends use.symbol use'.symbol

structure SendsNode (ρ : Renaming) (n n' : Node) : Prop where
  references : ρ.SendsReferences n.references n'.references
  definitions : ρ.SendsDefinitions n.definitions n'.definitions
  obligations : ∀ {log log' : List Definition}, ρ.SendsDefinitions log log' →
    ρ.SendsUses (n.obligations log) (n'.obligations log')

/-- A name that stands for a symbol of the given kind. -/
def SendsLexeme (ρ : Renaming) (kind : SymbolKind) (l l' : Lexeme) : Prop :=
  ρ.Sends ⟨kind, l.text⟩ ⟨kind, l'.text⟩

theorem forall₂_toList {α β : Type} {R : α → β → Prop} {a? : Option α} {b? : Option β}
    (h : Option.Rel R a? b?) : List.Forall₂ R a?.toList b?.toList := by
  cases h with
  | none => exact .nil
  | some h => exact .cons h .nil

theorem forall₂_map {α β γ δ : Type} {R : α → β → Prop} {S : γ → δ → Prop} {f : α → γ} {g : β → δ}
    {as : List α} {bs : List β} (h : List.Forall₂ R as bs) (hfg : ∀ a b, R a b → S (f a) (g b)) :
    List.Forall₂ S (as.map f) (bs.map g) :=
  List.rel_map (R := R) (fun _ _ => hfg _ _) h

theorem forall₂_map_same {α γ δ : Type} {S : γ → δ → Prop} {f : α → γ} {g : α → δ} {as : List α}
    (h : ∀ a ∈ as, S (f a) (g a)) : List.Forall₂ S (as.map f) (as.map g) := by
  rw [List.forall₂_map_left_iff, List.forall₂_map_right_iff, List.forall₂_same]
  exact h

theorem rel_map_option {α β γ δ : Type} {R : α → β → Prop} {S : γ → δ → Prop} {f : α → γ} {g : β → δ}
    {a? : Option α} {b? : Option β} (h : Option.Rel R a? b?) (hfg : ∀ a b, R a b → S (f a) (g b)) :
    Option.Rel S (a?.map f) (b?.map g) := by
  cases h with
  | none => exact .none
  | some h => exact .some (hfg _ _ h)

theorem exists_of_rel_some {α β : Type} {R : α → β → Prop} {x : α} {y? : Option β}
    (h : Option.Rel R (some x) y?) : ∃ y, y? = some y ∧ R x y := by
  cases h with
  | some h => exact ⟨_, rfl, h⟩

theorem isSome_of_rel {α β : Type} {R : α → β → Prop} {x? : Option α} {y? : Option β}
    (h : Option.Rel R x? y?) : y?.isSome = x?.isSome := by
  cases h <;> rfl

theorem eq_none_of_rel {α β : Type} {R : α → β → Prop} {x? : Option α} {y? : Option β}
    (h : Option.Rel R x? y?) (hx : x? = none) : y? = none := by
  subst hx
  cases h
  rfl

theorem rel_of_none {α β : Type} {R S : α → β → Prop} {x? : Option α} {y? : Option β}
    (h : Option.Rel R x? y?) (hx : x? = none) : Option.Rel S x? y? := by
  rw [eq_none_of_rel h hx, hx]
  exact .none

structure SendsTokenDef (ρ : Renaming) (t t' : TokenDef) : Prop where
  name : ρ.SendsLexeme .token t.name t'.name
  literal : t'.literal?.isSome = t.literal?.isSome
  mode : Option.Rel (ρ.SendsLexeme .lexerMode) t.lexerMode? t'.lexerMode?
  terminated : t'.terminated = t.terminated

theorem SendsTokenDef.node {t t' : TokenDef} (h : ρ.SendsTokenDef t t') :
    ρ.SendsNode (.token t) (.token t') where
  references := .cons h.name (forall₂_map (forall₂_toList h.mode) fun _ _ hmode => hmode)
  definitions := by
    have hliteral := h.literal
    simp only [Node.definitions, TokenDef.definitions, h.terminated]
    cases hold : t.literal? with
    | none =>
      rw [hold, Option.isSome_none, Option.isSome_eq_false_iff, Option.isNone_iff_eq_none] at hliteral
      rw [hliteral]
      exact .nil
    | some literal =>
      rw [hold, Option.isSome_some, Option.isSome_iff_exists] at hliteral
      obtain ⟨literal', hliteral⟩ := hliteral
      rw [hliteral]
      dsimp only
      split
      · exact .cons ⟨h.name, .token _ _⟩ .nil
      · exact .nil
  obligations := by
    intro log log' _
    simp only [Node.obligations, TokenDef.obligations, h.literal, h.terminated]
    split
    · exact forall₂_map (forall₂_toList h.mode) fun _ _ hmode => hmode
    · exact .nil

/-- An element of a body; its alias plays no part. -/
def SendsElement (ρ : Renaming) (e e' : RuleElement) : Prop := Option.Rel ρ.Sends e.symbol? e'.symbol?

structure SendsRuleDef (ρ : Renaming) (r r' : RuleDef) : Prop where
  body : ρ.SendsBodyName r.name.text r'.name.text r.internalName r'.internalName
  elements : List.Forall₂ ρ.SendsElement r.elements r'.elements
  terminated : r'.terminated = r.terminated

theorem SendsRuleDef.owedBlock? {r r' : RuleDef} (h : ρ.SendsRuleDef r r') {log log' : List Definition}
    (hlog : ρ.SendsDefinitions log log') {d d' : Definition} (hd : ρ.SendsDefinition d d') :
    Option.Rel (fun use use' : Pending => ρ.Sends use.symbol use'.symbol) (r.owedBlock? log d)
      (r'.owedBlock? log' d') := by
  obtain ⟨symbol, span, fullSpan, detail⟩ := d
  obtain ⟨symbol', span', fullSpan', detail'⟩ := d'
  simp only [RuleDef.owedBlock?]
  cases hd.detail with
  | function signature signature' hrule hwalker hfunction hplain =>
    dsimp only
    rw [hlog.hasInterface_eq hwalker]
    simp only [← hrule.inj h.body.name]
    split
    · next howed =>
      obtain rfl := of_decide_eq_true (Bool.and_eq_true_iff.1 howed).1
      rw [hfunction.eq]
      exact .some (.body h.body hwalker hplain)
    · exact .none
  | _ => exact .none

theorem SendsRuleDef.node {r r' : RuleDef} (h : ρ.SendsRuleDef r r') :
    ρ.SendsNode (.rule r) (.rule r') where
  references := by
    refine .cons (h.body.name.sends rfl) ?_
    refine List.rel_filterMap (R := ρ.SendsElement) (fun _ _ he => ?_) h.elements
    exact rel_map_option he fun _ _ hs => hs
  definitions := by
    refine .cons ⟨h.body.name.sends rfl, ?_⟩ .nil
    simp only [RuleDef.definition, h.terminated]
    exact .rule h.body _
  obligations := by
    intro log log' hlog
    simp only [Node.obligations, RuleDef.obligations, RuleDef.owedElements_eq, h.terminated]
    refine List.rel_append ?_ ?_
    · refine List.rel_filterMap (R := ρ.SendsElement) (fun _ _ he => ?_) h.elements
      exact rel_map_option he fun _ _ hs => hs
    · split
      · exact .nil
      · exact List.rel_filterMap (R := ρ.SendsDefinition) (fun _ _ hd => h.owedBlock? hlog hd) hlog

/-- The blocks for the bodies of a rule. -/
theorem SendsDefinitions.blocksOf {log log' : List Definition} (hlog : ρ.SendsDefinitions log log')
    {rule rule' walker walker' x y : String} (hrule : ρ.SendsPart .rule rule rule')
    (hwalker : ρ.SendsPart .walker walker walker') (h : ρ.SendsName (.function rule walker) x y)
    (hplain : IsPlain x) {span span' : Span} :
    ρ.SendsUses
      ((log.filter fun d => d.symbol = .rule rule && d.expectsBlocks).map fun d =>
        ⟨.codeBlock (blockKey (some d.internalName) walker x), span⟩)
      ((log'.filter fun d => d.symbol = .rule rule' && d.expectsBlocks).map fun d =>
        ⟨.codeBlock (blockKey (some d.internalName) walker' y), span'⟩) := by
  rw [← List.filterMap_eq_map, ← List.filterMap_eq_map, List.filterMap_filter, List.filterMap_filter]
  refine List.rel_filterMap (R := ρ.SendsDefinition) (fun d d' hd => ?_) hlog
  have hsame : d.symbol = .rule rule ↔ d'.symbol = .rule rule' :=
    hd.symbol.inj (hrule.sends rfl) (by simp [Symbol.rule])
  have hguard : (decide (d'.symbol = .rule rule') && d'.expectsBlocks) =
      (decide (d.symbol = .rule rule) && d.expectsBlocks) := by
    simp only [hd.expectsBlocks_eq, hsame]
  rw [hguard]
  split
  · next hexpects =>
    obtain ⟨hsymbol, hexpects⟩ := Bool.and_eq_true_iff.1 hexpects
    obtain ⟨owner, owner', howner, -, hbody⟩ := hd.body hexpects
    obtain rfl : owner = rule := congrArg Symbol.name (howner.symm.trans (of_decide_eq_true hsymbol))
    rw [Function.comp_apply, Function.comp_apply, h.eq]
    exact .some (.body hbody hwalker hplain)
  · exact .none

/-- A function that has a walker. -/
structure SendsFunctionDecl (ρ : Renaming) (f f' : FunctionDecl) : Prop where
  rule : ρ.SendsPart .rule f.rule.text f'.rule.text
  walker : Option.Rel (ρ.SendsLexeme .walker) f.walker? f'.walker?
  named : ∃ x y, f.walkerName = some x ∧ f'.walkerName = some y ∧ ρ.SendsPart .walker x y ∧
    ρ.SendsName (.function f.rule.text x) f.function.text f'.function.text
  plain : IsPlain f.function.text
  declared : f'.declared = f.declared

theorem SendsFunctionDecl.node {f f' : FunctionDecl} (h : ρ.SendsFunctionDecl f f') {p p' : Pragma}
    (hp : p.body = .function f) (hp' : p'.body = .function f') :
    ρ.SendsNode (.pragma p) (.pragma p') := by
  obtain ⟨x, y, hx, hy, hwalker, hfunction⟩ := h.named
  have hrule : ρ.Sends (.rule f.rule.text) (.rule f'.rule.text) := h.rule.sends rfl
  have hkey := Sends.function h.rule hwalker hfunction
  constructor
  case references =>
    have hwalkers : ρ.SendsReferences (f.walker?.toList.map fun l => (l, .walker l.text))
        (f'.walker?.toList.map fun l => (l, .walker l.text)) :=
      forall₂_map (forall₂_toList h.walker) fun _ _ hwalker => hwalker
    simp only [Node.references, Pragma.references, hp, hp', FunctionDecl.references, FunctionDecl.key?, hx,
      hy]
    have hrules : ρ.SendsReferences [(f.rule, .rule f.rule.text)] [(f'.rule, .rule f'.rule.text)] :=
      .cons hrule .nil
    exact List.rel_append (List.rel_append hrules hwalkers) (.cons hkey .nil)
  case definitions =>
    simp only [Node.definitions, Pragma.definitions, hp, hp', h.declared, FunctionDecl.key?, hx, hy]
    cases f.declared with
    | false => exact .nil
    | true => exact .cons ⟨hkey, .function _ _ h.rule hwalker hfunction h.plain⟩ .nil
  case obligations =>
    intro log log' hlog
    simp only [Node.obligations, PragmaBody.obligations, hp, hp', FunctionDecl.obligations, h.declared, hx,
      hy]
    cases f.declared with
    | false => exact .nil
    | true =>
      refine .cons hrule ?_
      rw [hlog.hasInterface_eq hwalker]
      split
      · exact .nil
      · exact hlog.blocksOf h.rule hwalker hfunction h.plain

end Renaming

end LineGrammar
