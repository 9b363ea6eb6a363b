import LineGrammar.Node

/-! What the nodes define, case by case. A definition of a node is taken apart once, into what the node is
like and what is recorded of it. -/

namespace LineGrammar

variable {d : Definition}

theorem CodeBlock.mem_definitions {b : CodeBlock} :
    d ∈ b.definitions ↔ ∃ name, b.name = some name ∧ b.external = none ∧ b.isClosed = true ∧
      d = ⟨.codeBlock name, b.opening.span, b.span, .plain⟩ := by
  unfold definitions
  split
  · next name hname hexternal => simp [hname, hexternal]
  · next hother =>
    constructor
    · intro h
      cases h
    · rintro ⟨name, hname, hexternal, -⟩
      exact (hother name hname hexternal).elim

theorem CodeBlock.kind_of_definition {b : CodeBlock} (h : d ∈ b.definitions) :
    d.symbol.kind = .codeBlock := by
  obtain ⟨name, -, -, -, rfl⟩ := mem_definitions.1 h
  rfl

theorem TokenDef.mem_definitions {t : TokenDef} :
    d ∈ t.definitions ↔ ∃ literal, t.literal? = some literal ∧ t.terminated = true ∧
      d = ⟨.token t.name.text, t.name.span, t.span, .token literal.text⟩ := by
  unfold definitions
  split
  · next literal hliteral => simp [hliteral]
  · next hnone => simp [hnone]

theorem TokenDef.kind_of_definition {t : TokenDef} (h : d ∈ t.definitions) :
    d.symbol.kind = .token := by
  obtain ⟨literal, -, -, rfl⟩ := mem_definitions.1 h
  rfl

/-- What a pragma defines, by its body. -/
inductive Pragma.Defines (p : Pragma) : Definition → Prop
  | walker {walkers : List Lexeme} {walker : Lexeme} (body : p.body = .walkers walkers true)
      (listed : walker ∈ walkers) : p.Defines ⟨.walker walker.text, walker.span, p.span, .plain⟩
  | function {decl : FunctionDecl} {key walker : String} (body : p.body = .function decl)
      (declared : decl.declared = true) (keyed : decl.key? = some key)
      (owned : decl.walkerName = some walker) :
      p.Defines ⟨.function key, decl.function.span, p.span,
        .function decl.rule.text walker decl.function.text decl.signature⟩
  | lexerMode {mode : Lexeme} (body : p.body = .lexerMode mode) :
      p.Defines ⟨.lexerMode mode.text, mode.span, p.span, .plain⟩
  | walkerInterface {walker typeName : Lexeme} (body : p.body = .walkerInterface walker typeName true) :
      p.Defines ⟨.walkerInterface walker.text, walker.span, p.span, .walkerInterface typeName.text⟩
  | block {walker : Lexeme} {opening : Option Lexeme} {b : CodeBlock} {d : Definition}
      (body : p.body = .members walker opening (some b)) (defined : d ∈ b.definitions) : p.Defines d

theorem Pragma.mem_definitions {p : Pragma} : d ∈ p.definitions ↔ p.Defines d := by
  constructor
  · intro h
    unfold definitions at h
    split at h
    case h_1 walkers hbody =>
      obtain ⟨walker, hwalker, rfl⟩ := List.mem_map.1 h
      exact .walker hbody hwalker
    case h_2 decl hbody =>
      split at h
      · next key walker hdeclared hkeyed howned =>
        rw [List.mem_singleton.1 h]
        exact .function hbody hdeclared hkeyed howned
      · cases h
    case h_3 mode hbody => rw [List.mem_singleton.1 h]; exact .lexerMode hbody
    case h_4 walker typeName hbody => rw [List.mem_singleton.1 h]; exact .walkerInterface hbody
    case h_5 walker opening b hbody => exact .block hbody h
    case h_6 => cases h
  · intro h
    unfold definitions
    cases h with
    | walker hbody hwalker => rw [hbody]; exact List.mem_map_of_mem hwalker
    | function hbody hdeclared hkeyed howned => simp [hbody, hdeclared, hkeyed, howned]
    | lexerMode hbody => simp [hbody]
    | walkerInterface hbody => simp [hbody]
    | block hbody hdefined => rw [hbody]; exact hdefined

end LineGrammar
