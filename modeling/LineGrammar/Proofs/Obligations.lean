import LineGrammar.Document

/-! What the lines of a document owe each other. A node owes a definition for every name that it
uses, and a rule body with actions owes a block for every function of its rule. What a node owes
depends on the definitions of the lines above it, and on nothing that the analysis remembers. -/

namespace LineGrammar

/-- Whether some definition above implements the walker from outside. -/
def hasInterface (above : List Definition) (walker : String) : Bool :=
  above.any fun d => d.symbol = .walkerInterface walker

namespace RuleDef

/-- Each token or rule that the body names, told apart by the casing of the name. -/
def owedElements (r : RuleDef) : List Pending :=
  r.elements.filterMap fun e =>
    if isTokenName e.name.text then some ⟨.token e.name.text, e.name.span⟩
    else if isRuleName e.name.text then some ⟨.rule e.name.text, e.name.span⟩
    else none

theorem owedElements_eq (r : RuleDef) :
    r.owedElements = r.elements.filterMap fun e => e.symbol?.map fun s => ⟨s, e.name.span⟩ := by
  unfold owedElements
  congr 1
  funext e
  unfold RuleElement.symbol? Symbol.ofElement?
  split
  · rfl
  · split <;> rfl

/-- The block for a function that is declared above for the rule. -/
def owedBlock? (r : RuleDef) (above : List Definition) (d : Definition) : Option Pending :=
  match d.detail with
  | .function rule walker function _ =>
    if rule = r.name.text && !hasInterface above walker then
      some ⟨.codeBlock (blockKey (some r.internalName) walker function), r.name.span⟩
    else none
  | _ => none

def obligations (above : List Definition) (r : RuleDef) : List Pending :=
  r.owedElements ++ if r.terminated then [] else above.filterMap (r.owedBlock? above)

end RuleDef

/-- Only a definition that counts owes its mode. -/
def TokenDef.obligations (t : TokenDef) : List Pending :=
  if t.literal?.isSome && t.terminated then
    t.lexerMode?.toList.map fun mode => ⟨.lexerMode mode.text, mode.span⟩
  else []

/-- The rule of a declared function, and a block for each body of the rule above. -/
def FunctionDecl.obligations (above : List Definition) (f : FunctionDecl) : List Pending :=
  match f.declared, f.walkerName with
  | true, some walker =>
    ⟨.rule f.rule.text, f.rule.span⟩ ::
      if hasInterface above walker then []
      else (above.filter fun d => d.symbol = .rule f.rule.text && d.expectsBlocks).map fun d =>
        ⟨.codeBlock (blockKey (some d.internalName) walker f.function.text), f.function.span⟩
  | _, _ => []

def PragmaBody.obligations (above : List Definition) : PragmaBody → List Pending
  | .associativity _ tokens =>
    (tokens.filter fun token => isTokenName token.text).map fun token =>
      ⟨.token token.text, token.span⟩
  | .function decl => decl.obligations above
  | .lexerInclude mode => [⟨.lexerMode mode.text, mode.span⟩]
  | .start rule => [⟨.rule rule.text, rule.span⟩]
  | _ => []

def Node.obligations (above : List Definition) : Node → List Pending
  | .rule r => r.obligations above
  | .token t => t.obligations
  | .pragma p => p.body.obligations above
  | _ => []

/-- The obligations of the nodes in order, each under the definitions of those before it. -/
def obligationsFrom (above : List Definition) : List Node → List Pending
  | [] => []
  | n :: rest => n.obligations above ++ obligationsFrom (above ++ n.definitions) rest

def Document.obligations (d : Document) : List Pending := obligationsFrom [] d.nodeList

theorem obligationsFrom_concat (above : List Definition) (nodes : List Node) (n : Node) :
    obligationsFrom above (nodes ++ [n]) =
      obligationsFrom above nodes ++ n.obligations (above ++ nodes.flatMap Node.definitions) := by
  induction nodes generalizing above with
  | nil => simp [obligationsFrom]
  | cons m rest ih => simp [obligationsFrom, ih]

/-- What is owed is owed by some node under the definitions of those before it. -/
theorem mem_obligationsFrom {above : List Definition} {nodes : List Node} {use : Pending} :
    use ∈ obligationsFrom above nodes ↔
      ∃ front n rest, nodes = front ++ n :: rest ∧
        use ∈ n.obligations (above ++ front.flatMap Node.definitions) := by
  induction nodes generalizing above with
  | nil => simp [obligationsFrom]
  | cons m nodes ih =>
    rw [obligationsFrom, List.mem_append, ih]
    constructor
    · rintro (huse | ⟨front, n, rest, rfl, huse⟩)
      · exact ⟨[], m, nodes, rfl, by simpa using huse⟩
      · exact ⟨m :: front, n, rest, rfl, by simpa using huse⟩
    · rintro ⟨front, n, rest, heq, huse⟩
      cases front with
      | nil =>
        obtain ⟨rfl, rfl⟩ := List.cons.inj heq
        exact .inl (by simpa using huse)
      | cons first front =>
        obtain ⟨rfl, rfl⟩ := List.cons.inj heq
        exact .inr ⟨front, n, rest, rfl, by simpa using huse⟩

theorem exists_of_mem_obligationsFrom {above : List Definition} {nodes : List Node} {use : Pending}
    (h : use ∈ obligationsFrom above nodes) : ∃ n ∈ nodes, ∃ ds, use ∈ n.obligations ds := by
  obtain ⟨front, n, rest, rfl, huse⟩ := mem_obligationsFrom.1 h
  exact ⟨n, by simp, _, huse⟩

/-- What a node owes is owed by the document. -/
theorem exists_obligations_subset {nodes : List Node} {n : Node} (h : n ∈ nodes)
    (above : List Definition) : ∃ ds, n.obligations ds ⊆ obligationsFrom above nodes := by
  obtain ⟨front, rest, rfl⟩ := List.append_of_mem h
  exact ⟨_, fun use huse => mem_obligationsFrom.2 ⟨front, n, rest, rfl, huse⟩⟩

end LineGrammar
