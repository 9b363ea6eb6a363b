import LineGrammar.Proofs.Gathering
import LineGrammar.Proofs.Keys
import Mathlib.Data.List.Nodup

/-! The names of rule bodies. The first body of a rule has the name of the rule, and the later ones are
numbered from one. So two bodies of one rule never share a name; bodies of different rules do if the number
of one of them is spelled out in the name of the other rule. -/

namespace LineGrammar

/-- The rule body that a node is. -/
def Node.rules : Node → List RuleDef
  | rule r => [r]
  | _ => []

def Document.rules (d : Document) : List RuleDef := d.nodeList.flatMap Node.rules

theorem blindToBlocks_rules : BlindToBlocks Node.rules := ⟨fun _ => rfl, fun _ _ _ _ _ => rfl⟩

def RuleDef.isOf (rule : String) (r : RuleDef) : Bool := r.name.text = rule

/-- Every body has the name for its place among the bodies of its rule. -/
def Numbered (rules : List RuleDef) : Prop :=
  ∀ front r rest, rules = front ++ r :: rest →
    r.internalName = bodyName r.name.text (front.countP (RuleDef.isOf r.name.text))

theorem Numbered.concat {rules : List RuleDef} (h : Numbered rules) {r : RuleDef}
    (hr : r.internalName = bodyName r.name.text (rules.countP (RuleDef.isOf r.name.text))) :
    Numbered (rules ++ [r]) := by
  intro front x rest heq
  rcases List.eq_nil_or_concat rest with rfl | ⟨init, last, rfl⟩
  · obtain ⟨rfl, hx⟩ := List.append_inj' heq rfl
    cases hx
    exact hr
  · rw [List.concat_eq_append, ← List.cons_append, ← List.append_assoc] at heq
    exact h front x init (List.append_inj' heq rfl).1

section
variable {rules : List RuleDef} (h : Numbered rules)
include h

/-- A rule that has a body has one with its own name. -/
theorem Numbered.exists_first {y : RuleDef} (hy : y ∈ rules) :
    ∃ first ∈ rules, first.internalName = y.name.text ∧ first.name.text = y.name.text := by
  obtain ⟨first, hfirst⟩ := Option.isSome_iff_exists.1
    (List.find?_isSome.2 ⟨y, hy, show RuleDef.isOf y.name.text y = true by simp [RuleDef.isOf]⟩)
  obtain ⟨hname, front, rest, heq, hnone⟩ := List.find?_eq_some_iff_append.1 hfirst
  have htext : first.name.text = y.name.text := by simpa [RuleDef.isOf] using hname
  have hcount : front.countP (RuleDef.isOf first.name.text) = 0 := by
    rw [List.countP_eq_zero, htext]
    exact fun x hx => by simpa using hnone x hx
  refine ⟨first, heq ▸ List.mem_append_right _ (List.mem_cons_self ..), ?_, htext⟩
  rw [h front first rest heq, hcount, htext]
  rfl

/-- Two bodies with one name belong to different rules, and one of them has the name of the other's rule. -/
theorem Numbered.clash {front middle rest : List RuleDef} {x y : RuleDef}
    (heq : rules = front ++ x :: (middle ++ y :: rest)) (hname : x.internalName = y.internalName) :
    x.name.text ≠ y.name.text ∧
      (x.internalName = y.name.text ∨ y.internalName = x.name.text) := by
  have hx := h front x _ heq
  have hy := h (front ++ x :: middle) y rest (by rw [heq]; simp)
  have hne : x.name.text ≠ y.name.text := by
    intro htext
    rw [hx, hy, htext] at hname
    have hcount := bodyName_injective _ hname
    simp [List.countP_append, RuleDef.isOf, htext] at hcount
  refine ⟨hne, ?_⟩
  rw [hx, hy] at hname ⊢
  exact (rule_eq_of_bodyName_eq hname).resolve_left hne

/-- No two bodies share a name unless one has the name of another rule. -/
theorem Numbered.nodup_iff :
    (rules.map RuleDef.internalName).Nodup ↔
      ∀ x ∈ rules, ∀ y ∈ rules, x.internalName = y.name.text → x.name.text = y.name.text := by
  constructor
  · intro hnodup x hx y hy hname
    obtain ⟨first, hfirst, hinternal, htext⟩ := h.exists_first hy
    rw [← htext, List.inj_on_of_nodup_map hnodup hx hfirst (hname.trans hinternal.symm)]
  · intro happart
    rw [List.Nodup, List.pairwise_map]
    refine List.pairwise_iff_forall_sublist.2 fun {x y} hsub hname => ?_
    obtain ⟨front, tail, rfl, hx, hy⟩ := List.cons_sublist_iff.1 hsub
    obtain ⟨left, right, rfl⟩ := List.append_of_mem hx
    obtain ⟨middle, rest, rfl⟩ := List.append_of_mem (List.singleton_sublist.1 hy)
    have heq : left ++ x :: right ++ (middle ++ y :: rest) =
        left ++ x :: ((right ++ middle) ++ y :: rest) := by simp
    obtain ⟨hne, hclash⟩ := h.clash heq hname
    rcases hclash with hclash | hclash
    · exact hne (happart x (by simp) y (by simp) hclash)
    · exact hne (happart y (by simp) x (by simp) hclash).symm

end

/-- The bodies are numbered, and the index has counted them. -/
structure Counted (ix : Index) (rules : List RuleDef) : Prop where
  count : ∀ rule, ix.ruleCount rule = rules.countP (RuleDef.isOf rule)
  numbered : Numbered rules
  plain : ∀ r ∈ rules, IsPlain r.name.text

theorem Pragma.kind_ne_rule_of_definition {p : Pragma} {d : Definition} (h : d ∈ p.definitions) :
    d.symbol.kind ≠ .rule := by
  cases Pragma.mem_definitions.1 h with
  | walker => simp [Symbol.walker]
  | function => simp [Symbol.function]
  | lexerMode => simp [Symbol.lexerMode]
  | walkerInterface => simp [Symbol.walkerInterface]
  | block _ hdefined => rw [CodeBlock.kind_of_definition hdefined]; simp

/-- Only a rule body defines a rule. -/
theorem Node.count_definitions_rule (n : Node) (rule : String) :
    n.definitions.countP (·.symbol = .rule rule) = n.rules.countP (RuleDef.isOf rule) := by
  have hnone : ∀ ds : List Definition, (∀ d ∈ ds, d.symbol.kind ≠ .rule) →
      ds.countP (·.symbol = .rule rule) = 0 := by
    intro ds hkind
    rw [List.countP_eq_zero]
    intro d hd hsymbol
    exact hkind d hd (by rw [of_decide_eq_true hsymbol]; rfl)
  cases n with
  | rule r => simp [Node.definitions, rules, RuleDef.definition, RuleDef.isOf, Symbol.rule, List.countP_cons]
  | pragma p => exact hnone _ fun d hd => Pragma.kind_ne_rule_of_definition hd
  | token t => exact hnone _ fun d hd => by rw [TokenDef.kind_of_definition hd]; simp
  | block b => exact hnone _ fun d hd => by rw [CodeBlock.kind_of_definition hd]; simp
  | comment text => rfl
  | blockName name => rfl

theorem Index.ruleCount_of_addAll {ix ix' : Index} {ds : List Definition}
    (h : ix'.buckets = addAll ds ix.buckets) (rule : String) :
    ix'.ruleCount rule = ix.ruleCount rule + ds.countP (·.symbol = .rule rule) := by
  rw [Index.ruleCount, Index.definitionsOf_of_addAll h, List.length_append, List.countP_eq_length_filter]
  rfl

/-- A rule body that is read takes the next name of its rule. -/
theorem LineReading.internalName {line : Line} {ix : Index} {r : Reading Node} (h : LineReading line ix r)
    {rule : RuleDef} (hrule : r.node = .rule rule) :
    rule.internalName = bodyName rule.name.text (ix.ruleCount rule.name.text) ∧
      IsPlain rule.name.text := by
  cases h with
  | shape shape hshape =>
    cases shape with
    | rule name alias? operator rest =>
      cases hrule
      obtain ⟨_, _, _, _, heq, hname, -⟩ := Shape.rule?_eq_some (Shape.rule?_of_of? hshape)
      cases heq
      refine ⟨Index.nextInternalName_eq _ _, ?_⟩
      change ':' ∉ (String.ofList name.chars).toList
      rw [String.toList_ofList]
      exact colon_not_mem_of_isRuleName hname
    | _ => cases hrule
  | name rule? => cases hrule

theorem Counted.read {line : Line} {ix : Index} {rules : List RuleDef} {r : Reading Node}
    (hr : LineReading line ix r) (h : Counted ix rules) : Counted r.index (rules ++ r.node.rules) where
  count rule := by
    rw [Index.ruleCount_of_addAll hr.registers.buckets, h.count, List.countP_append,
      Node.count_definitions_rule]
  numbered := by
    cases hnode : r.node with
    | rule x =>
      refine h.numbered.concat ?_
      rw [(hr.internalName hnode).1, h.count]
    | _ => simpa [Node.rules] using h.numbered
  plain x hx := by
    rcases List.mem_append.1 hx with hx | hx
    · exact h.plain x hx
    · cases hnode : r.node with
      | rule y =>
        rw [hnode, Node.rules, List.mem_singleton] at hx
        exact hx ▸ (hr.internalName hnode).2
      | _ => rw [hnode] at hx; cases hx

theorem Counted.block {ix : Index} {rules : List RuleDef} (b : CodeBlock) (h : Counted ix rules) :
    Counted (ix.enterAll b.definitions) rules where
  count rule := by
    have hnone := Node.count_definitions_rule (.block b) rule
    rw [Index.ruleCount_of_addAll (Index.buckets_enterAll ..), h.count]
    exact congrArg _ hnone
  numbered := h.numbered
  plain := h.plain

/-- How the bodies of a document are named, and when two of them share the keys of their blocks. -/
structure BodiesNamed (rules : List RuleDef) : Prop where
  numbered : Numbered rules
  distinct : (rules.map RuleDef.internalName).Nodup ↔
    ∀ x ∈ rules, ∀ y ∈ rules, x.internalName = y.name.text → x.name.text = y.name.text
  keys : ∀ x ∈ rules, ∀ y ∈ rules, ∀ {walker walker' function function' : String}, IsPlain walker →
    IsPlain walker' →
      (functionKey x.internalName walker function = functionKey y.internalName walker' function' ↔
        x.internalName = y.internalName ∧ walker = walker' ∧ function = function')

theorem Counted.isPlain {ix : Index} {rules : List RuleDef} (h : Counted ix rules) {r : RuleDef}
    (hr : r ∈ rules) : IsPlain r.internalName := by
  obtain ⟨front, rest, heq⟩ := List.append_of_mem hr
  rw [h.numbered front r rest heq]
  exact isPlain_bodyName (h.plain r hr) _

theorem counted_analyze (limit : Nat) (text : String) :
    Counted (analyze limit text).index (analyze limit text).rules := by
  obtain ⟨ix, hindex, hcounted⟩ := Analysis.gathered_analyze blindToBlocks_rules
    (Q := Counted) ⟨fun _ => rfl, fun front r rest h => by simp at h, by simp⟩
    (fun _ _ _ _ hr h => h.read hr) (fun _ _ b h => h.block b) limit text
  exact ⟨fun rule => by rw [hindex]; exact hcounted.count rule, hcounted.numbered, hcounted.plain⟩

/-- The bodies of a rule are numbered in the order of their lines. Two bodies share a name only if it is
also the name of a rule that one of them does not belong to, and then they share the keys of their blocks. -/
theorem bodiesNamed_analyze (limit : Nat) (text : String) : BodiesNamed (analyze limit text).rules := by
  have h := counted_analyze limit text
  refine ⟨h.numbered, h.numbered.nodup_iff, ?_⟩
  intro x hx y hy walker walker' function function' hwalker hwalker'
  constructor
  · exact functionKey_inj (h.isPlain hx) (h.isPlain hy) hwalker hwalker'
  · rintro ⟨hname, rfl, rfl⟩
    rw [hname]

/-- The second body of the one rule has the name of the other. -/
theorem shared_bodyName :
    ¬((analyze defaultErrorLimit "a_1 := A;\na := A;\na := A;\nA := \"x\";").rules.map
      fun r => r.internalName).Nodup := by
  decide +kernel

end LineGrammar
