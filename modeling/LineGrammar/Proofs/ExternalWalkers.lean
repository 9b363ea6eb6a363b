import LineGrammar.Proofs.Consistency
import LineGrammar.Proofs.Declarations
import LineGrammar.Proofs.Positions

/-! Blocks of walkers that are implemented from outside. A rule body and a function call for a block on the
later of their two lines, unless the interface of the walker has been declared by then. An interface that is
declared after both leaves the call as it is. -/

namespace LineGrammar

/-- The node completes a rule body and a function of a walker: one of them stands above, and the other one is
the node. -/
def Node.CallsFor (above : List Definition) (rule walker function : String) : Node → Prop
  | .rule r => r.internalName = rule ∧ r.terminated = false ∧
    ∃ d ∈ above, ∃ signature, d.detail = .function r.name.text walker function signature
  | .pragma p => ∃ decl, p.body = .function decl ∧ decl.declared = true ∧ decl.walkerName = some walker ∧
    decl.function.text = function ∧
    ∃ d ∈ above, d.symbol = .rule decl.rule.text ∧ d.expectsBlocks = true ∧ d.internalName = rule
  | _ => False

/-- The parts of the keys that the definition gives rise to are plain. -/
def Definition.HasPlainParts (d : Definition) : Prop :=
  match d.detail with
  | .function rule walker function _ => IsPlain rule ∧ IsPlain walker ∧ IsPlain function
  | .rule internalName _ => IsPlain internalName
  | _ => True

/-- A key whose parts are plain is cut at its colons in one way only. -/
theorem functionKey_inj_of_plain {rule rule' walker walker' function function' : String}
    (hrule : IsPlain rule') (hwalker : IsPlain walker') (hfunction : IsPlain function')
    (h : functionKey rule walker function = functionKey rule' walker' function') :
    rule = rule' ∧ walker = walker' ∧ function = function' := by
  have hcount := congrArg (fun key => key.toList.count ':') h
  have hcolons : ("::" : String).toList.count ':' = 2 := rfl
  simp only [functionKey, String.toList_append, List.count_append, hcolons,
    List.count_eq_zero_of_not_mem hrule, List.count_eq_zero_of_not_mem hwalker,
    List.count_eq_zero_of_not_mem hfunction] at hcount
  refine functionKey_inj ?_ hrule ?_ hwalker h
  · exact List.count_eq_zero.1 (by omega)
  · exact List.count_eq_zero.1 (by omega)

theorem CodeBlock.hasPlainParts {b : CodeBlock} {d : Definition} (h : d ∈ b.definitions) :
    d.HasPlainParts := by
  obtain ⟨name, -, -, -, rfl⟩ := CodeBlock.mem_definitions.1 h
  trivial

theorem TokenDef.hasPlainParts {t : TokenDef} {d : Definition} (h : d ∈ t.definitions) :
    d.HasPlainParts := by
  obtain ⟨literal, -, -, rfl⟩ := TokenDef.mem_definitions.1 h
  trivial

section
variable {limit : Nat} {text : String}

theorem isName_of_mem_words {n : Node} (hn : n ∈ (analyze limit text).nodeList) {l : Lexeme}
    (hl : l ∈ n.words) : isName l.text = true := by
  obtain ⟨line, hline⟩ := Document.mem_nodeList.1 hn
  obtain ⟨raw, -, -, s, hs, rfl⟩ := Analysis.standsOn_name hline hl
  change IsNameText (String.ofList s.chars).toList
  rw [String.toList_ofList]
  exact hs.text

theorem isPlain_of_mem_words {n : Node} (hn : n ∈ (analyze limit text).nodeList) {l : Lexeme}
    (hl : l ∈ n.words) : IsPlain l.text :=
  isPlain_of_isNameText (isName_of_mem_words hn hl)

theorem Document.mem_directives {d : Document} {p : Pragma} :
    p ∈ d.directives ↔ Node.pragma p ∈ d.nodeList ∧ p.isDirective = true := by
  rw [directives, List.mem_flatMap]
  constructor
  · rintro ⟨n, hn, hp⟩
    unfold Node.directives at hp
    split at hp
    · split at hp
      · next hdirective =>
        obtain rfl := List.mem_singleton.1 hp
        exact ⟨hn, hdirective⟩
      · cases hp
    · cases hp
  · rintro ⟨hn, hdirective⟩
    exact ⟨_, hn, by simp [Node.directives, hdirective]⟩

/-- The name of a walker is written where it is declared. -/
theorem isPlain_of_walker {name : String} (h : name ∈ walkerNames (analyze limit text).directives) :
    IsPlain name := by
  obtain ⟨d, hd, rfl⟩ := List.mem_map.1 h
  unfold walkersOf at hd
  cases hfirst : (analyze limit text).directives.findSome? Pragma.walkers? with
  | none => rw [hfirst] at hd; cases hd
  | some ds =>
    rw [hfirst] at hd
    obtain ⟨p, hp, hwalkers⟩ := List.exists_of_findSome?_eq_some hfirst
    unfold Pragma.walkers? at hwalkers
    split at hwalkers
    · next names declared hbody =>
      cases hwalkers
      obtain ⟨name, hname, rfl⟩ := List.mem_map.1 hd
      refine isPlain_of_mem_words (Document.mem_directives.1 hp).1 (l := name) ?_
      rw [Node.words, hbody]
      exact hname
    · cases hwalkers

theorem hasPlainParts_pragma {p : Pragma} (hn : .pragma p ∈ (analyze limit text).nodeList) {d : Definition}
    (hd : d ∈ p.definitions) : d.HasPlainParts := by
  cases Pragma.mem_definitions.1 hd with
  | @function decl _ walker hbody _ _ howned =>
    have hword : ∀ l ∈ decl.words, IsPlain l.text := fun l hl =>
      isPlain_of_mem_words hn (by rw [Node.words, hbody]; exact hl)
    obtain ⟨front, rest, heq⟩ := List.append_of_mem
      (Document.mem_directives.2 ⟨hn, by rw [Pragma.isDirective, hbody]⟩)
    have hresolved := (declares_analyze limit text).resolved front p rest decl heq hbody
    have hmem := mem_of_resolvedWalker (hresolved.symm.trans howned)
    have hdeclaredWalker : walker ∈ walkerNames (analyze limit text).directives := by
      rw [heq, walkerNames, walkersOf_append hmem]
      exact hmem
    exact ⟨hword _ (by simp [FunctionDecl.words]), isPlain_of_walker hdeclaredWalker,
      hword _ (by simp [FunctionDecl.words])⟩
  | block _ hdefined => exact CodeBlock.hasPlainParts hdefined
  | _ => trivial

theorem hasPlainParts_analyze {n : Node} (hn : n ∈ (analyze limit text).nodeList) {d : Definition}
    (hd : d ∈ n.definitions) : d.HasPlainParts := by
  cases n with
  | rule r =>
    rw [List.mem_singleton.1 hd]
    exact (counted_analyze limit text).isPlain (List.mem_flatMap.2 ⟨_, hn, List.mem_singleton_self r⟩)
  | pragma p => exact hasPlainParts_pragma hn hd
  | token t => exact TokenDef.hasPlainParts hd
  | block b => exact CodeBlock.hasPlainParts hd
  | comment text => cases hd
  | blockName name => cases hd

end

section
variable {above : List Definition} (habove : ∀ d ∈ above, d.HasPlainParts) {rule walker function : String}
include habove

/-- A rule body owes the block of a function above it, unless the walker is implemented from outside. -/
theorem RuleDef.owes_block_iff {r : RuleDef} (hr : IsPlain r.internalName) :
    (∃ use ∈ r.obligations above, use.symbol = .codeBlock (functionKey rule walker function)) ↔
      (Node.rule r).CallsFor above rule walker function ∧ hasInterface above walker = false := by
  constructor
  · rintro ⟨use, huse, hsymbol⟩
    rcases List.mem_append.1 huse with huse | huse
    · obtain ⟨e, -, huse⟩ := List.mem_filterMap.1 huse
      split at huse
      · cases huse
        cases hsymbol
      · split at huse
        · cases huse
          cases hsymbol
        · cases huse
    · split at huse
      · cases huse
      · next hopen =>
        obtain ⟨d, hd, huse⟩ := List.mem_filterMap.1 huse
        unfold owedBlock? at huse
        split at huse
        · next rule' walker' function' signature hdetail =>
          split at huse
          · next hguard =>
            cases huse
            obtain ⟨hrule, hinterface⟩ : rule' = r.name.text ∧ hasInterface above walker' = false := by
              simpa using hguard
            have hplain := habove d hd
            rw [Definition.HasPlainParts, hdetail] at hplain
            have hkey : functionKey rule walker function = functionKey r.internalName walker' function' :=
              (congrArg Symbol.name hsymbol).symm
            obtain ⟨rfl, rfl, rfl⟩ := functionKey_inj_of_plain hr hplain.2.1 hplain.2.2 hkey
            exact ⟨⟨rfl, by simpa using hopen, d, hd, signature, by rw [hdetail, hrule]⟩, hinterface⟩
          · cases huse
        · cases huse
  · rintro ⟨⟨rfl, hopen, d, hd, signature, hdetail⟩, hinterface⟩
    refine ⟨⟨.codeBlock (functionKey r.internalName walker function), r.name.span⟩,
      List.mem_append_right _ ?_, rfl⟩
    rw [if_neg (by simp [hopen])]
    exact List.mem_filterMap.2 ⟨d, hd, by simp [owedBlock?, hdetail, hinterface, blockKey]⟩

/-- The bodies of a rule that a function asks for have plain names. -/
theorem isPlain_internalName {d : Definition} (hd : d ∈ above) (hexpects : d.expectsBlocks = true) :
    IsPlain d.internalName := by
  have hplain := habove d hd
  unfold Definition.expectsBlocks at hexpects
  split at hexpects
  · next internalName expects hdetail =>
    rw [Definition.HasPlainParts, hdetail] at hplain
    rw [Definition.internalName, hdetail]
    exact hplain
  · cases hexpects

/-- A function owes a block for each body of its rule above it. -/
theorem FunctionDecl.owes_block_iff {p : Pragma} {decl : FunctionDecl} (hbody : p.body = .function decl)
    (hp : ∀ d ∈ p.definitions, d.HasPlainParts) :
    (∃ use ∈ decl.obligations above, use.symbol = .codeBlock (functionKey rule walker function)) ↔
      (Node.pragma p).CallsFor above rule walker function ∧ hasInterface above walker = false := by
  unfold FunctionDecl.obligations
  constructor
  · rintro ⟨use, huse, hsymbol⟩
    split at huse
    · next walker' hdeclared hwalker =>
      rcases List.mem_cons.1 huse with rfl | huse
      · cases hsymbol
      · split at huse
        · cases huse
        · next hinterface =>
          obtain ⟨d, hd, rfl⟩ := List.mem_map.1 huse
          obtain ⟨hd, hbodyOf⟩ := List.mem_filter.1 hd
          obtain ⟨hrule, hexpects⟩ : d.symbol = .rule decl.rule.text ∧ d.expectsBlocks = true := by
            simpa using hbodyOf
          have hdefinition := hp
            ⟨.function (functionKey decl.rule.text walker' decl.function.text), decl.function.span,
              p.span, .function decl.rule.text walker' decl.function.text decl.signature⟩
            (by simp [Pragma.definitions, hbody, hdeclared, hwalker, FunctionDecl.key?])
          obtain ⟨rfl, rfl, rfl⟩ := functionKey_inj_of_plain (isPlain_internalName habove hd hexpects)
            hdefinition.2.1 hdefinition.2.2 (congrArg Symbol.name hsymbol).symm
          exact ⟨⟨decl, hbody, hdeclared, hwalker, rfl, d, hd, hrule, hexpects, rfl⟩,
            by simpa using hinterface⟩
    · cases huse
  · rintro ⟨⟨other, hother, hdeclared, hwalker, rfl, d, hd, hrule, hexpects, rfl⟩, hinterface⟩
    obtain rfl : decl = other := PragmaBody.function.inj (hbody.symm.trans hother)
    refine ⟨⟨.codeBlock (functionKey d.internalName walker decl.function.text), decl.function.span⟩, ?_, rfl⟩
    simp only [hdeclared, hwalker, hinterface, Bool.false_eq_true, if_false, List.mem_cons]
    exact .inr (List.mem_map.2 ⟨d, List.mem_filter.2 ⟨hd, by simp [hrule, hexpects]⟩, rfl⟩)

theorem Node.owes_block_iff {n : Node} (hn : ∀ d ∈ n.definitions, d.HasPlainParts) :
    (∃ use ∈ n.obligations above, use.symbol = .codeBlock (functionKey rule walker function)) ↔
      n.CallsFor above rule walker function ∧ hasInterface above walker = false := by
  cases n with
  | rule r => exact RuleDef.owes_block_iff habove (hn _ (List.mem_singleton_self _))
  | pragma p =>
    rw [Node.obligations]
    cases hbody : p.body with
    | function decl => exact FunctionDecl.owes_block_iff habove hbody hn
    | associativity associativity tokens =>
      simp [PragmaBody.obligations, CallsFor, hbody, Symbol.token, Symbol.codeBlock]
    | lexerInclude mode =>
      simp [PragmaBody.obligations, CallsFor, hbody, Symbol.lexerMode, Symbol.codeBlock]
    | start name => simp [PragmaBody.obligations, CallsFor, hbody, Symbol.rule, Symbol.codeBlock]
    | _ => simp [PragmaBody.obligations, CallsFor, hbody]
  | token t =>
    refine iff_of_false ?_ fun h => h.1
    rintro ⟨use, huse, hsymbol⟩
    rw [Node.obligations, TokenDef.obligations] at huse
    split at huse
    · obtain ⟨mode, -, rfl⟩ := List.mem_map.1 huse
      cases hsymbol
    · cases huse
  | _ => simp [Node.obligations, CallsFor]

end

/-- The names that are reported as undefined are those that some node owes and nothing defines. -/
theorem undefined_iff (limit : Nat) (text : String) (s : Symbol) :
    (∃ d ∈ (analyze limit text).diagnostics, d.cause = .notDefined s) ↔
      (analyze limit text).index.isDefined s = false ∧
        ∃ use ∈ obligationsFrom [] (analyze limit text).nodeList, use.symbol = s := by
  have h := accounted_analyze limit text
  have howed := h.unresolved_eq
  unfold analyze analyzeLines Analysis.finish Document.nodeList
  dsimp only
  generalize (Analysis.run limit (Text.lines text)).conclude = a at h howed ⊢
  rw [howed, Index.isDefined_congr (Index.buckets_clearPending _)]
  constructor
  · rintro ⟨d, hd, hcause⟩
    rcases List.mem_append.1 hd with hd | hd
    · exact absurd (by rw [Diagnostic.code, hcause]; rfl) (h.quiet d hd)
    · obtain ⟨use, huse, rfl⟩ := List.mem_map.1 hd
      obtain rfl := Cause.notDefined.inj hcause
      obtain ⟨huse, hmissing⟩ := List.mem_filter.1 huse
      exact ⟨by simpa using hmissing, use, huse, rfl⟩
  · rintro ⟨hmissing, use, huse, rfl⟩
    exact ⟨_, List.mem_append_right _
      (List.mem_map_of_mem (List.mem_filter.2 ⟨huse, by simp [hmissing]⟩)), rfl⟩

/-- The block of a function and a rule body is reported as missing if it is not defined and the later one of
their lines came before any interface of the walker. -/
theorem block_missed_iff (limit : Nat) (text rule walker function : String) :
    (∃ d ∈ (analyze limit text).diagnostics,
        d.cause = .notDefined (.codeBlock (functionKey rule walker function))) ↔
      (analyze limit text).index.isDefined (.codeBlock (functionKey rule walker function)) = false ∧
        ∃ front n rest, (analyze limit text).nodeList = front ++ n :: rest ∧
          n.CallsFor (front.flatMap Node.definitions) rule walker function ∧
          hasInterface (front.flatMap Node.definitions) walker = false := by
  have howes : ∀ front n rest, (analyze limit text).nodeList = front ++ n :: rest →
      ((∃ use ∈ n.obligations ([] ++ front.flatMap Node.definitions),
          use.symbol = .codeBlock (functionKey rule walker function)) ↔
        n.CallsFor (front.flatMap Node.definitions) rule walker function ∧
          hasInterface (front.flatMap Node.definitions) walker = false) := by
    intro front n rest heq
    refine Node.owes_block_iff ?_ fun d hd => hasPlainParts_analyze (by rw [heq]; simp) hd
    intro d hd
    obtain ⟨m, hm, hd⟩ := List.mem_flatMap.1 hd
    exact hasPlainParts_analyze (by rw [heq]; exact List.mem_append_left _ hm) hd
  rw [undefined_iff]
  refine and_congr_right fun _ => ?_
  constructor
  · rintro ⟨use, huse, hsymbol⟩
    obtain ⟨front, n, rest, heq, huse⟩ := mem_obligationsFrom.1 huse
    exact ⟨front, n, rest, heq, (howes front n rest heq).1 ⟨use, huse, hsymbol⟩⟩
  · rintro ⟨front, n, rest, heq, hcalls⟩
    obtain ⟨use, huse, hsymbol⟩ := (howes front n rest heq).2 hcalls
    exact ⟨use, mem_obligationsFrom.2 ⟨front, n, rest, heq, huse⟩, hsymbol⟩

/-- The interface is declared after the rule body and its function. -/
def lateInterfaceText : String :=
  "%walkers V W;\n%function r W::f() -> int;\nr := A\n%\x7b\n%\x7d\n%walker_interface W I;\nA := \"x\";"

/-- An interface that comes after a rule body and its function is too late for the block they call for. -/
theorem block_missed_late_interface :
    (analyze defaultErrorLimit lateInterfaceText).index.isDefined (.walkerInterface "W") = true ∧
      ∃ d ∈ (analyze defaultErrorLimit lateInterfaceText).diagnostics,
        d.cause = .notDefined (.codeBlock (functionKey "r" "W" "f")) := by
  decide +kernel

end LineGrammar
