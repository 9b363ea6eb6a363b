import LineGrammar.Proofs.BlockNameContent
import LineGrammar.Proofs.ImpliedFunctions
import LineGrammar.Proofs.PragmaLine
import LineGrammar.Proofs.RenamedPragmas
import LineGrammar.Proofs.RuleContent
import LineGrammar.Proofs.TokenContent

/-! Reading a whole line whose names are renamed: pragmas, tokens, rules and the names of blocks. -/

namespace LineGrammar

namespace Renaming

variable {ρ : Renaming} {w : Rewriting} {refs : List (Lexeme × Symbol)} {line line' : Line}

/-- The mode that stands for the current one is no name and stays. -/
theorem sends_lexerMode? (h : ρ.Renames w refs line line') (hρ : ρ.Valid) {mode? : Option Slice}
    (hmode : ∀ mode ∈ mode?, mode.Whole line.raw.toList ∧ Slice.IsModeText mode.chars)
    (hmem : ∀ mode ∈ mode?, (line.lexeme mode).text ≠ currentMode →
      (line.lexeme mode, .lexerMode (line.lexeme mode).text) ∈ refs) :
    Option.Rel (ρ.SendsLexeme .lexerMode) ((mode?.map line.lexeme).filter (·.text ≠ currentMode))
      (((mode?.map w.slice).map line'.lexeme).filter (·.text ≠ currentMode)) := by
  cases mode? with
  | none => exact .none
  | some mode =>
    obtain ⟨hwhole, hcurrent | hname⟩ := hmode mode rfl
    · have hplain : (w.slice mode).chars = mode.chars :=
        Rewriting.slice_of_plain (h.fits hρ) hwhole fun c hc => by
          rw [hcurrent] at hc
          rw [List.mem_singleton.1 (show c ∈ ['^'] from hc)]
          decide
      have htext : (line.lexeme mode).text = currentMode := by
        rw [text_lexeme, hcurrent, String.ofList_toList]
      have htext' : (line'.lexeme (w.slice mode)).text = currentMode := by
        rw [text_lexeme, hplain, hcurrent, String.ofList_toList]
      simp only [Option.map_some, Option.filter_some, htext, htext']
      exact .none
    · have hword : mode.IsWord line.raw.toList := ⟨hwhole, hname⟩
      have hother : ∀ {cs : List Char}, IsNameText cs → String.ofList cs ≠ currentMode := by
        rintro cs hcs heq
        rw [← String.toList_inj, String.toList_ofList] at heq
        rw [heq] at hcs
        exact absurd hcs (by decide)
      have htext : (line.lexeme mode).text ≠ currentMode := hother hname
      have htext' : (line'.lexeme (w.slice mode)).text ≠ currentMode :=
        hother (Rewriting.isNameText_of_word (h.fits hρ) hword)
      simp only [Option.map_some, Option.filter_some, htext, htext', ne_eq, not_false_eq_true,
        decide_true, if_true]
      exact .some (h.sendsLexeme hρ hword rfl (hmem mode rfl htext))

/-- A name is that of a token or that of a rule, not both. -/
theorem isRuleName_of_isTokenName {name : String} (h : isTokenName name = true) :
    isRuleName name = false := by
  unfold isTokenName at h
  unfold isRuleName
  cases hcs : name.toList with
  | nil => rfl
  | cons c cs =>
    rw [hcs] at h
    obtain ⟨hc, -⟩ := isSpelled_cons.1 h
    have hnot : isRuleStart c = false := by
      rw [Bool.eq_false_iff]
      exact fun hrule => absurd (hc.symm.trans (isTokenStart_of_isRuleStart hrule)) (by simp)
    simp [isSpelled, hnot]

theorem isTokenName_of_isRuleName {name : String} (h : isRuleName name = true) : isTokenName name = false := by
  rw [Bool.eq_false_iff]
  exact fun htoken => absurd (h.symm.trans (isRuleName_of_isTokenName htoken)) (by simp)

/-- The name is that of a token or of a rule, whichever its casing says. -/
def IsCased (ref : Lexeme × Symbol) : Prop :=
  isTokenName ref.1.text = true ∧ ref.2 = .token ref.1.text ∨
    isRuleName ref.1.text = true ∧ ref.2 = .rule ref.1.text

/-- The two names are both those of tokens, both those of rules, or neither. -/
def SameCasing (l l' : Lexeme) : Prop :=
  isTokenName l'.text = isTokenName l.text ∧ isRuleName l'.text = isRuleName l.text

/-- A line that reads as a rule starts with the name of one. -/
theorem isRuleName_of_rule {line : Line} {name operator rest : Slice} {alias? : Option Slice}
    (h : Shape.rule? line.body = some (.rule name alias? operator rest)) :
    isRuleName (line.lexeme name).text = true := by
  obtain ⟨_, _, _, _, hparts, hspelled, -⟩ := Shape.rule?_eq_some h
  cases hparts
  rwa [text_lexeme, isRuleName, String.toList_ofList]

theorem nameProblems_clean {e e' : RuleElement} (hsends : ρ.SendsElement e e')
    (halias : Option.Rel SameCasing e.alias? e'.alias?) (hclean : e.nameProblems = []) :
    e'.nameProblems = [] := by
  unfold SendsElement at hsends
  unfold RuleElement.nameProblems at hclean ⊢
  generalize e.symbol? = x? at hsends hclean
  generalize e'.symbol? = y? at hsends
  cases hsends with
  | none => cases hclean
  | @some x y hx =>
    generalize e.alias? = l? at halias hclean
    generalize e'.alias? = l?' at halias
    cases halias with
    | none => rfl
    | @some l l' hl =>
      dsimp only at hclean ⊢
      rw [← hx.kind_eq, hl.1, hl.2]
      by_cases hsame : (if x.kind = .token then isTokenName l.text else isRuleName l.text) = true
      · rw [if_pos hsame]
      · rw [if_neg hsame] at hclean
        cases hclean

theorem problems_clean {es es' : List RuleElement}
    (h : List.Forall₂ (fun e e' => e'.anchor?.isSome = e.anchor?.isSome ∧
      (e.nameProblems = [] → e'.nameProblems = [])) es es') :
    ∀ {anchored : Bool}, RuleElement.problems anchored es = [] →
      RuleElement.problems anchored es' = [] := by
  induction h with
  | nil => exact fun _ => rfl
  | @cons e e' rest rest' he hrest ih =>
    intro anchored hclean
    rw [RuleElement.problems] at hclean ⊢
    obtain ⟨hfront, hrest⟩ := List.append_eq_nil_iff.1 hclean
    obtain ⟨hanchor, hname⟩ := List.append_eq_nil_iff.1 hfront
    rw [he.2 hname, he.1, ih hrest]
    unfold RuleElement.anchorProblems at hanchor ⊢
    have hsome := he.1
    cases hold : e.anchor? <;> cases hnew : e'.anchor? <;> simp_all

section
variable (h : ρ.Renames w refs line line') (hρ : ρ.Valid) {ix ix' : Index} (hix : ρ.SendsIndex ix ix')
include h hρ hix

/-- The keyword stands before all names and stays. -/
theorem sends_pragma {mark name parameters : Slice}
    (hshape : Shape.pragma? line.body = some (.pragma mark name parameters))
    (hrefs : (Node.pragma (Pragma.read line mark name parameters ix).node).references = refs)
    (hclean : (Pragma.read line mark name parameters ix).problems = []) :
    ρ.SendsReading none (fun p p' => ρ.SendsNode (.pragma p) (.pragma p'))
      (Pragma.read line mark name parameters ix)
      (Pragma.read line' (w.slice mark) (w.slice name) (w.slice parameters) ix') := by
  obtain ⟨-, hname, hparameters, hlt⟩ := Shape.pragma?_words line.whole_body hshape
  obtain ⟨keyword, r, hkeyword, hr⟩ := Pragma.read_clean hclean
  have hbody := Pragma.readBody_eq hkeyword hr
  rw [Pragma.read_eq, hbody] at hrefs hclean ⊢
  have hstands := PragmaBody.standsOn_read? hparameters hr
  have hbefore : ∀ ref ∈ refs, name.column < ref.1.start := by
    intro ref href
    rw [← hrefs] at href
    exact Nat.lt_of_lt_of_le hlt (hstands.first _ (Node.mem_words href))
  obtain ⟨r', hr', hsends⟩ := sends_read? h hρ hix hparameters hclean hrefs rfl hr
  have hkeyword' : Keyword.ofWord? (w.slice name).text = some keyword := by
    rwa [Slice.text, h.chars_of_before hρ hname hbefore]
  rw [Pragma.read_eq, Pragma.readBody_eq hkeyword' hr']
  refine ⟨hsends.node _ _ rfl rfl, hsends.problems, ?_, hsends.sequel⟩
  rw [settings_enterAll, settings_enterAll]
  exact hsends.settings

omit h hρ hix in
theorem name_read (line : Line) (name operator rest : Slice) (ix : Index) :
    (TokenDef.read line name operator rest ix).node.name = line.lexeme name := by
  unfold TokenDef.read
  dsimp only
  split <;> rfl

theorem sends_token {name operator rest : Slice}
    (hshape : Shape.token? line.body = some (.token name operator rest))
    (hrefs : (Node.token (TokenDef.read line name operator rest ix).node).references = refs)
    (hclean : (TokenDef.read line name operator rest ix).problems = []) :
    ρ.SendsReading none (fun t t' => ρ.SendsNode (.token t) (.token t'))
      (TokenDef.read line name operator rest ix)
      (TokenDef.read line' (w.slice name) (w.slice operator) (w.slice rest) ix') := by
  obtain ⟨hname, hoperator, hrest, hlt⟩ := Shape.token?_words line.whole_body hshape
  obtain ⟨value, hvalue, hterm⟩ := TokenDef.read_clean hclean
  rw [TokenDef.read_eq hvalue hterm] at hrefs hclean ⊢
  have hlist : refs = (TokenDef.ofValue line name operator value).references := hrefs.symm
  obtain ⟨-, -, hmode⟩ := Slice.tokenValue?_whole hrest hvalue
  obtain ⟨-, -, -, htext⟩ := Slice.tokenValue?_eq_some hvalue
  have hself : (line.lexeme name, .token (line.lexeme name).text) ∈ refs := by
    rw [hlist]
    exact List.mem_cons_self
  have hcolumns : ∀ start ∈ w.columns, rest.column ≤ start → ∃ mode ∈ value.mode?, mode.column = start := by
    intro start hstart hle
    obtain ⟨ref, href, -, rfl⟩ := (h.columns start).1 hstart
    rw [hlist] at href
    rcases List.mem_cons.1 href with rfl | href
    · exact absurd hle (Nat.not_le.2 hlt)
    · obtain ⟨l, hl, rfl⟩ := List.mem_map.1 href
      obtain ⟨hl, -⟩ := Option.mem_filter_iff.1 (Option.mem_toList.1 hl)
      obtain ⟨mode, hmem, rfl⟩ := Option.map_eq_some_iff.1 hl
      exact ⟨mode, hmem, rfl⟩
  have hvalue' := Rewriting.tokenValue?_slice (h.fits hρ) hrest hvalue hcolumns
  rw [TokenDef.read_eq hvalue' hterm]
  have hdef : ρ.SendsTokenDef (TokenDef.ofValue line name operator value)
      (TokenDef.ofValue line' (w.slice name) (w.slice operator) (value.map w.slice)) := by
    refine ⟨h.sendsLexeme hρ hname rfl hself, rfl, ?_, rfl⟩
    have hmodes : ∀ mode ∈ value.mode?, mode.Whole line.raw.toList ∧ Slice.IsModeText mode.chars :=
      fun mode hmem => ⟨(hmode mode hmem).1, htext mode hmem⟩
    refine sends_lexerMode? h hρ hmodes fun mode hmem hne => ?_
    rw [hlist]
    refine List.mem_cons_of_mem _ (List.mem_map.2 ⟨line.lexeme mode, ?_, rfl⟩)
    refine Option.mem_toList.2 (Option.mem_filter_iff.2 ⟨Option.mem_map_of_mem _ hmem, ?_⟩)
    exact decide_eq_true hne
  refine ⟨hdef.node, rfl, ?_, .nothing⟩
  dsimp only
  rw [TokenDef.settings_register, TokenDef.settings_register]
  exact hix.settings

omit h hρ hix in
/-- All names of a rule body are told by their casing. -/
theorem isCased_of_rule {r : RuleDef} (hname : isRuleName r.name.text = true) :
    ∀ ref ∈ (Node.rule r).references, IsCased ref := by
  intro ref href
  rcases List.mem_cons.1 href with rfl | href
  · exact .inr ⟨hname, rfl⟩
  · obtain ⟨e, -, href⟩ := List.mem_filterMap.1 href
    obtain ⟨x, hx, rfl⟩ := Option.map_eq_some_iff.1 href
    unfold RuleElement.symbol? Symbol.ofElement? at hx
    split at hx
    · next htoken => exact .inl ⟨htoken, (Option.some.inj hx).symm⟩
    · split at hx
      · next hrule => exact .inr ⟨hrule, (Option.some.inj hx).symm⟩
      · cases hx

section
variable (hcased : ∀ ref ∈ refs, IsCased ref)
include hcased

omit hix in
/-- Every name keeps its casing. -/
theorem casing_slice {s : Slice} (hs : s.IsWord line.raw.toList) :
    SameCasing (line.lexeme s) (line'.lexeme (w.slice s)) := by
  unfold SameCasing
  by_cases hmem : s.column ∈ w.columns
  · obtain ⟨⟨l, x⟩, href, -, hstart⟩ := (h.columns _).1 hmem
    obtain ⟨t, ht, rfl⟩ := h.words _ href
    have htpos := ht.pos
    have hspos := hs.pos
    have hcolumn : t.column = s.column := hstart
    obtain rfl : t = s := ht.eq_of_touch hs (p := s.column) (by omega) (by omega)
    have hname := hcased _ href
    dsimp only [IsCased] at hname
    rcases hname with ⟨htoken, rfl⟩ | ⟨hrule, rfl⟩
    · have htoken' := (h.sendsPart hρ hs (k := .token) rfl href).name.isTokenName hρ htoken
      rw [htoken, htoken', isRuleName_of_isTokenName htoken, isRuleName_of_isTokenName htoken']
      exact ⟨rfl, rfl⟩
    · have hrule' := (h.sendsPart hρ hs (k := .rule) rfl href).name.isRuleName hρ hrule
      rw [hrule, hrule', isTokenName_of_isRuleName hrule, isTokenName_of_isRuleName hrule']
      exact ⟨rfl, rfl⟩
  · have hsame : (w.slice s).chars = s.chars := by
      rw [Rewriting.chars_slice, Rewriting.text_of_word (h.fits hρ) hs, if_neg hmem]
    rw [text_lexeme, text_lexeme, hsame]
    exact ⟨rfl, rfl⟩

omit hix in
theorem sends_element {e : ElementShape} (hname : e.name.IsWord line.raw.toList)
    (hmem : ∀ x, (RuleElement.ofShape line e).symbol? = some x → (line.lexeme e.name, x) ∈ refs) :
    ρ.SendsElement (RuleElement.ofShape line e) (RuleElement.ofShape line' (e.map w.slice)) := by
  obtain ⟨htoken, hrule⟩ := casing_slice h hρ hcased hname
  change ∀ x, Symbol.ofElement? (line.lexeme e.name).text = some x → _ at hmem
  change Option.Rel ρ.Sends (Symbol.ofElement? (line.lexeme e.name).text)
    (Symbol.ofElement? (line'.lexeme (w.slice e.name)).text)
  unfold Symbol.ofElement? at hmem ⊢
  by_cases hcase : isTokenName (line.lexeme e.name).text = true
  · rw [if_pos hcase, if_pos (htoken.trans hcase)]
    exact .some (h.sendsLexeme hρ hname rfl (hmem _ (if_pos hcase)))
  · have hother : ¬isTokenName (line'.lexeme (w.slice e.name)).text = true := by rwa [htoken]
    rw [if_neg hcase] at hmem
    rw [if_neg hcase, if_neg hother]
    by_cases hcase' : isRuleName (line.lexeme e.name).text = true
    · rw [if_pos hcase', if_pos (hrule.trans hcase')]
      exact .some (h.sendsLexeme hρ hname rfl (hmem _ (if_pos hcase')))
    · have hother' : ¬isRuleName (line'.lexeme (w.slice e.name)).text = true := by rwa [hrule]
      rw [if_neg hcase', if_neg hother']
      exact .none

omit hix in
theorem problems_slice {es : List ElementShape}
    (hwords : ∀ e ∈ es, Slice.ElementWords line.raw.toList e)
    (hsends : ∀ e ∈ es, ρ.SendsElement (RuleElement.ofShape line e) (RuleElement.ofShape line' (e.map w.slice)))
    (hclean : RuleElement.problems false (es.map (RuleElement.ofShape line)) = []) :
    RuleElement.problems false
      ((es.map (ElementShape.map w.slice)).map (RuleElement.ofShape line')) = [] := by
  rw [List.map_map]
  refine problems_clean (forall₂_map_same (f := RuleElement.ofShape line) fun e he => ⟨?_, ?_⟩) hclean
  · simp [RuleElement.ofShape, ElementShape.map]
  · refine nameProblems_clean (hsends e he) ?_
    have halias := (hwords e he).aliasName
    simp only [RuleElement.ofShape, ElementShape.map, Function.comp_apply]
    cases hold : e.alias? with
    | none => exact .none
    | some l => exact .some (casing_slice h hρ hcased (halias l hold))

end

/-- A rule is read under its own name or the new one, and its body follows. -/
theorem sends_rule {name operator rest : Slice} {alias? : Option Slice}
    (hshape : Shape.rule? line.body = some (.rule name alias? operator rest))
    (hrefs : (Node.rule (RuleDef.read line name alias? operator rest ix).node).references = refs)
    (hbody : ρ.IsBody (line.lexeme name).text (ix.nextInternalName (line.lexeme name).text))
    (hclean : (RuleDef.read line name alias? operator rest ix).problems = []) :
    ρ.SendsReading none (fun r r' => ρ.SendsNode (.rule r) (.rule r'))
      (RuleDef.read line name alias? operator rest ix)
      (RuleDef.read line' (w.slice name) (alias?.map w.slice) (w.slice operator) (w.slice rest) ix') := by
  obtain ⟨hname, halias, hoperator, hrest, -⟩ := Shape.rule?_words line.whole_body hshape
  obtain ⟨es, hes⟩ := RuleDef.read_clean hclean
  obtain ⟨list, terminated, hcut⟩ : ∃ list terminated, rest.cutTerminator = (list, terminated) :=
    ⟨_, _, rfl⟩
  have hlist := hrest.cutTerminator.1
  have hcut' := Rewriting.cutTerminator_slice (h.fits hρ) hrest
  rw [hcut] at hes hlist hcut'
  have hes' := Rewriting.elements?_slice (h.fits hρ) hlist hes
  rw [RuleDef.read_eq hcut hes] at hrefs hclean ⊢
  rw [RuleDef.read_eq hcut' hes']
  have hself : (line.lexeme name, .rule (line.lexeme name).text) ∈ refs := by
    rw [← hrefs]
    exact List.mem_cons_self
  have hsendsBody := hix.nextInternalName (h.sendsPart hρ hname (k := .rule) rfl hself) hbody
  have hwords : ∀ e ∈ es, Slice.ElementWords line.raw.toList e :=
    fun e he => ((Slice.elements?_words hlist hes).1 e he).1
  have hmem : ∀ e ∈ es, ∀ x, (RuleElement.ofShape line e).symbol? = some x →
      (line.lexeme e.name, x) ∈ refs := by
    intro e he x hx
    rw [← hrefs]
    refine List.mem_cons_of_mem _ (List.mem_filterMap.2 ⟨_, List.mem_map_of_mem he, ?_⟩)
    rw [hx]
    rfl
  have hcased : ∀ ref ∈ refs, IsCased ref := hrefs ▸ isCased_of_rule (isRuleName_of_rule hshape)
  have hsends : ∀ e ∈ es, ρ.SendsElement (RuleElement.ofShape line e)
      (RuleElement.ofShape line' (e.map w.slice)) :=
    fun e he => sends_element h hρ hcased (hwords e he).name (hmem e he)
  have hdef : ρ.SendsRuleDef
      (RuleDef.ofShapes line name alias? operator es terminated (ix.nextInternalName name.text))
      (RuleDef.ofShapes line' (w.slice name) (alias?.map w.slice) (w.slice operator)
        (es.map (ElementShape.map w.slice)) terminated (ix'.nextInternalName (w.slice name).text)) := by
    refine ⟨hsendsBody, ?_, rfl⟩
    simp only [RuleDef.ofShapes, List.map_map]
    exact forall₂_map_same hsends
  refine ⟨hdef.node, problems_slice h hρ hcased hwords hsends hclean, ?_, ?_⟩
  · rw [RuleDef.reading, RuleDef.reading, RuleDef.settings_register, RuleDef.settings_register]
    exact hix.settings
  · simp only [RuleDef.reading, RuleDef.sequel, hdef.terminated]
    split
    · exact .nothing
    · exact .rule hsendsBody

/-- A line keeps its shape, and its node is read again. -/
theorem sends_read {shape : Shape} (hshape : Shape.of? line.body = some shape)
    (hrefs : (Node.read line ix shape).node.references = refs)
    (hbody : ∀ r, (Node.read line ix shape).node = .rule r → ρ.IsBody r.name.text r.internalName)
    (hclean : (Node.read line ix shape).problems = []) :
    Shape.of? line'.body = some (shape.map w.slice) ∧
      ρ.SendsReading none ρ.SendsNode (Node.read line ix shape) (Node.read line' ix' (shape.map w.slice)) := by
  rw [h.body_eq hρ]
  have hkeeps := fun hcasing => Rewriting.of?_slice (h.fits hρ) line.whole_body hshape hcasing
  cases shape with
  | comment =>
    exact ⟨hkeeps trivial, ⟨.nil, .nil, fun _ => .nil⟩, rfl, hix.settings, .nothing⟩
  | pragma mark name parameters =>
    have hsends := sends_pragma h hρ hix (Shape.pragma?_of_of? hshape) hrefs hclean
    exact ⟨hkeeps trivial, hsends.map⟩
  | token name operator rest =>
    have htoken := Shape.token?_of_of? hshape
    have hsends := sends_token h hρ hix htoken hrefs hclean
    refine ⟨hkeeps ?_, hsends.map⟩
    obtain ⟨_, _, _, hparts, hspelled, -⟩ := Shape.token?_eq_some htoken
    cases hparts
    have hself : (line.lexeme name, .token (line.lexeme name).text) ∈ refs := by
      rw [← hrefs, ← name_read line name operator rest ix]
      exact List.mem_cons_self
    have hname := (h.sendsPart hρ (Shape.token?_words line.whole_body htoken).1 (k := .token) rfl hself).name
    have hnew := hname.isTokenName hρ (by rwa [text_lexeme, isTokenName, String.toList_ofList])
    rwa [text_lexeme, isTokenName, String.toList_ofList] at hnew
  | rule name alias? operator rest =>
    have hrule := Shape.rule?_of_of? hshape
    have hself : (line.lexeme name, .rule (line.lexeme name).text) ∈ refs := by
      rw [← hrefs]
      exact List.mem_cons_self
    have hsends := sends_rule h hρ hix hrule hrefs (hbody _ rfl) hclean
    refine ⟨hkeeps ?_, hsends.map⟩
    have hname := (h.sendsPart hρ (Shape.rule?_words line.whole_body hrule).1 (k := .rule) rfl hself).name
    have hnew := hname.isRuleName hρ (isRuleName_of_rule hrule)
    rwa [text_lexeme, isRuleName, String.toList_ofList] at hnew

omit h hρ hix in
theorem isPlain_implicitFunction : IsPlain implicitFunction := by decide

omit h hρ hix in
/-- Nothing is wrong with the name of a block if all that it names is there. -/
theorem problems_blockName_eq_nil {n : BlockName} :
    n.problems ix = [] ↔ (∀ walker ∈ n.walker?, ix.isDefined (.walker walker.text) = true) ∧
      ∀ named ∈ n.functionKey?, ix.isDefined (.function named.2) = true := by
  rw [BlockName.problems, List.append_eq_nil_iff]
  refine and_congr ?_ ?_
  · cases n.walker? <;> simp
  · cases n.functionKey? <;> simp

/-- The name of a block after a rule. -/
theorem sends_blockName {rule rule' : String} (hrule : ρ.SendsPart .rule rule rule')
    (hrefs : (Node.blockName (BlockName.read line (some rule) ix).node).references = refs)
    (himplied : ∀ key ∈ (BlockName.read line (some rule) ix).node.impliedKey?, ρ.source ≠ .function key)
    (hclean : (BlockName.read line (some rule) ix).problems = []) :
    line'.namesBlock = true ∧
      ρ.SendsReading (some rule) (fun n n' => ρ.SendsNode (.blockName n) (.blockName n'))
        (BlockName.read line (some rule) ix) (BlockName.read line' (some rule') ix') := by
  obtain ⟨walker, function?, hname⟩ := BlockName.read_clean hclean
  obtain ⟨hwalker, hfunction⟩ := Slice.blockName?_words line.whole_body hname
  have hname' := Rewriting.blockName?_slice (h.fits hρ) line.whole_body hname
  rw [← h.body_eq hρ] at hname'
  obtain ⟨-, -, hchars⟩ := Slice.blockName?_eq_some hname'
  refine ⟨by rw [Line.namesBlock, hchars]; rfl, ?_⟩
  rw [BlockName.read_eq hname] at hrefs himplied hclean ⊢
  rw [BlockName.read_eq hname']
  dsimp only at hclean himplied
  obtain ⟨hknown, hdeclared⟩ := problems_blockName_eq_nil.1 hclean
  have hself : (line.lexeme walker, .walker (line.lexeme walker).text) ∈ refs := by
    rw [← hrefs]
    exact List.mem_cons_self
  have hsendsWalker := h.sendsPart hρ hwalker (k := .walker) rfl hself
  have hsends : ρ.Sends (.walker (line.lexeme walker).text)
      (.walker (line'.lexeme (w.slice walker)).text) := hsendsWalker.sends rfl
  have hknown' : ix'.isDefined (.walker (line'.lexeme (w.slice walker)).text) = true :=
    (hix.isDefined hsends (by rintro ⟨⟩)).trans (hknown _ rfl)
  cases function? with
  | none =>
    refine ⟨⟨.cons hsends .nil, .nil, fun _ => .nil⟩, ?_, hix.settings, ?_⟩
    · dsimp only
      refine problems_blockName_eq_nil.2 ⟨?_, by rintro _ ⟨⟩⟩
      rintro _ ⟨⟩
      exact hknown'
    · have hkept : implicitFunction =
          ρ.apply (.function rule (line.lexeme walker).text) implicitFunction :=
        (apply_eq_self (himplied _ rfl)).symm
      have htarget : ρ.SendsTarget (some rule)
          { walker := (line.lexeme walker).text, function := implicitFunction }
          { walker := (line'.lexeme (w.slice walker)).text, function := implicitFunction } :=
        ⟨hsendsWalker, hkept, isPlain_implicitFunction, rfl⟩
      exact .name (.some htarget)
  | some function =>
    have hword := (hfunction function rfl).1
    have hself' : (line.lexeme function, .function
        (functionKey rule (line.lexeme walker).text (line.lexeme function).text)) ∈ refs := by
      rw [← hrefs]
      exact List.mem_cons_of_mem _ List.mem_cons_self
    have hsendsFunction := h.sendsName hρ hword
      (show (Subject.function rule (line.lexeme walker).text).IsSimple from ⟨hrule.plain, hsendsWalker.plain⟩)
      hself'
    have hkey := Sends.function hrule hsendsWalker hsendsFunction
    have hdeclared' := (hix.isDefined hkey (by rintro ⟨⟩)).trans (hdeclared _ rfl)
    refine ⟨⟨.cons hsends (.cons hkey .nil), .nil, fun _ => .nil⟩, ?_, hix.settings, ?_⟩
    · dsimp only
      refine problems_blockName_eq_nil.2 ⟨?_, ?_⟩
      · rintro _ ⟨⟩
        exact hknown'
      · rintro _ ⟨⟩
        exact hdeclared'
    · have hplain : IsPlain (line.lexeme function).text := isPlain_of_word hword
      exact .name (.some ⟨hsendsWalker, hsendsFunction.eq, hplain, rfl⟩)

end

end Renaming

end LineGrammar
