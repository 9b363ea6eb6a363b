import LineGrammar.Proofs.Registration
import LineGrammar.Proofs.Shapes
import LineGrammar.Reading.BlockName

/-! What a whole line does to the index: it enters the definitions of its node, and its node owes
what is waited for. The log of the definitions stays sound. -/

namespace LineGrammar

open Index

/-- What holds of reading a line that gives a node. -/
structure Registers (line : Line) (ix : Index) (r : Reading Node) : Prop where
  buckets : r.index.buckets = addAll r.node.definitions ix.buckets
  quiet : Quiet r.problems
  opens : ∀ block, r.sequel = .body block →
    ∃ p walker, r.node = .pragma p ∧ p.body = .members walker (some block.opening) none ∧
      block.opening.line = line.number ∧ block.isInline = true ∧ block.closing = none ∧
      block.body = []
  sound : ∀ log, ix.Records log → SoundLog log → SoundLog (log ++ r.node.definitions)
  owes : ∀ (missing : Symbol → Bool) (log : List Definition), ix.Records log → SoundLog log →
    r.index.Covered missing →
      r.index.owed missing =
        ix.owed missing ++ (r.node.obligations log).filter fun use => missing use.symbol

theorem registers_comment (line : Line) (ix : Index) :
    Registers line ix { node := .comment line.whole, index := ix } where
  buckets := rfl
  quiet := quiet_nil
  opens := fun _ h => by cases h
  sound := fun log _ h => by simpa [Node.definitions] using h
  owes := fun missing log _ _ _ => by simp [Node.obligations]

theorem Pragma.soundLog_definitions {p : Pragma} {log : List Definition} (h : SoundLog log)
    (hmembers : ∀ walker opening block, p.body ≠ .members walker opening (some block))
    (hfresh : ∀ decl, p.body = .function decl → decl.declared = true →
      ':' ∉ decl.rule.text.toList ∧
        ∀ key, decl.key? = some key → log.any (·.symbol = .function key) = false) :
    SoundLog (log ++ p.definitions) := by
  unfold Pragma.definitions
  split
  · refine h.append ?_ ?_ <;> simp [Definition.Fits, Symbol.walker]
  · next decl hdecl =>
    split
    · next key walker hdeclared hkey hwalker =>
      obtain ⟨hcolon, hnew⟩ := hfresh decl hdecl hdeclared
      refine h.concat ⟨?_, hcolon⟩ (hnew key hkey)
      rw [FunctionDecl.key?, hwalker] at hkey
      cases hkey; rfl
    · simpa using h
  · refine h.append ?_ ?_ <;> simp [Definition.Fits, Symbol.lexerMode]
  · refine h.append ?_ ?_ <;> simp [Definition.Fits, Symbol.walkerInterface]
  · next hbody => exact absurd hbody (hmembers _ _ _)
  · simpa using h

theorem registers_pragma (line : Line) (mark name parameters : Slice) (ix : Index) :
    Registers line ix ((Pragma.read line mark name parameters ix).map .pragma) := by
  have hbody := PragmaBody.sound_readBody line name parameters ix
  rw [Pragma.read_eq]
  dsimp only [Reading.map]
  generalize PragmaBody.readBody line name parameters ix = body at hbody ⊢
  generalize hp : Pragma.ofBody line mark name parameters body.node = p
  have hnode : p.body = body.node := by rw [← hp]; rfl
  refine ⟨?_, hbody.quiet, ?_, ?_, ?_⟩
  · rw [buckets_enterAll, hbody.buckets]; rfl
  · intro block hblock
    obtain ⟨walker, hmembers, hopening, hinline, hclosing⟩ := hbody.opens block hblock
    exact ⟨p, walker, rfl, hnode.trans hmembers, hopening, hinline, hclosing⟩
  · intro log hix hlog
    refine Pragma.soundLog_definitions hlog (by rw [hnode]; exact hbody.bare)
      fun decl hdecl hdeclared => ?_
    obtain ⟨hcolon, hnew⟩ := hbody.fresh decl (hnode.symm.trans hdecl) hdeclared
    exact ⟨hcolon, fun key hkey => by rw [← hix.isDefined]; exact hnew key hkey⟩
  · intro missing log hix hlog hc
    obtain ⟨howed, hc⟩ := hc.enterAll hix hbody.buckets
    rw [howed, hbody.owes missing log hix hlog hc, ← hnode]
    rfl

theorem TokenDef.definitions_eq (t : TokenDef) :
    t.definitions = if t.literal?.isSome && t.terminated then
      [⟨.token t.name.text, t.name.span, t.span, .token ((t.literal?.map Lexeme.text).getD "")⟩]
    else [] := by
  unfold TokenDef.definitions
  cases t.literal? <;> simp

theorem TokenDef.soundLog_definitions (t : TokenDef) {log : List Definition} (h : SoundLog log) :
    SoundLog (log ++ t.definitions) := by
  rw [TokenDef.definitions_eq]
  split
  · refine h.append ?_ ?_ <;> simp [Definition.Fits, Symbol.token]
  · simpa using h

theorem TokenDef.buckets_register (t : TokenDef) (ix : Index) :
    (t.register ix).buckets = addAll t.definitions ix.buckets := by
  unfold TokenDef.register
  dsimp only
  split
  · rw [buckets_mention, buckets_enterAll]
  · exact buckets_enterAll ..

theorem TokenDef.owed_register {missing : Symbol → Bool} (t : TokenDef) {ix : Index}
    {log : List Definition} (hix : ix.Records log) (hc : (t.register ix).Covered missing) :
    (t.register ix).owed missing = ix.owed missing ++
      (t.lexerMode?.toList.map fun mode => (⟨.lexerMode mode.text, mode.span⟩ : Pending)).filter
        fun use => missing use.symbol := by
  have hentered : (ix.enterAll t.definitions).Covered missing :=
    hc.congr (by rw [TokenDef.buckets_register, buckets_enterAll])
  rw [← (hentered.enterAll hix rfl).1]
  unfold TokenDef.register
  dsimp only
  cases t.lexerMode? with
  | none => simp
  | some mode => exact owed_mention (hentered _) _

/-- A definition that counts is registered; one that does not leaves the index alone. -/
theorem TokenDef.read_spec (line : Line) (name operator rest : Slice) (ix : Index) :
    Quiet (TokenDef.read line name operator rest ix).problems ∧
      (TokenDef.read line name operator rest ix).sequel = .nothing ∧
      (TokenDef.read line name operator rest ix).index =
        if (TokenDef.read line name operator rest ix).node.literal?.isSome &&
            (TokenDef.read line name operator rest ix).node.terminated
        then (TokenDef.read line name operator rest ix).node.register ix else ix := by
  unfold TokenDef.read
  dsimp only
  split
  · exact ⟨quiet_of (by simp [Cause.code]) _, rfl, rfl⟩
  · next value _ =>
    refine ⟨quiet_checkTerminator _ _, rfl, ?_⟩
    simp [TokenDef.fill]

theorem registers_token (line : Line) (name operator rest : Slice) (ix : Index) :
    Registers line ix ((TokenDef.read line name operator rest ix).map .token) := by
  obtain ⟨hquiet, hsequel, hindex⟩ := TokenDef.read_spec line name operator rest ix
  generalize TokenDef.read line name operator rest ix = r at hquiet hsequel hindex ⊢
  obtain ⟨t, problems, index, sequel⟩ := r
  dsimp only [Reading.map] at hquiet hsequel hindex ⊢
  subst hsequel
  refine ⟨?_, hquiet, by simp, fun log _ h => t.soundLog_definitions h, ?_⟩
  · rw [Node.definitions, hindex]
    split
    · exact t.buckets_register ix
    · next h => rw [t.definitions_eq, if_neg h]; rfl
  · intro missing log hix _ hc
    rw [hindex] at hc
    rw [Node.obligations, TokenDef.obligations, hindex]
    split at hc
    · next h => rw [if_pos h, if_pos h]; exact t.owed_register hix hc
    · next h => rw [if_neg h, if_neg h]; simp

theorem RuleElement.quiet_problems (anchored : Bool) (es : List RuleElement) :
    Quiet (RuleElement.problems anchored es) := by
  induction es generalizing anchored with
  | nil => exact quiet_nil
  | cons e rest ih =>
    refine Quiet.append (Quiet.append ?_ ?_) (ih _)
    · unfold RuleElement.anchorProblems
      split
      · split
        · exact quiet_of (by simp [Cause.code]) _
        · exact quiet_nil
      · exact quiet_nil
    · unfold RuleElement.nameProblems
      split
      · exact quiet_of (by simp [Cause.code]) _
      · split
        · exact quiet_nil
        · dsimp only
          split <;> split
          all_goals first | exact quiet_nil | exact quiet_of (by simp [Cause.code]) _

namespace RuleDef

theorem buckets_mentionElement (r : RuleDef) (ix : Index) (e : RuleElement) :
    (r.mentionElement ix e).buckets = ix.buckets := by
  unfold mentionElement
  split
  · rfl
  · split
    · rfl
    · exact buckets_mention ..

theorem buckets_awaitBlock (r : RuleDef) (ix : Index) (d : Definition) :
    (r.awaitBlock ix d).buckets = ix.buckets := by
  unfold awaitBlock
  split
  · split <;> rfl
  · rfl

theorem buckets_register (r : RuleDef) (ix : Index) :
    (r.register ix).buckets = addAll [r.definition] ix.buckets := by
  have hentered : ((r.elements.foldl r.mentionElement ix).enter r.definition).buckets =
      addAll [r.definition] ix.buckets := by
    rw [buckets_enter, foldl_buckets (buckets_mentionElement r)]; rfl
  unfold register
  dsimp only
  split
  · exact hentered
  · rw [foldl_buckets (buckets_awaitBlock r), hentered]

theorem soundLog_definition (r : RuleDef) {log : List Definition} (h : SoundLog log) :
    SoundLog (log ++ [r.definition]) := by
  refine h.append ?_ ?_ <;> simp [Definition.Fits, definition, Symbol.rule]

section
variable {missing : Symbol → Bool}

/-- The rule itself counts as one of the uses, but it is not missing. -/
theorem owed_elements (r : RuleDef) {ix : Index} (hc : ix.Covered missing)
    (hself : missing (.rule r.name.text) = false) :
    (r.elements.foldl r.mentionElement ix).owed missing =
      ix.owed missing ++ r.owedElements.filter fun use => missing use.symbol := by
  rw [owedElements_eq]
  refine owed_foldl (buckets_mentionElement r) (fun ix' e h => ?_) r.elements rfl
  unfold mentionElement
  cases e.symbol? with
  | none => simp
  | some s =>
    dsimp only
    split
    · next hs => simp [hs, hself]
    · rw [owed_mention ((hc.congr h) s)]; rfl

/-- The block of a function of the rule, unless the walker is implemented from outside. -/
def awaited? (r : RuleDef) (log : List Definition) (d : Definition) : Option Pending :=
  match d.detail with
  | .function _ walker function _ =>
    if hasInterface log walker then none
    else some ⟨.codeBlock (blockKey (some r.internalName) walker function), r.name.span⟩
  | _ => none

theorem owed_blocks (r : RuleDef) {ix : Index} {log : List Definition} (hix : ix.Records log)
    (hlog : SoundLog log) (hname : ':' ∉ r.name.text.toList) :
    ((ix.functionsOfRule r.name.text).foldl r.awaitBlock ix).owed missing =
      ix.owed missing ++
        (log.filterMap (r.owedBlock? log)).filter fun use => missing use.symbol := by
  have hstep : ∀ ix' d, ix'.buckets = ix.buckets →
      (r.awaitBlock ix' d).owed missing = ix'.owed missing ++
        (r.awaited? log d).toList.filter fun use => missing use.symbol := by
    intro ix' d h
    cases hd : d.detail with
    | function rule walker function signature =>
      simp only [awaitBlock, awaited?, hd]
      rw [interfaceOf_congr h, hix.interfaceOf_isSome hlog]
      split
      · simp
      · exact owed_await ..
    | _ => simp [awaitBlock, awaited?, hd]
  rw [owed_foldl (buckets_awaitBlock r) hstep _ rfl, hix.functionsOfRule hlog hname,
    List.filterMap_filter]
  congr 3
  funext d
  cases hd : d.detail with
  | function rule walker function signature =>
    by_cases hrule : rule = r.name.text <;> cases hi : hasInterface log walker <;>
      simp [owedBlock?, awaited?, hd, hrule, hi]
  | _ => simp [owedBlock?, hd]

/-- The rule's own definition asks for nothing. -/
theorem filterMap_owedBlock?_concat (r : RuleDef) (log : List Definition) :
    (log ++ [r.definition]).filterMap (r.owedBlock? (log ++ [r.definition])) =
      log.filterMap (r.owedBlock? log) := by
  have hinterface : hasInterface (log ++ [r.definition]) = hasInterface log := by
    funext walker
    simp [hasInterface, definition, Symbol.rule, Symbol.walkerInterface]
  have howed : r.owedBlock? (log ++ [r.definition]) = r.owedBlock? log := by
    funext d
    simp only [owedBlock?, hinterface]
  rw [howed, List.filterMap_append]
  simp [owedBlock?, definition]

theorem owed_register (r : RuleDef) {ix : Index} {log : List Definition} (hix : ix.Records log)
    (hlog : SoundLog log) (hname : ':' ∉ r.name.text.toList)
    (hc : (r.register ix).Covered missing) :
    (r.register ix).owed missing =
      ix.owed missing ++ (r.obligations log).filter fun use => missing use.symbol := by
  have hafter : (r.register ix).Records (log ++ [r.definition]) :=
    hix.append (r.buckets_register ix)
  have hself : missing (.rule r.name.text) = false :=
    hc.of_mem hafter (List.mem_append_right _ (List.mem_singleton.2 rfl))
  have helements := r.owed_elements (.of_records hix hafter hc) hself
  have hentered : ((r.elements.foldl r.mentionElement ix).enter r.definition).Records
      (log ++ [r.definition]) :=
    hix.append (by rw [buckets_enter, foldl_buckets (buckets_mentionElement r)]; rfl)
  unfold register obligations
  dsimp only
  split
  · rw [owed_enter hself, helements, List.append_nil]
  · rw [owed_blocks r hentered (r.soundLog_definition hlog) hname, owed_enter hself, helements,
      r.filterMap_owedBlock?_concat, List.append_assoc, ← List.filter_append]

end

end RuleDef

theorem registers_rule (line : Line) (name : Slice) (alias? : Option Slice)
    (operator rest : Slice) (ix : Index) (hname : ':' ∉ name.chars) :
    Registers line ix ((RuleDef.read line name alias? operator rest ix).map .rule) := by
  unfold RuleDef.read
  dsimp only [Reading.map]
  generalize hr : RuleDef.mk .. = r
  have hcolon : ':' ∉ r.name.text.toList := by
    rw [← hr]; simpa [Line.lexeme, Slice.lexeme, Slice.text] using hname
  refine ⟨r.buckets_register ix, Quiet.append ?_ (RuleElement.quiet_problems _ _), ?_,
    fun log _ h => r.soundLog_definition h,
    fun missing log hix hlog hc => r.owed_register hix hlog hcolon hc⟩
  · split
    · exact quiet_nil
    · exact quiet_of (by simp [Cause.code]) _
  · by_cases hterminated : r.terminated = true <;> simp [RuleDef.sequel, hterminated]

theorem colon_not_mem_of_isRuleName {cs : List Char}
    (h : isSpelled isRuleStart isNameChar cs = true) : ':' ∉ cs := by
  have hstart : ∀ c, isRuleStart c = true → isNameChar c = true := by
    intro c hc
    simp only [isRuleStart] at hc
    simp [isNameChar, isAlphanum_eq, isAlpha_eq, hc]
  exact fun hm => absurd (isSpelled_mem hstart h ':' hm) (by decide)

theorem registers_read {line : Line} {ix : Index} {s : Slice} {shape : Shape}
    (h : Shape.of? s = some shape) : Registers line ix (Node.read line ix shape) := by
  rcases Shape.of?_eq_some h with h | h | h | h
  · obtain ⟨rfl, -⟩ := Shape.comment?_eq_some h
    exact registers_comment line ix
  · obtain ⟨mark, name, params, rfl, -⟩ := Shape.pragma?_eq_some h
    exact registers_pragma line mark name params ix
  · obtain ⟨name, operator, rest, rfl, -⟩ := Shape.token?_eq_some h
    exact registers_token line name operator rest ix
  · obtain ⟨name, alias?, operator, rest, rfl, hname, -⟩ := Shape.rule?_eq_some h
    exact registers_rule line name alias? operator rest ix (colon_not_mem_of_isRuleName hname)

theorem registers_blockName (line : Line) (rule? : Option String) (ix : Index) :
    Registers line ix ((BlockName.read line rule? ix).map .blockName) := by
  have hproblems : ∀ n : BlockName, Quiet (n.problems ix) := by
    intro n
    refine Quiet.append ?_ ?_ <;> split
    any_goals exact quiet_nil
    all_goals
      split
      · exact quiet_nil
      · exact quiet_of (by simp [Cause.code]) _
  unfold BlockName.read
  dsimp only
  split
  · exact ⟨rfl, quiet_of (by simp [Cause.code]) _, by simp [Reading.map],
      fun log _ h => by simpa [Reading.map, Node.definitions] using h,
      fun missing log _ _ _ => by simp [Reading.map, Node.obligations]⟩
  · refine ⟨rfl, ?_, by simp [Reading.map],
      fun log _ h => by simpa [Reading.map, Node.definitions] using h,
      fun missing log _ _ _ => by simp [Reading.map, Node.obligations]⟩
    dsimp only [Reading.map]
    exact hproblems _

end LineGrammar
