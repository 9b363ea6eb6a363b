import LineGrammar.Proofs.Renaming

/-! Definitions under a renaming. Each definition is followed by one of the renamed symbol, in the same
order, so every look-up in a renamed index answers as before. -/

namespace LineGrammar

namespace Renaming

variable {ρ : Renaming}

/-- What the detail of a definition becomes; literals, types and signatures play no part. -/
inductive SendsDetail (ρ : Renaming) : Symbol → Symbol → Detail → Detail → Prop
  | plain {s t : Symbol} : ρ.SendsDetail s t .plain .plain
  | token {s t : Symbol} (literal literal' : String) :
    ρ.SendsDetail s t (.token literal) (.token literal')
  | rule {rule rule' body body' : String} (h : ρ.SendsBodyName rule rule' body body')
    (expectsBlocks : Bool) :
    ρ.SendsDetail (.rule rule) (.rule rule') (.rule body expectsBlocks) (.rule body' expectsBlocks)
  | function {s t : Symbol} {rule rule' walker walker' x y : String} (signature signature' : String)
    (hrule : ρ.SendsPart .rule rule rule') (hwalker : ρ.SendsPart .walker walker walker')
    (h : ρ.SendsName (.function rule walker) x y) (hplain : IsPlain x) :
    ρ.SendsDetail s t (.function rule walker x signature) (.function rule' walker' y signature')
  | interface {s t : Symbol} (typeName typeName' : String) :
    ρ.SendsDetail s t (.walkerInterface typeName) (.walkerInterface typeName')

structure SendsDefinition (ρ : Renaming) (d d' : Definition) : Prop where
  symbol : ρ.Sends d.symbol d'.symbol
  detail : ρ.SendsDetail d.symbol d'.symbol d.detail d'.detail

abbrev SendsDefinitions (ρ : Renaming) : List Definition → List Definition → Prop :=
  List.Forall₂ ρ.SendsDefinition

theorem SendsDefinition.expectsBlocks_eq {d d' : Definition} (h : ρ.SendsDefinition d d') :
    d'.expectsBlocks = d.expectsBlocks := by
  obtain ⟨symbol, span, fullSpan, detail⟩ := d
  obtain ⟨symbol', span', fullSpan', detail'⟩ := d'
  cases h.detail <;> rfl

/-- A definition that takes blocks is a body of a rule. -/
theorem SendsDefinition.body {d d' : Definition} (h : ρ.SendsDefinition d d')
    (hexpects : d.expectsBlocks = true) :
    ∃ rule rule', d.symbol = .rule rule ∧ d'.symbol = .rule rule' ∧
      ρ.SendsBodyName rule rule' d.internalName d'.internalName := by
  obtain ⟨symbol, span, fullSpan, detail⟩ := d
  obtain ⟨symbol', span', fullSpan', detail'⟩ := d'
  cases h.detail with
  | rule hbody expectsBlocks => exact ⟨_, _, rfl, rfl, hbody⟩
  | _ => cases hexpects

section
variable {log log' : List Definition} (h : ρ.SendsDefinitions log log')
include h

theorem SendsDefinitions.filter {s t : Symbol} (hs : ρ.Sends s t) (hblock : s.kind ≠ .codeBlock) :
    ρ.SendsDefinitions (log.filter (·.symbol = s)) (log'.filter (·.symbol = t)) := by
  refine List.rel_filter (fun d d' hd => ?_) h
  simpa using hd.symbol.inj hs hblock

theorem SendsDefinitions.any_eq {s t : Symbol} (hs : ρ.Sends s t) (hblock : s.kind ≠ .codeBlock) :
    (log'.any (·.symbol = t)) = log.any (·.symbol = s) := by
  induction h with
  | nil => rfl
  | cons hd hrest ih => simp only [List.any_cons, ih, hd.symbol.inj hs hblock]

/-- What is defined stays so, blocks as well. -/
theorem SendsDefinitions.any_of_any (hρ : ρ.Valid) {s t : Symbol} (hs : ρ.Sends s t)
    (hany : log.any (·.symbol = s) = true) : log'.any (·.symbol = t) = true := by
  induction h with
  | nil => cases hany
  | @cons d d' rest rest' hd hrest ih =>
    rw [List.any_cons, Bool.or_eq_true, decide_eq_true_eq] at hany ⊢
    refine hany.imp ?_ ih
    rintro rfl
    exact hd.symbol.congr hρ hs

theorem SendsDefinitions.hasInterface_eq {x y : String} (hx : ρ.SendsPart .walker x y) :
    hasInterface log' y = hasInterface log x :=
  h.any_eq (.interface hx) (by simp [Symbol.walkerInterface])

end

structure SendsSettings (ρ : Renaming) (s s' : Settings) : Prop where
  className : s'.className.isSome = s.className.isSome
  walkersDeclared : s'.walkersDeclared = s.walkersDeclared
  defaultWalker : Option.Rel (ρ.SendsPart .walker) s.defaultWalker s'.defaultWalker
  defaultWalkerSpecified : s'.defaultWalkerSpecified = s.defaultWalkerSpecified

/-- The two indexes record definitions that follow each other. -/
structure SendsIndex (ρ : Renaming) (ix ix' : Index) : Prop where
  records : ∃ log log', ix.Records log ∧ SoundLog log ∧ ix'.Records log' ∧ SoundLog log' ∧
    ρ.SendsDefinitions log log'
  settings : ρ.SendsSettings ix.settings ix'.settings

section
variable {ix ix' : Index} (h : ρ.SendsIndex ix ix')
include h

theorem SendsIndex.definitionsOf {s t : Symbol} (hs : ρ.Sends s t) (hblock : s.kind ≠ .codeBlock) :
    ρ.SendsDefinitions (ix.definitionsOf s) (ix'.definitionsOf t) := by
  obtain ⟨log, log', hix, -, hix', -, hlog⟩ := h.records
  rw [hix.definitionsOf, hix'.definitionsOf]
  exact hlog.filter hs hblock

theorem SendsIndex.isDefined {s t : Symbol} (hs : ρ.Sends s t) (hblock : s.kind ≠ .codeBlock) :
    ix'.isDefined t = ix.isDefined s := by
  obtain ⟨log, log', hix, -, hix', -, hlog⟩ := h.records
  rw [hix.isDefined, hix'.isDefined]
  exact hlog.any_eq hs hblock

theorem SendsIndex.isDefined_of_isDefined (hρ : ρ.Valid) {s t : Symbol} (hs : ρ.Sends s t)
    (hdefined : ix.isDefined s = true) : ix'.isDefined t = true := by
  obtain ⟨log, log', hix, -, hix', -, hlog⟩ := h.records
  rw [hix.isDefined] at hdefined
  rw [hix'.isDefined]
  exact hlog.any_of_any hρ hs hdefined

theorem SendsIndex.interfaceOf {x y : String} (hx : ρ.SendsPart .walker x y) :
    (ix'.interfaceOf y).isSome = (ix.interfaceOf x).isSome := by
  obtain ⟨log, log', hix, hsound, hix', hsound', hlog⟩ := h.records
  rw [hix.interfaceOf_isSome hsound, hix'.interfaceOf_isSome hsound']
  exact hlog.hasInterface_eq hx

/-- The next body of a rule has the same number in both. -/
theorem SendsIndex.nextInternalName {rule rule' : String} (hrule : ρ.SendsPart .rule rule rule')
    (hbody : ρ.IsBody rule (ix.nextInternalName rule)) :
    ρ.SendsBodyName rule rule' (ix.nextInternalName rule) (ix'.nextInternalName rule') where
  name := hrule
  known := hbody
  numbered := by
    have hcount : ix'.ruleCount rule' = ix.ruleCount rule :=
      (h.definitionsOf (hrule.sends rfl) (by simp)).length_eq.symm
    exact ⟨_, ix.nextInternalName_eq rule, by rw [ix'.nextInternalName_eq, hcount]⟩

end

end Renaming

end LineGrammar
