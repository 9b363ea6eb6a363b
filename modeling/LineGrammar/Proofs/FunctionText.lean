import LineGrammar.Proofs.Collapse
import LineGrammar.Proofs.Recognition
import LineGrammar.Proofs.Scanners

/-! The text of a function declaration. What the reader accepts is exactly the text of one of
these, for any blanks in its gaps, and collapsing gives the text of another one that differs in
nothing but blanks. -/

namespace LineGrammar

/-- The parts of a declaration in order, with the blanks that separate them. -/
structure FunctionText where
  rule : List Char
  afterRule : List Char
  walker? : Option (List Char)
  function : List Char
  afterFunction : List Char
  parameters : List Char
  beforeArrow : List Char
  afterArrow : List Char
  returnType : List Char
  afterType : List Char
  terminated : Bool

/-- The walker with the mark that follows it. -/
def qualifierText : Option (List Char) → List Char
  | some walker => walker ++ [':', ':']
  | none => []

namespace FunctionText

def typeText (f : FunctionText) : List Char :=
  f.returnType ++ f.afterType ++ Slice.terminator f.terminated

def arrowText (f : FunctionText) : List Char :=
  f.beforeArrow ++ ['-', '>'] ++ (f.afterArrow ++ f.typeText)

def callText (f : FunctionText) : List Char :=
  f.afterFunction ++ ['('] ++ (f.parameters ++ ([')'] ++ f.arrowText))

def text (f : FunctionText) : List Char :=
  f.rule ++ (f.afterRule ++ (qualifierText f.walker? ++ (f.function ++ f.callText)))

structure Valid (f : FunctionText) : Prop where
  rule : IsNameText f.rule
  gap : f.afterRule ≠ []
  walker : ∀ walker, f.walker? = some walker → IsNameText walker
  function : IsNameText f.function
  parameters : ∀ c ∈ f.parameters, (c != '(' && c != ')') = true
  returnType : isSpelled isNameStart isTypeChar f.returnType = true
  typeLast : ∀ c ∈ f.returnType.getLast?, isBlank c = false
  afterRule : ∀ c ∈ f.afterRule, isBlank c = true
  afterFunction : ∀ c ∈ f.afterFunction, isBlank c = true
  beforeArrow : ∀ c ∈ f.beforeArrow, isBlank c = true
  afterArrow : ∀ c ∈ f.afterArrow, isBlank c = true
  afterType : ∀ c ∈ f.afterType, isBlank c = true

end FunctionText

/-- The slices of a declaration hold the parts of a text. -/
structure FunctionShape.Holds (shape : FunctionShape) (f : FunctionText) : Prop where
  rule : shape.rule.chars = f.rule
  walker : shape.walker?.map Slice.chars = f.walker?
  function : shape.function.chars = f.function
  parameters : shape.parameters.chars = f.parameters
  returnType : shape.returnType.chars = f.returnType
  terminated : shape.terminated = f.terminated

namespace Slice

theorem qualifier?_eq_some {s walker rest : Slice} (h : s.qualifier? = some (walker, rest)) :
    IsNameText walker.chars ∧ s.chars = walker.chars ++ [':', ':'] ++ rest.chars := by
  obtain ⟨s₁, mark, hname, hmark⟩ := qualifier?_steps.1 h
  obtain ⟨hcut, htext, -⟩ := name?_eq_some hname
  obtain ⟨hcut', hmark⟩ := accept?_eq_some hmark
  refine ⟨htext, ?_⟩
  rw [hcut.chars, hcut'.chars, hmark, List.append_assoc]
  rfl

theorem optional_qualifier? (s : Slice) :
    (∀ walker ∈ (s.optional qualifier?).1, IsNameText walker.chars) ∧
      s.chars = qualifierText ((s.optional qualifier?).1.map Slice.chars) ++
        (s.optional qualifier?).2.chars := by
  unfold optional
  cases h : s.qualifier? with
  | none => exact ⟨by simp, rfl⟩
  | some found =>
    obtain ⟨walker, rest⟩ := found
    obtain ⟨hname, hchars⟩ := qualifier?_eq_some h
    exact ⟨by simpa using hname, hchars⟩

theorem chars_splitWhile (p : Char → Bool) (s : Slice) :
    s.chars = (s.splitWhile p).1.chars ++ (s.splitWhile p).2.chars := by
  rw [chars_splitWhile_fst, chars_splitWhile_snd, List.takeWhile_append_dropWhile]

theorem functionParameters?_eq_some {s : Slice} {shape : FunctionShape}
    (h : s.functionParameters? = some shape) :
    ∃ f : FunctionText, f.Valid ∧ s.chars = f.text ∧ shape.Holds f := by
  obtain ⟨rule, s₁, s₂, function, s₃, opening, s₄, closing, s₅, arrow, s₆, hrule, hgap, hfunction,
    hopening, hclosing, harrow, htype, rfl⟩ := functionParameters?_steps.1 h
  obtain ⟨hcut, hname, -⟩ := name?_eq_some hrule
  obtain ⟨rfl, gap, hne, hgap, hs₁⟩ := blanks?_eq_some hgap
  obtain ⟨hwalker, hs₂⟩ := optional_qualifier? s₁.trimStart
  obtain ⟨hcut₃, hname', -⟩ := name?_eq_some hfunction
  obtain ⟨bl₃, hbl₃, hs₃⟩ := exists_trimStart s₃
  obtain ⟨hcut₄, hopen⟩ := accept?_eq_some hopening
  have hs₄ := chars_splitWhile (fun c => c != '(' && c != ')') s₄
  obtain ⟨hcut₅, hclose⟩ := accept?_eq_some hclosing
  obtain ⟨bl₅, hbl₅, hs₅⟩ := exists_trimStart s₅
  obtain ⟨hcut₆, hmark⟩ := accept?_eq_some harrow
  obtain ⟨bl₆, hbl₆, hs₆⟩ := exists_trimStart s₆
  obtain ⟨bl₇, hbl₇, hs₇, hlast⟩ := cutTerminator_spec s₆.trimStart
  refine ⟨{ rule := rule.chars
            afterRule := gap
            walker? := (s₁.trimStart.optional qualifier?).1.map Slice.chars
            function := function.chars
            afterFunction := bl₃
            parameters := (s₄.splitWhile fun c => c != '(' && c != ')').1.chars
            beforeArrow := bl₅
            afterArrow := bl₆
            returnType := s₆.trimStart.cutTerminator.1.chars
            afterType := bl₇
            terminated := s₆.trimStart.cutTerminator.2 }, ?_, ?_, ?_⟩
  · refine ⟨hname, hne, ?_, hname', ?_, htype, hlast, hgap, hbl₃, hbl₅, hbl₆, hbl₇⟩
    · intro walker hw
      obtain ⟨found, hfound, rfl⟩ := Option.map_eq_some_iff.1 hw
      exact hwalker found hfound
    · rw [chars_splitWhile_fst]; exact List.all_eq_true.1 List.all_takeWhile
  · simp only [FunctionText.text, FunctionText.callText, FunctionText.arrowText,
      FunctionText.typeText]
    rw [hcut.chars, hs₁, hs₂, hcut₃.chars, hs₃, hcut₄.chars, hopen, hs₄, hcut₅.chars, hclose, hs₅,
      hcut₆.chars, hmark, hs₆, hs₇]
    simp only [List.append_assoc]
    rfl
  · exact ⟨rfl, rfl, rfl, rfl, rfl, rfl⟩

theorem isTypeChar_of_isNameStart {c : Char} (h : isNameStart c = true) : isTypeChar c = true := by
  simp [isTypeChar, isNameChar_of_isNameStart h]

section
variable {f : FunctionText} (hf : f.Valid)
include hf

theorem head_callText : ∀ c ∈ f.callText.head?, isNameChar c = false ∧ c ≠ ':' := by
  simp only [FunctionText.callText, List.append_assoc]
  refine head_blanks_append hf.afterFunction (fun c hc => ⟨isNameChar_of_isBlank hc, ?_⟩) ?_
  · rintro rfl; exact absurd hc (by decide)
  · simp; decide

theorem head_qualified :
    ∀ c ∈ (qualifierText f.walker? ++ (f.function ++ f.callText)).head?, isBlank c = false := by
  cases hwalker : f.walker? with
  | none => exact hf.function.head_solid _
  | some walker =>
    rw [qualifierText, List.append_assoc]
    exact (hf.walker walker hwalker).head_solid _

theorem not_mem_returnType {c : Char} (hc : isTypeChar c = false) : c ∉ f.returnType :=
  fun h => absurd (isSpelled_mem (fun _ => isTypeChar_of_isNameStart) hf.returnType c h) (by simp [hc])

theorem head_typeText : ∀ c ∈ f.typeText.head?, isBlank c = false := by
  cases htype : f.returnType with
  | nil => exact absurd htype (isSpelled_ne_nil hf.returnType)
  | cons c cs =>
    have hspelled := hf.returnType
    rw [htype] at hspelled
    have hc := isBlank_of_isNameChar (isNameChar_of_isNameStart (isSpelled_cons.1 hspelled).1)
    simpa [FunctionText.typeText, htype] using hc

theorem optional_append (column : Nat) :
    ∃ walker? : Option Slice, walker?.map Slice.chars = f.walker? ∧
      (⟨column, qualifierText f.walker? ++ (f.function ++ f.callText)⟩ : Slice).optional qualifier? =
        (walker?, ⟨column + (qualifierText f.walker?).length, f.function ++ f.callText⟩) := by
  have hcall := head_callText hf
  cases hwalker : f.walker? with
  | none =>
    refine ⟨none, rfl, ?_⟩
    have hname := name?_append column hf.function fun c hc => (hcall c hc).1
    have hmark : (⟨column + f.function.length, f.callText⟩ : Slice).accept? "::" = none :=
      accept?_eq_none_of_head rfl fun h => (hcall ':' h).2 rfl
    simp [optional, qualifierText, qualifier?, hname, hmark]
  | some walker =>
    refine ⟨some ⟨column, walker⟩, rfl, ?_⟩
    have hname := name?_append (r := "::".toList ++ (f.function ++ f.callText)) column
      (hf.walker walker hwalker) (by simp; decide)
    have hmark := accept?_append "::" (column + walker.length) (f.function ++ f.callText)
    have htext : qualifierText (some walker) ++ (f.function ++ f.callText) =
        walker ++ ("::".toList ++ (f.function ++ f.callText)) := by simp [qualifierText]
    rw [htext, optional, qualifier?_steps.2 ⟨_, _, hname, hmark⟩]
    simp [qualifierText, Nat.add_assoc]

theorem functionParameters?_text (column : Nat) :
    ∃ shape, (⟨column, f.text⟩ : Slice).functionParameters? = some shape ∧ shape.Holds f := by
  have hname := name?_append (r := f.afterRule ++ (qualifierText f.walker? ++
    (f.function ++ f.callText))) column hf.rule <| by
      obtain ⟨b, bl, hb⟩ := List.exists_cons_of_ne_nil hf.gap
      have hblank := hf.afterRule b (by simp [hb])
      simpa [hb] using isNameChar_of_isBlank hblank
  have hgap := blanks?_append (r := qualifierText f.walker? ++ (f.function ++ f.callText))
    (column + f.rule.length) hf.gap hf.afterRule (head_qualified hf)
  obtain ⟨walker?, hwalker, hopt⟩ := optional_append hf
    (column + f.rule.length + f.afterRule.length)
  generalize column + f.rule.length + f.afterRule.length + (qualifierText f.walker?).length = col₁
    at hopt
  have hname' := name?_append (r := f.callText) col₁ hf.function
    fun c hc => (head_callText hf c hc).1
  have hcall : f.callText =
      f.afterFunction ++ ("(".toList ++ (f.parameters ++ (")".toList ++ f.arrowText))) := by
    simp [FunctionText.callText]
  have htrim := trimStart_append (r := "(".toList ++ (f.parameters ++ (")".toList ++ f.arrowText)))
    (col₁ + f.function.length) hf.afterFunction (by simp; decide)
  rw [← hcall] at htrim
  have hopen := accept?_append "(" (col₁ + f.function.length + f.afterFunction.length)
    (f.parameters ++ (")".toList ++ f.arrowText))
  generalize col₁ + f.function.length + f.afterFunction.length + "(".toList.length = col₂ at hopen
  have hsplit := splitWhile_append (r := ")".toList ++ f.arrowText) col₂ hf.parameters (by simp)
  have hclose := accept?_append ")" (col₂ + f.parameters.length) f.arrowText
  generalize col₂ + f.parameters.length + ")".toList.length = col₃ at hclose
  have harrow : f.arrowText = f.beforeArrow ++ ("->".toList ++ (f.afterArrow ++ f.typeText)) := by
    simp [FunctionText.arrowText]
  have htrim' := trimStart_append (r := "->".toList ++ (f.afterArrow ++ f.typeText)) col₃
    hf.beforeArrow (by simp; decide)
  rw [← harrow] at htrim'
  have hmark := accept?_append "->" (col₃ + f.beforeArrow.length) (f.afterArrow ++ f.typeText)
  generalize col₃ + f.beforeArrow.length + "->".toList.length = col₄ at hmark
  have htrim'' := trimStart_append (r := f.typeText) col₄ hf.afterArrow (head_typeText hf)
  have hcut := cutTerminator_append (col₄ + f.afterArrow.length) f.terminated hf.typeLast
    hf.afterType fun _ h => not_mem_returnType hf (by decide) (List.mem_of_getLast? h)
  refine ⟨⟨⟨column, f.rule⟩, walker?, ⟨col₁, f.function⟩, ⟨col₂, f.parameters⟩,
    ⟨col₄ + f.afterArrow.length, f.returnType⟩, f.terminated⟩, ?_, rfl, hwalker, rfl, rfl, rfl, rfl⟩
  rw [← htrim] at hopen
  rw [← htrim'] at hmark
  refine functionParameters?_steps.2 ⟨_, _, _, _, _, _, _, _, _, _, _, hname, hgap, by rw [hopt]; exact hname',
    hopen, by rw [hsplit]; exact hclose, hmark, ?_, ?_⟩
  · rw [htrim'', FunctionText.typeText, hcut]
    exact hf.returnType
  · rw [hopt, hsplit, htrim'', FunctionText.typeText, hcut]

end

theorem squeeze_terminator_end (gap : Bool) (cs : List Char) {bl : List Char}
    (hbl : ∀ c ∈ bl, isBlank c = true) (terminated : Bool) :
    Text.squeeze gap (cs ++ bl ++ terminator terminated) =
      Text.squeeze gap cs ++ terminator terminated := by
  rw [List.append_assoc]
  refine Text.squeeze_append_end (fun gap => ?_) gap cs
  rw [Text.squeeze_blanks hbl]
  cases terminated with
  | false => rfl
  | true => exact Text.squeeze_terminator _ []

end Slice

namespace FunctionText

/-- The same declaration, but for blanks. -/
structure Like (g f : FunctionText) : Prop where
  rule : g.rule = f.rule
  walker : g.walker? = f.walker?
  function : g.function = f.function
  parameters : Text.dense g.parameters = Text.dense f.parameters
  returnType : Text.dense g.returnType = Text.dense f.returnType
  terminated : g.terminated = f.terminated

/-- The declaration with its gaps made small, and with these parameters. -/
def tight (f : FunctionText) (parameters : List Char) : FunctionText :=
  { f with
    afterRule := [' ']
    afterFunction := Text.gapText f.afterFunction
    parameters
    beforeArrow := Text.gapText f.beforeArrow
    afterArrow := Text.gapText f.afterArrow
    returnType := Text.squeeze false f.returnType
    afterType := [] }

variable {f : FunctionText} (hf : f.Valid)
include hf

theorem squeeze_returnType :
    isSpelled isNameStart isTypeChar (Text.squeeze false f.returnType) = true := by
  obtain ⟨c, cs, hcs⟩ := List.exists_cons_of_ne_nil (isSpelled_ne_nil hf.returnType)
  have hspelled := hf.returnType
  rw [hcs] at hspelled
  obtain ⟨hc, hrest⟩ := isSpelled_cons.1 hspelled
  rw [hcs, Text.squeeze_inside (isBlank_of_isNameChar (isNameChar_of_isNameStart hc))]
  refine isSpelled_cons.2 ⟨hc, fun d hd => ?_⟩
  rcases Text.mem_squeeze hd with ⟨hd, -⟩ | rfl
  · exact hrest d hd
  · decide

theorem collapse_text :
    Text.collapse f.text = f.rule ++ ([' '] ++ (qualifierText f.walker? ++
      (f.function ++ Text.squeeze false f.callText))) := by
  have hqualifier : ∀ c ∈ qualifierText f.walker?, isBlank c = false ∧ c ≠ ';' := by
    cases hwalker : f.walker? with
    | none => simp [qualifierText]
    | some walker =>
      intro c hc
      rcases List.mem_append.1 hc with hc | hc
      · exact (hf.walker walker hwalker).plain c hc
      · simp only [List.mem_cons, List.not_mem_nil, or_false, or_self] at hc
        rw [hc]; decide
  have hword : ∀ c ∈ qualifierText f.walker? ++ f.function, isBlank c = false ∧ c ≠ ';' := by
    intro c hc
    rcases List.mem_append.1 hc with hc | hc
    · exact hqualifier c hc
    · exact hf.function.plain c hc
  have hgap : Text.gapText f.afterRule = [' '] := by
    obtain ⟨b, bl, hb⟩ := List.exists_cons_of_ne_nil hf.gap
    rw [hb]; rfl
  have hsqueeze := Text.squeeze_gap_word hf.afterRule
    (w := qualifierText f.walker? ++ f.function) (by simp [isSpelled_ne_nil hf.function])
    (fun c hc => (hword c hc).1) (fun h => (hword ';' (List.mem_of_mem_head? h)).2 rfl) f.callText
  rw [hgap, List.append_assoc, List.append_assoc] at hsqueeze
  rw [text, Text.collapse_eq_of_head (hf.rule.head_solid _), Text.squeeze_word hf.rule.solid,
    hsqueeze]

theorem squeeze_callText :
    Text.squeeze false f.callText = Text.gapText f.afterFunction ++
      '(' :: Text.squeeze false (f.parameters ++ ')' :: f.arrowText) := by
  have h := Text.squeeze_gap hf.afterFunction (c := '(') (by decide) (by decide)
    (f.parameters ++ ')' :: f.arrowText)
  rw [← h]; simp [callText]

theorem squeeze_arrowText :
    Text.squeeze false f.arrowText = Text.gapText f.beforeArrow ++ (['-', '>'] ++
      (Text.gapText f.afterArrow ++ (Text.squeeze false f.returnType ++
        Slice.terminator f.terminated))) := by
  obtain ⟨c, cs, hcs⟩ := List.exists_cons_of_ne_nil (isSpelled_ne_nil hf.returnType)
  have hspelled := hf.returnType
  rw [hcs] at hspelled
  have hname := isNameChar_of_isNameStart (isSpelled_cons.1 hspelled).1
  have htype : f.typeText = c :: (cs ++ f.afterType ++ Slice.terminator f.terminated) := by
    simp [typeText, hcs]
  have hgap := Text.squeeze_gap hf.afterArrow (isBlank_of_isNameChar hname)
    (by rintro rfl; exact absurd hname (by decide))
    (cs ++ f.afterType ++ Slice.terminator f.terminated)
  rw [← Text.squeeze_inside (isBlank_of_isNameChar hname), ← htype] at hgap
  have harrow := Text.squeeze_gap_word hf.beforeArrow (w := ['-', '>']) (by simp)
    (solid_pair (by decide) (by decide)) (by decide) (f.afterArrow ++ f.typeText)
  rw [arrowText, List.append_assoc, harrow, hgap, typeText,
    Slice.squeeze_terminator_end false _ hf.afterType]

/-- Parameters are collapsed together with the mark after them. -/
theorem exists_tight : ∃ parameters, Text.dense parameters = Text.dense f.parameters ∧
    (∀ rest, Text.squeeze false (f.parameters ++ ')' :: rest) =
      parameters ++ ')' :: Text.squeeze false rest) ∧
    (f.tight parameters).Valid ∧ Text.collapse f.text = (f.tight parameters).text := by
  obtain ⟨front, hdense, hmem, hfront⟩ :=
    Text.squeeze_append_mark (c := ')') (by decide) (by decide) false f.parameters
  refine ⟨front, hdense, hfront, ?_, ?_⟩
  · refine ⟨hf.rule, by simp [tight], hf.walker, hf.function, ?_, squeeze_returnType hf,
      Text.last_squeeze _ _, by simp [tight]; decide, fun _ => Text.blank_of_mem_gapText,
      fun _ => Text.blank_of_mem_gapText, fun _ => Text.blank_of_mem_gapText, by simp [tight]⟩
    intro c hc
    rcases hmem c hc with hc | rfl
    · exact hf.parameters c hc
    · decide
  · rw [collapse_text hf, squeeze_callText hf, hfront, squeeze_arrowText hf]
    simp [tight, text, callText, arrowText, typeText]

theorem exists_collapse : ∃ g : FunctionText, g.Valid ∧ g.Like f ∧ Text.collapse f.text = g.text := by
  obtain ⟨parameters, hdense, -, hvalid, htext⟩ := exists_tight hf
  exact ⟨_, hvalid, ⟨rfl, rfl, rfl, hdense, Text.dense_squeeze _ _, rfl⟩, htext⟩

end FunctionText

end LineGrammar
