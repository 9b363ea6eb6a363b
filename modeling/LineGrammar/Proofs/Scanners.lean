import LineGrammar.Line.Shape
import LineGrammar.Reading.BlockName
import LineGrammar.Reading.Pragma
import LineGrammar.Reading.Rule
import LineGrammar.Reading.Token

/-! What the parts of a line are read off. A scanner takes one part after another off the front of a slice;
here each scanner is taken apart once into the steps that it succeeds by. -/

namespace LineGrammar

namespace Slice

variable {s rest : Slice}

theorem parenthesised?_steps {name : Slice} : s.parenthesised? = some (name, rest) ↔
    ∃ opening s₁ s₂ closing, s.accept? "(" = some (opening, s₁) ∧
      s₁.trimStart.name? = some (name, s₂) ∧ s₂.trimStart.accept? ")" = some (closing, rest) := by
  constructor
  · intro h
    obtain ⟨⟨opening, s₁⟩, hopening, h⟩ := Option.bind_eq_some_iff.1 h
    obtain ⟨⟨found, s₂⟩, hname, h⟩ := Option.bind_eq_some_iff.1 h
    obtain ⟨⟨closing, s₃⟩, hclosing, h⟩ := Option.bind_eq_some_iff.1 h
    cases h
    exact ⟨opening, s₁, s₂, closing, hopening, hname, hclosing⟩
  · rintro ⟨opening, s₁, s₂, closing, hopening, hname, hclosing⟩
    simp [parenthesised?, hopening, hname, hclosing]

theorem singleName?_steps {name : Slice} {terminated : Bool} :
    s.singleName? = some (name, terminated) ↔
      ∃ s₁, s.name? = some (name, s₁) ∧ s₁.terminator? = some terminated := by
  constructor
  · intro h
    obtain ⟨⟨found, s₁⟩, hname, h⟩ := Option.bind_eq_some_iff.1 h
    obtain ⟨terminated', hend, h⟩ := Option.bind_eq_some_iff.1 h
    cases h
    exact ⟨s₁, hname, hend⟩
  · rintro ⟨s₁, hname, hend⟩
    simp [singleName?, hname, hend]

theorem listItem?_steps {name : Slice} : s.listItem? = some (name, rest) ↔
    ∃ s₁, s.trimStart.name? = some (name, s₁) ∧ rest = s₁.trimStart := by
  constructor
  · intro h
    obtain ⟨⟨found, s₁⟩, hname, h⟩ := Option.map_eq_some_iff.1 h
    cases h
    exact ⟨s₁, hname, rfl⟩
  · rintro ⟨s₁, hname, rfl⟩
    simp [listItem?, hname]

/-- The mark that opens a block stands at the end of a line, and otherwise a terminator may. -/
theorem membersParameters?_steps {walker : Slice} {mark? : Option Slice} :
    s.membersParameters? = some (walker, mark?) ↔ ∃ s₁, s.name? = some (walker, s₁) ∧
      ((∃ mark s₂, s₁.trimStart.accept? openingMark = some (mark, s₂) ∧ s₂.isEmpty = true ∧
          mark? = some mark) ∨
        (∃ terminated, s₁.trimStart.accept? openingMark = none ∧ s₁.terminator? = some terminated ∧
          mark? = none)) := by
  constructor
  · intro h
    obtain ⟨⟨found, s₁⟩, hname, h⟩ := Option.bind_eq_some_iff.1 h
    dsimp only at h
    split at h
    · next mark s₂ hmark =>
      split at h
      · next hempty =>
        cases h
        exact ⟨s₁, hname, .inl ⟨mark, s₂, hmark, hempty, rfl⟩⟩
      · cases h
    · next hmark =>
      obtain ⟨terminated, hend, h⟩ := Option.bind_eq_some_iff.1 h
      cases h
      exact ⟨s₁, hname, .inr ⟨terminated, hmark, hend, rfl⟩⟩
  · rintro ⟨s₁, hname, ⟨mark, s₂, hmark, hempty, rfl⟩ | ⟨terminated, hmark, hend, rfl⟩⟩
    · simp [membersParameters?, hname, hmark, hempty]
    · simp [membersParameters?, hname, hmark, hend]

theorem interfaceParameters?_steps {walker typeName : Slice} :
    s.interfaceParameters? = some (walker, typeName) ↔ ∃ s₁ s₂ s₃ terminated,
      s.name? = some (walker, s₁) ∧ s₁.blanks? = some s₂ ∧
      s₂.spelled? isNameStart isTypeWordChar = some (typeName, s₃) ∧ s₃.terminator? = some terminated := by
  constructor
  · intro h
    obtain ⟨⟨found, s₁⟩, hname, h⟩ := Option.bind_eq_some_iff.1 h
    obtain ⟨s₂, hgap, h⟩ := Option.bind_eq_some_iff.1 h
    obtain ⟨⟨found', s₃⟩, htype, h⟩ := Option.bind_eq_some_iff.1 h
    obtain ⟨terminated, hend, h⟩ := Option.bind_eq_some_iff.1 h
    cases h
    exact ⟨s₁, s₂, s₃, terminated, hname, hgap, htype, hend⟩
  · rintro ⟨s₁, s₂, s₃, terminated, hname, hgap, htype, hend⟩
    simp [interfaceParameters?, hname, hgap, htype, hend]

/-- Accepts the walker that qualifies a function, with the mark after it. -/
def qualifier? (s : Slice) : Option (Slice × Slice) := do
  let (walker, s) ← s.name?
  let (_, s) ← s.accept? "::"
  return (walker, s)

theorem qualifier?_steps {walker : Slice} : s.qualifier? = some (walker, rest) ↔
    ∃ s₁ mark, s.name? = some (walker, s₁) ∧ s₁.accept? "::" = some (mark, rest) := by
  constructor
  · intro h
    obtain ⟨⟨found, s₁⟩, hname, h⟩ := Option.bind_eq_some_iff.1 h
    obtain ⟨⟨mark, s₂⟩, hmark, h⟩ := Option.bind_eq_some_iff.1 h
    cases h
    exact ⟨s₁, mark, hname, hmark⟩
  · rintro ⟨s₁, mark, hname, hmark⟩
    simp [qualifier?, hname, hmark]

theorem functionParameters?_steps {shape : FunctionShape} : s.functionParameters? = some shape ↔
    ∃ rule s₁ s₂ function s₃ opening s₄ closing s₅ arrow s₆,
      s.name? = some (rule, s₁) ∧ s₁.blanks? = some s₂ ∧
      (s₂.optional qualifier?).2.name? = some (function, s₃) ∧
      s₃.trimStart.accept? "(" = some (opening, s₄) ∧
      (s₄.splitWhile fun c => c != '(' && c != ')').2.accept? ")" = some (closing, s₅) ∧
      s₅.trimStart.accept? "->" = some (arrow, s₆) ∧
      isSpelled isNameStart isTypeChar s₆.trimStart.cutTerminator.1.chars = true ∧
      shape = {
        rule, walker? := (s₂.optional qualifier?).1, function
        parameters := (s₄.splitWhile fun c => c != '(' && c != ')').1
        returnType := s₆.trimStart.cutTerminator.1
        terminated := s₆.trimStart.cutTerminator.2 } := by
  constructor
  · intro h
    obtain ⟨⟨rule, s₁⟩, hrule, h⟩ := Option.bind_eq_some_iff.1 h
    obtain ⟨s₂, hgap, h⟩ := Option.bind_eq_some_iff.1 h
    dsimp only at h
    obtain ⟨⟨function, s₃⟩, hfunction, h⟩ := Option.bind_eq_some_iff.1 h
    obtain ⟨⟨opening, s₄⟩, hopening, h⟩ := Option.bind_eq_some_iff.1 h
    obtain ⟨⟨closing, s₅⟩, hclosing, h⟩ := Option.bind_eq_some_iff.1 h
    obtain ⟨⟨arrow, s₆⟩, harrow, h⟩ := Option.bind_eq_some_iff.1 h
    dsimp only at h hopening hclosing harrow
    split at h
    · next htype =>
      cases h
      exact ⟨rule, s₁, s₂, function, s₃, opening, s₄, closing, s₅, arrow, s₆, hrule, hgap, hfunction,
        hopening, hclosing, harrow, htype, rfl⟩
    · cases h
  · rintro ⟨rule, s₁, s₂, function, s₃, opening, s₄, closing, s₅, arrow, s₆, hrule, hgap, hfunction,
      hopening, hclosing, harrow, htype, rfl⟩
    refine Option.bind_eq_some_iff.2 ⟨_, hrule, Option.bind_eq_some_iff.2 ⟨_, hgap, ?_⟩⟩
    refine Option.bind_eq_some_iff.2 ⟨_, hfunction, Option.bind_eq_some_iff.2 ⟨_, hopening, ?_⟩⟩
    refine Option.bind_eq_some_iff.2 ⟨_, hclosing, Option.bind_eq_some_iff.2 ⟨_, harrow, ?_⟩⟩
    exact if_pos htype

/-- Accepts the mark and the function after it. -/
def markedFunction? (s : Slice) : Option (Slice × Slice) := do
  let (_, s) ← s.accept? "::"
  s.name?

theorem markedFunction?_steps {function : Slice} : s.markedFunction? = some (function, rest) ↔
    ∃ mark s₁, s.accept? "::" = some (mark, s₁) ∧ s₁.name? = some (function, rest) := by
  constructor
  · intro h
    obtain ⟨⟨mark, s₁⟩, hmark, hname⟩ := Option.bind_eq_some_iff.1 h
    exact ⟨mark, s₁, hmark, hname⟩
  · rintro ⟨mark, s₁, hmark, hname⟩
    simp [markedFunction?, hmark, hname]

theorem blockName?_steps {walker : Slice} {function? : Option Slice} :
    s.blockName? = some (walker, function?) ↔ ∃ mark s₁ s₂, s.accept? "@" = some (mark, s₁) ∧
      s₁.name? = some (walker, s₂) ∧ (s₂.optional markedFunction?).2.isEmpty = true ∧
      function? = (s₂.optional markedFunction?).1 := by
  constructor
  · intro h
    obtain ⟨⟨mark, s₁⟩, hmark, h⟩ := Option.bind_eq_some_iff.1 h
    obtain ⟨⟨found, s₂⟩, hname, h⟩ := Option.bind_eq_some_iff.1 h
    dsimp only at h
    split at h
    · next hempty =>
      cases h
      exact ⟨mark, s₁, s₂, hmark, hname, hempty, rfl⟩
    · cases h
  · rintro ⟨mark, s₁, s₂, hmark, hname, hempty, rfl⟩
    refine Option.bind_eq_some_iff.2 ⟨_, hmark, Option.bind_eq_some_iff.2 ⟨_, hname, ?_⟩⟩
    exact if_pos hempty

theorem mode?_steps {mode : Slice} : s.mode? = some (mode, rest) ↔
    ∃ opening s₁ s₂ closing, s.accept? "[" = some (opening, s₁) ∧
      (s₁.trimStart.accept? currentMode = some (mode, s₂) ∨
        s₁.trimStart.accept? currentMode = none ∧ s₁.trimStart.name? = some (mode, s₂)) ∧
      s₂.trimStart.accept? "]" = some (closing, rest) := by
  constructor
  · intro h
    obtain ⟨⟨opening, s₁⟩, hopening, h⟩ := Option.bind_eq_some_iff.1 h
    obtain ⟨⟨found, s₂⟩, hfound, h⟩ := Option.bind_eq_some_iff.1 h
    obtain ⟨⟨closing, s₃⟩, hclosing, h⟩ := Option.bind_eq_some_iff.1 h
    cases h
    refine ⟨opening, s₁, s₂, closing, hopening, ?_, hclosing⟩
    cases hcurrent : s₁.trimStart.accept? currentMode with
    | some part =>
      rw [hcurrent] at hfound
      exact .inl hfound
    | none =>
      rw [hcurrent] at hfound
      exact .inr ⟨rfl, hfound⟩
  · rintro ⟨opening, s₁, s₂, closing, hopening, hcurrent | ⟨hcurrent, hname⟩, hclosing⟩
    · simp [mode?, hopening, hcurrent, hclosing]
    · simp [mode?, hopening, hcurrent, hname, hclosing]

theorem tokenValue?_steps {value : TokenValue} : s.tokenValue? = some value ↔
    ∃ literal s₁ terminated, s.literal? = some (literal, s₁) ∧
      ((s₁.optional (·.accept? "!")).2.trimStart.optional mode?).2.terminator? = some terminated ∧
      value = {
        literal, bang? := (s₁.optional (·.accept? "!")).1
        mode? := ((s₁.optional (·.accept? "!")).2.trimStart.optional mode?).1, terminated } := by
  constructor
  · intro h
    obtain ⟨⟨literal, s₁⟩, hliteral, h⟩ := Option.bind_eq_some_iff.1 h
    dsimp only at h
    obtain ⟨terminated, hend, h⟩ := Option.bind_eq_some_iff.1 h
    cases h
    exact ⟨literal, s₁, terminated, hliteral, hend, rfl⟩
  · rintro ⟨literal, s₁, terminated, hliteral, hend, rfl⟩
    simp [tokenValue?, hliteral, hend]

theorem element?_steps {e : ElementShape} : s.element? = some (e, rest) ↔
    ∃ name s₁, (s.trimStart.optional (·.accept? "^")).2.name? = some (name, s₁) ∧
      ((s₁.optional parenthesised?).2.isEmpty = true ∧ rest = (s₁.optional parenthesised?).2 ∨
        (s₁.optional parenthesised?).2.isEmpty = false ∧
          (s₁.optional parenthesised?).2.blanks? = some rest) ∧
      e = {
        anchor? := (s.trimStart.optional (·.accept? "^")).1, name
        alias? := (s₁.optional parenthesised?).1 } := by
  constructor
  · intro h
    unfold element? at h
    dsimp only at h
    obtain ⟨⟨name, s₁⟩, hname, h⟩ := Option.bind_eq_some_iff.1 h
    refine ⟨name, s₁, hname, ?_⟩
    dsimp only at h
    split at h
    · next hempty =>
      cases h
      exact ⟨.inl ⟨hempty, rfl⟩, rfl⟩
    · next hempty =>
      obtain ⟨found, hblanks, h⟩ := Option.bind_eq_some_iff.1 h
      cases h
      exact ⟨.inr ⟨by simpa using hempty, hblanks⟩, rfl⟩
  · rintro ⟨name, s₁, hname, ⟨hempty, rfl⟩ | ⟨hempty, hblanks⟩, rfl⟩
    · simp [element?, hname, hempty]
    · simp [element?, hname, hempty, hblanks]

end Slice

namespace Shape

variable {s : Slice}

theorem comment?_steps {shape : Shape} : comment? s = some shape ↔
    ∃ mark s₁, s.accept? "//" = some (mark, s₁) ∧ '\n' ∉ s₁.chars ∧ shape = .comment := by
  constructor
  · intro h
    obtain ⟨⟨mark, s₁⟩, hmark, h⟩ := Option.bind_eq_some_iff.1 h
    dsimp only at h
    split at h
    · cases h
    · next hbreak =>
      cases h
      exact ⟨mark, s₁, hmark, hbreak, rfl⟩
  · rintro ⟨mark, s₁, hmark, hbreak, rfl⟩
    simp [comment?, hmark, hbreak]

theorem pragma?_steps {shape : Shape} : pragma? s = some shape ↔
    ∃ percent s₁ name s₂ params, s.accept? "%" = some (percent, s₁) ∧ s₁.name? = some (name, s₂) ∧
      tail? s₂ = some params ∧ shape = .pragma (s.split (name.chars.length + 1)).1 name params := by
  constructor
  · intro h
    obtain ⟨⟨percent, s₁⟩, hpercent, h⟩ := Option.bind_eq_some_iff.1 h
    obtain ⟨⟨name, s₂⟩, hname, h⟩ := Option.bind_eq_some_iff.1 h
    obtain ⟨params, hparams, h⟩ := Option.bind_eq_some_iff.1 h
    cases h
    exact ⟨percent, s₁, name, s₂, params, hpercent, hname, hparams, rfl⟩
  · rintro ⟨percent, s₁, name, s₂, params, hpercent, hname, hparams, rfl⟩
    simp [pragma?, hpercent, hname, hparams]

theorem token?_steps {shape : Shape} : token? s = some shape ↔
    ∃ name s₁ operator s₂ rest, s.spelled? isTokenStart isTokenChar = some (name, s₁) ∧
      s₁.trimStart.accept? ":=" = some (operator, s₂) ∧ tail? s₂ = some rest ∧
      shape = .token name operator rest := by
  constructor
  · intro h
    obtain ⟨⟨name, s₁⟩, hname, h⟩ := Option.bind_eq_some_iff.1 h
    obtain ⟨⟨operator, s₂⟩, hoperator, h⟩ := Option.bind_eq_some_iff.1 h
    obtain ⟨rest, hrest, h⟩ := Option.bind_eq_some_iff.1 h
    cases h
    exact ⟨name, s₁, operator, s₂, rest, hname, hoperator, hrest, rfl⟩
  · rintro ⟨name, s₁, operator, s₂, rest, hname, hoperator, hrest, rfl⟩
    simp [token?, hname, hoperator, hrest]

theorem rule?_steps {shape : Shape} : rule? s = some shape ↔
    ∃ name s₁ operator s₂ rest, s.spelled? isRuleStart isNameChar = some (name, s₁) ∧
      (s₁.optional Slice.parenthesised?).2.trimStart.accept? ":=" = some (operator, s₂) ∧
      tail? s₂ = some rest ∧
      shape = .rule name (s₁.optional Slice.parenthesised?).1 operator rest := by
  constructor
  · intro h
    obtain ⟨⟨name, s₁⟩, hname, h⟩ := Option.bind_eq_some_iff.1 h
    dsimp only at h
    obtain ⟨⟨operator, s₂⟩, hoperator, h⟩ := Option.bind_eq_some_iff.1 h
    obtain ⟨rest, hrest, h⟩ := Option.bind_eq_some_iff.1 h
    cases h
    exact ⟨name, s₁, operator, s₂, rest, hname, hoperator, hrest, rfl⟩
  · rintro ⟨name, s₁, operator, s₂, rest, hname, hoperator, hrest, rfl⟩
    simp [rule?, hname, hoperator, hrest]

end Shape

end LineGrammar
