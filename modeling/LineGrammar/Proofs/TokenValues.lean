import LineGrammar.Proofs.Recognition
import LineGrammar.Proofs.Scanners

/-! The grammar of the values of token definitions. A value is a literal in quotes with an optional bang,
mode and terminator behind it. The reader of values accepts the texts of this form and no others, and so a
text is a value in at most one way: none of its parts can be taken to end elsewhere. -/

namespace LineGrammar

/-- What stands between the quotes of a literal: a backslash comes with the character after it, and no
other character is a quote. -/
inductive IsQuoted : List Char → Prop
  | nil : IsQuoted []
  | plain {c : Char} {cs : List Char} (hquote : c ≠ '"') (hslash : c ≠ '\\') (h : IsQuoted cs) :
      IsQuoted (c :: cs)
  | escaped {c : Char} {cs : List Char} (h : IsQuoted cs) : IsQuoted ('\\' :: c :: cs)

namespace Slice

theorem closingQuote?_plain {c : Char} (hquote : c ≠ '"') (hslash : c ≠ '\\') (cs : List Char) :
    closingQuote? (c :: cs) = (closingQuote? cs).map (· + 1) := by
  rw [closingQuote?]
  · exact hquote
  · exact fun h _ => hslash h
  · exact fun _ _ h _ => hslash h

/-- The quote that closes a literal is the one behind a quoted text. -/
theorem closingQuote?_eq_some_iff {cs : List Char} {n : Nat} :
    closingQuote? cs = some n ↔
      ∃ body rest, IsQuoted body ∧ cs = body ++ '"' :: rest ∧ n = body.length + 1 := by
  constructor
  · intro h
    induction cs using closingQuote?.induct generalizing n with
    | case1 => cases h
    | case2 cs => cases h; exact ⟨[], cs, .nil, rfl, rfl⟩
    | case3 => cases h
    | case4 c cs ih =>
      obtain ⟨m, hm, rfl⟩ := Option.map_eq_some_iff.1 h
      obtain ⟨body, rest, hbody, rfl, rfl⟩ := ih hm
      exact ⟨'\\' :: c :: body, rest, .escaped hbody, rfl, rfl⟩
    | case5 c cs hquote hslash hescape ih =>
      have hplain : c ≠ '\\' := by
        rintro rfl
        cases cs with
        | nil => exact hslash rfl rfl
        | cons d ds => exact hescape d ds rfl rfl
      rw [closingQuote?_plain hquote hplain] at h
      obtain ⟨m, hm, rfl⟩ := Option.map_eq_some_iff.1 h
      obtain ⟨body, rest, hbody, rfl, rfl⟩ := ih hm
      exact ⟨c :: body, rest, .plain hquote hplain hbody, rfl, rfl⟩
  · rintro ⟨body, rest, hbody, rfl, rfl⟩
    induction hbody with
    | nil => rfl
    | plain hquote hslash _ ih =>
      rw [List.cons_append, closingQuote?_plain hquote hslash, ih]
      rfl
    | escaped _ ih =>
      rw [List.cons_append, List.cons_append, closingQuote?, ih]
      rfl

/-- A text in quotes, the closing one being its last character. -/
def IsLiteralText (cs : List Char) : Prop :=
  ∃ body, cs = '"' :: body ∧ closingQuote? body = some body.length

theorem isLiteralText_iff {cs : List Char} :
    IsLiteralText cs ↔ ∃ body, IsQuoted body ∧ cs = '"' :: (body ++ ['"']) := by
  constructor
  · rintro ⟨tail, rfl, htail⟩
    obtain ⟨body, rest, hbody, rfl, hlength⟩ := closingQuote?_eq_some_iff.1 htail
    have hnil : rest = [] := by
      rw [List.length_append, List.length_cons] at hlength
      exact List.length_eq_zero_iff.1 (by omega)
    exact ⟨body, hbody, by rw [hnil]⟩
  · rintro ⟨body, hbody, rfl⟩
    exact ⟨body ++ ['"'], rfl, closingQuote?_eq_some_iff.2 ⟨body, [], hbody, rfl, by simp⟩⟩

theorem literal?_append {literal : List Char} (h : IsLiteralText literal) (column : Nat)
    (rest : List Char) :
    (⟨column, literal ++ rest⟩ : Slice).literal? =
      some (⟨column, literal⟩, ⟨column + literal.length, rest⟩) := by
  obtain ⟨body, hbody, rfl⟩ := isLiteralText_iff.1 h
  have hclose : closingQuote? (body ++ ['"'] ++ rest) = some (body.length + 1) :=
    closingQuote?_eq_some_iff.2 ⟨body, rest, hbody, by simp, rfl⟩
  have hsplit := split_append column ('"' :: (body ++ ['"'])) rest
  simp only [literal?, List.cons_append, hclose, Option.map_some]
  rw [List.cons_append, List.length_cons, List.length_append, List.length_singleton] at hsplit
  rw [hsplit, List.length_cons, List.length_append, List.length_singleton]

theorem literal?_eq_some {s literal rest : Slice} (h : s.literal? = some (literal, rest)) :
    s.Cut literal rest ∧ IsLiteralText literal.chars := by
  unfold literal? at h
  split at h
  · next cs hcs =>
    obtain ⟨n, hn, h⟩ := Option.map_eq_some_iff.1 h
    obtain ⟨body, tail, hbody, rfl, rfl⟩ := closingQuote?_eq_some_iff.1 hn
    cases h
    refine ⟨cut_split _ s, isLiteralText_iff.2 ⟨body, hbody, ?_⟩⟩
    have htake : (body ++ ['"'] ++ tail).take (body.length + 1) = body ++ ['"'] :=
      List.take_left' (by simp)
    rw [List.append_assoc, List.singleton_append] at htake
    rw [hcs, List.take_succ_cons, htake]
  · cases h

def IsModeText (cs : List Char) : Prop := cs = currentMode.toList ∨ IsNameText cs

theorem IsModeText.head_solid {mode : List Char} (h : IsModeText mode) (rest : List Char) :
    ∀ c ∈ (mode ++ rest).head?, isBlank c = false := by
  rcases h with rfl | h
  · intro c hc
    cases hc
    decide
  · exact h.head_solid rest

theorem mode?_eq_some {s mode rest : Slice} (h : s.mode? = some (mode, rest)) :
    IsModeText mode.chars ∧ ∃ bl bl', (∀ c ∈ bl, isBlank c = true) ∧ (∀ c ∈ bl', isBlank c = true) ∧
      s.chars = '[' :: (bl ++ (mode.chars ++ (bl' ++ ']' :: rest.chars))) := by
  obtain ⟨opening, s₁, s₂, closing, hopening, hfound, hclosing⟩ := mode?_steps.1 h
  obtain ⟨hcut₁, hopen⟩ := accept?_eq_some hopening
  obtain ⟨bl, hbl, hs₁⟩ := exists_trimStart s₁
  obtain ⟨bl', hbl', hs₂⟩ := exists_trimStart s₂
  obtain ⟨hcut₃, hclose⟩ := accept?_eq_some hclosing
  have hmode : IsModeText mode.chars ∧ s₁.trimStart.chars = mode.chars ++ s₂.chars := by
    rcases hfound with hcurrent | ⟨-, hname⟩
    · obtain ⟨hcut, hmark⟩ := accept?_eq_some hcurrent
      exact ⟨Or.inl hmark, hcut.chars⟩
    · obtain ⟨hcut, htext, -⟩ := name?_eq_some hname
      exact ⟨Or.inr htext, hcut.chars⟩
  refine ⟨hmode.1, bl, bl', hbl, hbl', ?_⟩
  rw [hcut₁.chars, hopen, hs₁, hmode.2, hs₂, hcut₃.chars, hclose]
  rfl

/-- A mode in brackets, on a text that is written so. -/
theorem mode?_append {bl mode bl' : List Char} (column : Nat) (hbl : ∀ c ∈ bl, isBlank c = true)
    (h : IsModeText mode) (hbl' : ∀ c ∈ bl', isBlank c = true) (rest : List Char) :
    (⟨column, '[' :: (bl ++ (mode ++ (bl' ++ ']' :: rest)))⟩ : Slice).mode? =
      some (⟨column + 1 + bl.length, mode⟩,
        ⟨column + 1 + bl.length + mode.length + bl'.length + 1, rest⟩) := by
  have hopen : (⟨column, '[' :: (bl ++ (mode ++ (bl' ++ ']' :: rest)))⟩ : Slice).accept? "[" =
      some (⟨column, ['[']⟩, ⟨column + 1, bl ++ (mode ++ (bl' ++ ']' :: rest))⟩) :=
    accept?_append "[" column _
  have htrim := trimStart_append (column + 1) hbl (h.head_solid (bl' ++ ']' :: rest))
  have htrim' := trimStart_append (r := ']' :: rest) (column + 1 + bl.length + mode.length) hbl'
    (by simp; decide)
  generalize column + 1 + bl.length = start at *
  have hclose : (⟨start + mode.length + bl'.length, ']' :: rest⟩ : Slice).accept? "]" =
      some (⟨start + mode.length + bl'.length, [']']⟩,
        ⟨start + mode.length + bl'.length + 1, rest⟩) := accept?_append "]" _ rest
  have hmode : (⟨start, mode ++ (bl' ++ ']' :: rest)⟩ : Slice).accept? currentMode =
        some (⟨start, mode⟩, ⟨start + mode.length, bl' ++ ']' :: rest⟩) ∨
      (⟨start, mode ++ (bl' ++ ']' :: rest)⟩ : Slice).accept? currentMode = none ∧
        (⟨start, mode ++ (bl' ++ ']' :: rest)⟩ : Slice).name? =
          some (⟨start, mode⟩, ⟨start + mode.length, bl' ++ ']' :: rest⟩) := by
    rcases h with rfl | h
    · exact .inl (accept?_append currentMode start _)
    · refine .inr ⟨?_, name?_append _ h
        (head_blanks_append hbl' (fun _ => isNameChar_of_isBlank) (by simp; decide))⟩
      obtain ⟨c, cs, rfl⟩ := List.exists_cons_of_ne_nil (isSpelled_ne_nil h)
      refine accept?_eq_none_of_head rfl fun hc => ?_
      obtain rfl := Option.some.inj hc
      exact absurd (h.chars '^' List.mem_cons_self) (by decide)
  exact mode?_steps.2 ⟨_, _, _, _, hopen, by rw [htrim]; exact hmode, by rw [htrim']; exact hclose⟩

end Slice

/-- The text of a mode that starts in the given column: the mark of the current mode or a name, in
brackets, or nothing. -/
inductive IsMode : Nat → List Char → Option Slice → Prop
  | none {column : Nat} : IsMode column [] none
  | some {column : Nat} {bl mode bl' : List Char} (hbl : ∀ c ∈ bl, isBlank c = true)
      (hmode : Slice.IsModeText mode) (hbl' : ∀ c ∈ bl', isBlank c = true) :
      IsMode column ('[' :: (bl ++ (mode ++ (bl' ++ [']'])))) (some ⟨column + 1 + bl.length, mode⟩)

/-- The text of a bang that starts in the given column, or nothing. -/
inductive IsBang : Nat → List Char → Option Slice → Prop
  | none {column : Nat} : IsBang column [] none
  | some {column : Nat} : IsBang column ['!'] (some ⟨column, ['!']⟩)

/-- The text of a value that starts in the given column: a literal, a bang right behind it, a mode and a
terminator. All but the literal may be missing, and blanks may stand on both sides of the mode. -/
inductive IsTokenValue : Nat → List Char → TokenValue → Prop
  | intro {column : Nat} {body bang bl mode bl' : List Char} {bang? mode? : Option Slice}
      (terminated : Bool) (hbody : IsQuoted body)
      (hbang : IsBang (column + body.length + 2) bang bang?) (hbl : ∀ c ∈ bl, isBlank c = true)
      (hmode : IsMode (column + body.length + 2 + bang.length + bl.length) mode mode?)
      (hbl' : ∀ c ∈ bl', isBlank c = true) :
      IsTokenValue column
        ('"' :: (body ++ '"' :: (bang ++ (bl ++ (mode ++ (bl' ++ Slice.terminator terminated))))))
        ⟨⟨column, '"' :: (body ++ ['"'])⟩, bang?, mode?, terminated⟩

namespace Slice

theorem optional_bang {column : Nat} {bang : List Char} {bang? : Option Slice}
    (h : IsBang column bang bang?) {rest : List Char} (hrest : rest.head? ≠ some '!') :
    (⟨column, bang ++ rest⟩ : Slice).optional (·.accept? "!") =
      (bang?, ⟨column + bang.length, rest⟩) := by
  cases h with
  | none =>
    have hnone : (⟨column, rest⟩ : Slice).accept? "!" = none := accept?_eq_none_of_head rfl hrest
    rw [optional, List.nil_append, hnone]
    rfl
  | some =>
    have hmark : (⟨column, ['!'] ++ rest⟩ : Slice).accept? "!" =
        some (⟨column, ['!']⟩, ⟨column + 1, rest⟩) := accept?_append "!" column rest
    rw [optional, hmark]
    rfl

theorem exists_bang (s : Slice) :
    ∃ bang, s.chars = bang ++ (s.optional (·.accept? "!")).2.chars ∧
      ∀ column, ∃ bang?, IsBang column bang bang? := by
  rcases hopt : s.optional (·.accept? "!") with ⟨bang?, rest⟩
  rcases optional_eq hopt with ⟨-, rfl, -⟩ | ⟨bang, -, hbang⟩
  · exact ⟨[], rfl, fun _ => ⟨_, .none⟩⟩
  · obtain ⟨hcut, hmark⟩ := accept?_eq_some hbang
    exact ⟨['!'], by rw [hcut.chars, hmark]; rfl, fun _ => ⟨_, .some⟩⟩

section
variable {bl bl' : List Char} (hbl : ∀ c ∈ bl, isBlank c = true) (hbl' : ∀ c ∈ bl', isBlank c = true)
include hbl hbl'

/-- What stands behind the bang. -/
theorem optional_mode (column : Nat) (terminated : Bool) {mode : List Char} {mode? : Option Slice}
    (h : IsMode (column + bl.length) mode mode?) :
    ∃ rest : Slice,
      (⟨column, bl ++ (mode ++ (bl' ++ terminator terminated))⟩ : Slice).trimStart.optional
        Slice.mode? = (mode?, rest) ∧ rest.terminator? = some terminated := by
  cases h with
  | none =>
    have hblanks : ∀ c ∈ bl ++ bl', isBlank c = true := fun c hc =>
      (List.mem_append.1 hc).elim (hbl c) (hbl' c)
    have htrim := trimStart_append (r := terminator terminated) column hblanks fun c hc => by
      rw [head_terminator terminated c hc]; decide
    rw [List.append_assoc] at htrim
    generalize column + (bl ++ bl').length = start at htrim
    have hnone : (⟨start, terminator terminated⟩ : Slice).accept? "[" = none := by
      cases terminated <;> rfl
    refine ⟨⟨start, terminator terminated⟩, ?_, ?_⟩
    · rw [List.nil_append, htrim, optional, Slice.mode?, hnone]
      rfl
    · exact terminator?_append (b := []) start (by simp) terminated
  | @some gap mode gap' hgap hmode hgap' =>
    have htext : '[' :: (gap ++ (mode ++ (gap' ++ [']']))) ++ (bl' ++ terminator terminated) =
        '[' :: (gap ++ (mode ++ (gap' ++ ']' :: (bl' ++ terminator terminated)))) := by
      simp
    have htrim := trimStart_append column hbl (r := '[' :: (gap ++ (mode ++ (gap' ++ ']' ::
      (bl' ++ terminator terminated))))) (by simp; decide)
    have hread := mode?_append (column + bl.length) hgap hmode hgap' (bl' ++ terminator terminated)
    refine ⟨_, by rw [htext, htrim, optional, hread], ?_⟩
    exact terminator?_append _ hbl' terminated

end

theorem exists_mode (s : Slice) :
    ∃ mode, s.chars = mode ++ (s.optional mode?).2.chars ∧
      ∀ column, ∃ mode?, IsMode column mode mode? := by
  rcases hopt : s.optional mode? with ⟨mode?, rest⟩
  rcases optional_eq hopt with ⟨-, rfl, -⟩ | ⟨mode, -, hmode⟩
  · exact ⟨[], rfl, fun _ => ⟨_, .none⟩⟩
  · obtain ⟨htext, bl, bl', hbl, hbl', hs⟩ := mode?_eq_some hmode
    exact ⟨_, by rw [hs]; simp, fun _ => ⟨_, .some hbl htext hbl'⟩⟩

theorem tokenValue?_of_isTokenValue {column : Nat} {cs : List Char} {value : TokenValue}
    (h : IsTokenValue column cs value) : (⟨column, cs⟩ : Slice).tokenValue? = some value := by
  obtain @⟨body, bang, bl, mode, bl', bang?, mode?, terminated, hbody, hbang, hbl, hmode, hbl'⟩ := h
  -- no bang is found where none was written, since a blank, a bracket or a terminator follows
  have hhead : (bl ++ (mode ++ (bl' ++ terminator terminated))).head? ≠ some '!' := by
    intro hbang
    have hall : ∀ c ∈ (bl ++ (mode ++ (bl' ++ terminator terminated))).head?, c ≠ '!' := by
      have hne : ∀ c, isBlank c = true → c ≠ '!' := by
        rintro c hc rfl
        exact absurd hc (by decide)
      apply head_blanks_append hbl hne
      cases hmode with
      | none =>
        apply head_blanks_append hbl' hne
        intro c hc
        rw [head_terminator terminated c hc]
        decide
      | some => simp
    exact hall '!' hbang rfl
  have hliteral := literal?_append (isLiteralText_iff.2 ⟨body, hbody, rfl⟩) column
    (bang ++ (bl ++ (mode ++ (bl' ++ terminator terminated))))
  rw [show column + ('"' :: (body ++ ['"'])).length = column + body.length + 2 by simp; omega]
    at hliteral
  have hoptbang := optional_bang hbang hhead
  obtain ⟨rest, hoptmode, hend⟩ := optional_mode hbl hbl' _ terminated hmode
  have htext : '"' :: (body ++ '"' :: (bang ++ (bl ++ (mode ++ (bl' ++ terminator terminated))))) =
      '"' :: (body ++ ['"']) ++ (bang ++ (bl ++ (mode ++ (bl' ++ terminator terminated)))) := by
    simp
  rw [htext]
  exact tokenValue?_steps.2 ⟨_, _, terminated, hliteral, by rw [hoptbang, hoptmode]; exact hend,
    by rw [hoptbang, hoptmode]⟩

theorem isTokenValue_of_tokenValue? {s : Slice} {value : TokenValue} (h : s.tokenValue? = some value) :
    IsTokenValue s.column s.chars value := by
  have h' := h
  obtain ⟨literal, s₁, terminated, hliteral, hend, rfl⟩ := tokenValue?_steps.1 h
  obtain ⟨hcut, htext⟩ := literal?_eq_some hliteral
  obtain ⟨body, hbody, hchars⟩ := isLiteralText_iff.1 htext
  obtain ⟨bang, hs₁, hbang⟩ := exists_bang s₁
  obtain ⟨bl, hbl, hs₂⟩ := exists_trimStart (s₁.optional (·.accept? "!")).2
  obtain ⟨mode, hs₃, hmode⟩ := exists_mode (s₁.optional (·.accept? "!")).2.trimStart
  obtain ⟨bl', hbl', hs₄⟩ := terminator?_eq_some hend
  obtain ⟨bang?, hbang⟩ := hbang (s.column + body.length + 2)
  obtain ⟨mode?, hmode⟩ := hmode (s.column + body.length + 2 + bang.length + bl.length)
  -- the text that has been read is a value, which is found again when it is read as it is written
  have hvalue := IsTokenValue.intro terminated hbody hbang hbl hmode hbl'
  have hs : s.chars = '"' :: (body ++ '"' :: (bang ++ (bl ++ (mode ++ (bl' ++
      terminator terminated))))) := by
    rw [hcut.chars, hchars, hs₁, hs₂, hs₃, hs₄]
    simp
  have hread := tokenValue?_of_isTokenValue hvalue
  rw [← hs, h'] at hread
  rw [hs, Option.some.inj hread]
  exact hvalue

end Slice

/-- A text is a value in at most one way. -/
theorem IsTokenValue.unique {column : Nat} {cs : List Char} {value value' : TokenValue}
    (h : IsTokenValue column cs value) (h' : IsTokenValue column cs value') : value = value' :=
  Option.some.inj ((Slice.tokenValue?_of_isTokenValue h).symm.trans
    (Slice.tokenValue?_of_isTokenValue h'))

end LineGrammar
