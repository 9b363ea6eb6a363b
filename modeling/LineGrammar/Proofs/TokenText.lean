import LineGrammar.Proofs.TokenValues

/-! The value of a token definition as it is laid out. Whatever value has been read, its parts can be
written with single blanks and are read again. -/

namespace LineGrammar

namespace Slice

theorem tokenValue?_eq_some {s : Slice} {value : TokenValue} (h : s.tokenValue? = some value) :
    IsLiteralText value.literal.chars ∧ value.literal.chars <+: s.chars ∧
      (∀ bang ∈ value.bang?, bang.chars = ['!']) ∧
      ∀ mode ∈ value.mode?, IsModeText mode.chars := by
  have hvalue := isTokenValue_of_tokenValue? h
  generalize s.chars = cs at hvalue ⊢
  obtain @⟨body, bang, bl, mode, bl', _, _, terminated, hbody, hbang, -, hmode, -⟩ := hvalue
  refine ⟨isLiteralText_iff.2 ⟨body, hbody, rfl⟩,
    ⟨bang ++ (bl ++ (mode ++ (bl' ++ terminator terminated))), by simp⟩, ?_, ?_⟩
  · cases hbang <;> simp
  · cases hmode with
    | none => simp
    | some _ hmode _ => simpa using hmode

/-- A mode with the blank before it. -/
def modeText : Option (List Char) → List Char
  | some mode => ' ' :: '[' :: (mode ++ [']'])
  | none => []

/-- A value with single blanks. -/
def valueText (literal : List Char) (bang : Bool) (mode? : Option (List Char)) : List Char :=
  literal ++ (markText "!" bang ++ (modeText mode? ++ [';']))

theorem exists_isBang (bang : Bool) (column : Nat) :
    ∃ bang?, IsBang column (markText "!" bang) bang? ∧
      bang?.map Slice.chars = if bang then some "!".toList else none := by
  cases bang with
  | true => exact ⟨_, .some, rfl⟩
  | false => exact ⟨_, .none, rfl⟩

theorem exists_isMode {mode? : Option (List Char)} (h : ∀ mode ∈ mode?, IsModeText mode)
    (column : Nat) :
    ∃ bl mode found?, (∀ c ∈ bl, isBlank c = true) ∧ modeText mode? = bl ++ mode ∧
      IsMode (column + bl.length) mode found? ∧ found?.map Slice.chars = mode? := by
  cases mode? with
  | none => exact ⟨[], [], none, by simp, rfl, .none, rfl⟩
  | some mode =>
    exact ⟨[' '], _, _, by simp; decide, rfl,
      .some (List.forall_mem_nil _) (h mode rfl) (List.forall_mem_nil _), rfl⟩

/-- A value with single blanks is read as it was written. -/
theorem tokenValue?_append {literal : List Char} (hliteral : IsLiteralText literal) (bang : Bool)
    {mode? : Option (List Char)} (hmode : ∀ mode ∈ mode?, IsModeText mode) (column : Nat) :
    ∃ value : TokenValue,
      (⟨column, valueText literal bang mode?⟩ : Slice).tokenValue? = some value ∧
      value.literal.chars = literal ∧
      value.bang?.map Slice.chars = (if bang then some "!".toList else none) ∧
      value.mode?.map Slice.chars = mode? ∧ value.terminated = true := by
  obtain ⟨body, hbody, rfl⟩ := isLiteralText_iff.1 hliteral
  obtain ⟨bang?, hbang, hbangText⟩ := exists_isBang bang (column + body.length + 2)
  obtain ⟨bl, mode, found?, hbl, htext, hfound, hfoundText⟩ := exists_isMode hmode
    (column + body.length + 2 + (markText "!" bang).length)
  have hvalue := tokenValue?_of_isTokenValue
    (.intro true hbody hbang hbl hfound (List.forall_mem_nil _))
  have hwritten : valueText ('"' :: (body ++ ['"'])) bang mode? =
      '"' :: (body ++ '"' :: (markText "!" bang ++ (bl ++ (mode ++ ([] ++ terminator true))))) := by
    simp [valueText, htext, terminator]
  rw [hwritten]
  exact ⟨_, hvalue, rfl, hbangText, hfoundText, rfl⟩

end Slice

end LineGrammar
