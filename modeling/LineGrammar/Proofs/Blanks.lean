import LineGrammar.Name
import LineGrammar.Text.Blank

/-! Trimming and collapsing, character by character. Collapsing is one pass over the text that
remembers whether it has just left a blank, so it can be followed through any concatenation. -/

namespace LineGrammar

theorem isBlank_eq_false {c : Char} (h : 33 ≤ c.toNat) (h' : c.toNat ≤ 126) :
    isBlank c = false := by
  simp only [isBlank, Bool.or_eq_false_iff, Bool.and_eq_false_iff, decide_eq_false_iff_not,
    beq_eq_false_iff_ne]
  omega

theorem isUpper_iff {c : Char} : c.isUpper = true ↔ 65 ≤ c.toNat ∧ c.toNat ≤ 90 := by
  have h : c.isUpper = decide (65 ≤ c.val ∧ c.val ≤ 90) := rfl
  rw [h, decide_eq_true_eq]
  exact and_congr UInt32.le_iff_toNat_le UInt32.le_iff_toNat_le

theorem isLower_iff {c : Char} : c.isLower = true ↔ 97 ≤ c.toNat ∧ c.toNat ≤ 122 := by
  have h : c.isLower = (decide (97 ≤ c.val) && decide (c.val ≤ 122)) := rfl
  rw [h, Bool.and_eq_true, decide_eq_true_eq, decide_eq_true_eq]
  exact and_congr UInt32.le_iff_toNat_le UInt32.le_iff_toNat_le

theorem isDigit_iff {c : Char} : c.isDigit = true ↔ 48 ≤ c.toNat ∧ c.toNat ≤ 57 := by
  have h : c.isDigit = (decide (48 ≤ c.val) && decide (c.val ≤ 57)) := rfl
  rw [h, Bool.and_eq_true, decide_eq_true_eq, decide_eq_true_eq]
  exact and_congr UInt32.le_iff_toNat_le UInt32.le_iff_toNat_le

theorem isAlpha_eq (c : Char) : c.isAlpha = (c.isUpper || c.isLower) := rfl

theorem isAlphanum_eq (c : Char) : c.isAlphanum = (c.isAlpha || c.isDigit) := rfl

theorem toNat_of_isNameChar {c : Char} (h : isNameChar c = true) :
    33 ≤ c.toNat ∧ c.toNat ≤ 126 := by
  simp only [isNameChar, isAlphanum_eq, isAlpha_eq, Bool.or_eq_true, isUpper_iff, isLower_iff,
    isDigit_iff, beq_iff_eq] at h
  rcases h with ((h | h) | h) | rfl
  · omega
  · omega
  · omega
  · decide

theorem isBlank_of_isNameChar {c : Char} (h : isNameChar c = true) : isBlank c = false :=
  have ⟨h1, h2⟩ := toNat_of_isNameChar h
  isBlank_eq_false h1 h2

theorem isNameChar_of_isBlank {c : Char} (h : isBlank c = true) : isNameChar c = false := by
  cases hname : isNameChar c with
  | false => rfl
  | true => exact absurd (isBlank_of_isNameChar hname) (by simp [h])

theorem isNameChar_of_isNameStart {c : Char} (h : isNameStart c = true) : isNameChar c = true := by
  simp only [isNameStart, isNameChar, isAlphanum_eq, Bool.or_eq_true] at h ⊢
  rcases h with h | h
  · exact Or.inl (Or.inl h)
  · exact Or.inr h

namespace Text

theorem trimStart_append_blanks {bl : List Char} (h : ∀ c ∈ bl, isBlank c = true)
    (cs : List Char) : trimStart (bl ++ cs) = trimStart cs :=
  List.dropWhile_append_of_pos h

theorem trimStart_cons {c : Char} (h : isBlank c = false) (cs : List Char) :
    trimStart (c :: cs) = c :: cs := by
  simp [trimStart, h]

theorem trimStart_of_head {cs : List Char} (h : ∀ c ∈ cs.head?, isBlank c = false) :
    trimStart cs = cs := by
  cases cs with
  | nil => rfl
  | cons c cs => exact trimStart_cons (h c rfl) cs

theorem head_trimStart (cs : List Char) : ∀ c ∈ (trimStart cs).head?, isBlank c = false := by
  intro c hc
  have h := List.head?_dropWhile_not isBlank cs
  rw [trimStart] at hc
  rw [Option.mem_def] at hc
  simp [hc] at h
  exact h

theorem exists_blanks_trimStart (cs : List Char) :
    ∃ bl, (∀ c ∈ bl, isBlank c = true) ∧ cs = bl ++ trimStart cs :=
  ⟨cs.takeWhile isBlank, List.all_eq_true.1 List.all_takeWhile,
    List.takeWhile_append_dropWhile.symm⟩

theorem trimEnd_concat (cs : List Char) (c : Char) :
    trimEnd (cs ++ [c]) = if isBlank c then trimEnd cs else cs ++ [c] := by
  induction cs with
  | nil => rfl
  | cons d cs ih =>
    rw [List.cons_append, trimEnd, ih]
    by_cases h : isBlank c = true
    · simp only [h, if_true, trimEnd]
    · simp [h]

theorem trimEnd_append_blanks {bl : List Char} (h : ∀ c ∈ bl, isBlank c = true)
    (cs : List Char) : trimEnd (cs ++ bl) = trimEnd cs := by
  induction bl generalizing cs with
  | nil => simp
  | cons b bl ih =>
    have hsplit : cs ++ b :: bl = (cs ++ [b]) ++ bl := by simp
    rw [hsplit, ih (fun c hc => h c (by simp [hc])), trimEnd_concat, if_pos (h b (by simp))]

theorem exists_trimEnd_blanks (cs : List Char) :
    ∃ bl, (∀ c ∈ bl, isBlank c = true) ∧ cs = trimEnd cs ++ bl := by
  induction cs with
  | nil => exact ⟨[], by simp, rfl⟩
  | cons c cs ih =>
    obtain ⟨bl, hbl, hcs⟩ := ih
    rw [trimEnd]
    split
    · next h =>
      rw [h] at hcs
      split
      · next hc =>
        refine ⟨c :: cs, ?_, rfl⟩
        intro d hd
        rcases List.mem_cons.1 hd with rfl | hd
        · exact hc
        · rw [hcs] at hd; exact hbl d hd
      · exact ⟨cs, by rw [hcs]; exact hbl, rfl⟩
    · exact ⟨bl, hbl, by rw [List.cons_append, ← hcs]⟩

theorem last_trimEnd (cs : List Char) : ∀ c ∈ (trimEnd cs).getLast?, isBlank c = false := by
  induction cs with
  | nil => simp [trimEnd]
  | cons d cs ih =>
    rw [trimEnd]
    split
    · split
      · simp
      · next h => simpa using h
    · next h => rw [List.getLast?_cons_of_ne_nil h]; exact ih

theorem trimEnd_of_last {cs : List Char} (h : ∀ c ∈ cs.getLast?, isBlank c = false) :
    trimEnd cs = cs := by
  rcases List.eq_nil_or_concat cs with rfl | ⟨init, last, rfl⟩
  · rfl
  · rw [List.concat_eq_append] at h ⊢
    rw [trimEnd_concat, if_neg]
    simp [h last (by simp)]

theorem trimEnd_trimEnd (cs : List Char) : trimEnd (trimEnd cs) = trimEnd cs :=
  trimEnd_of_last (last_trimEnd cs)

/-- A text that neither starts nor ends with a blank. -/
structure Trimmed (cs : List Char) : Prop where
  head : ∀ c ∈ cs.head?, isBlank c = false
  last : ∀ c ∈ cs.getLast?, isBlank c = false

theorem Trimmed.trim {cs : List Char} (h : Trimmed cs) : trim cs = cs := by
  rw [Text.trim, trimStart_of_head h.head, trimEnd_of_last h.last]

theorem trimmed_append {front back : List Char} (middle : List Char) (hne : front ≠ [])
    (hne' : back ≠ []) (hhead : ∀ c ∈ front.head?, isBlank c = false)
    (hlast : ∀ c ∈ back.getLast?, isBlank c = false) : Trimmed (front ++ (middle ++ back)) := by
  refine ⟨?_, ?_⟩
  · obtain ⟨c, cs, rfl⟩ := List.exists_cons_of_ne_nil hne
    simpa using hhead
  · obtain ⟨last, hl⟩ := Option.ne_none_iff_exists'.1 (mt List.getLast?_eq_none_iff.1 hne')
    rw [List.getLast?_append, List.getLast?_append, hl, Option.some_or, Option.some_or]
    rwa [hl] at hlast

theorem Trimmed.trim_blanks {b cs : List Char} (h : Trimmed cs) (hb : ∀ c ∈ b, isBlank c = true) :
    Text.trim (b ++ cs) = cs := by
  rw [Text.trim, trimStart_append_blanks hb]
  exact h.trim

theorem head_of_append {cs : List Char} (ds : List Char)
    (h : ∀ c ∈ (cs ++ ds).head?, isBlank c = false) : ∀ c ∈ cs.head?, isBlank c = false := by
  cases cs with
  | nil => simp
  | cons d cs => simpa using h

theorem trimmed_trim (cs : List Char) : Trimmed (trim cs) := by
  refine ⟨?_, last_trimEnd _⟩
  obtain ⟨bl, -, hcs⟩ := exists_trimEnd_blanks (trimStart cs)
  exact head_of_append bl (by rw [Text.trim, ← hcs]; exact head_trimStart cs)

theorem mem_of_mem_trim {cs : List Char} {c : Char} (h : c ∈ trim cs) : c ∈ cs := by
  obtain ⟨bl, -, hs⟩ := exists_blanks_trimStart cs
  obtain ⟨bl', -, he⟩ := exists_trimEnd_blanks (trimStart cs)
  rw [hs, he]
  exact List.mem_append_right _ (List.mem_append_left _ h)

theorem trim_eq_nil {cs : List Char} : trim cs = [] ↔ ∀ c ∈ cs, isBlank c = true := by
  constructor
  · intro h
    obtain ⟨bl, hbl, hs⟩ := exists_blanks_trimStart cs
    obtain ⟨bl', hbl', he⟩ := exists_trimEnd_blanks (trimStart cs)
    rw [← Text.trim, h, List.nil_append] at he
    intro c hc
    rw [hs, he] at hc
    rcases List.mem_append.1 hc with hc | hc
    · exact hbl c hc
    · exact hbl' c hc
  · intro h
    have hs := trimStart_append_blanks h []
    rw [List.append_nil] at hs
    rw [Text.trim, hs]; rfl

end Text

end LineGrammar
