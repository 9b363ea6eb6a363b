import LineGrammar.Proofs.Blanks

/-! Collapsing as one pass. `squeeze` drops every blank and writes a single space in front of the
next character unless that is a terminator; on a text that starts with no blank it is
`collapse`. -/

namespace LineGrammar.Text

/-- Writes the text with its gaps made small. `gap` tells whether a blank came just before. -/
def squeeze (gap : Bool) : List Char → List Char
  | [] => []
  | c :: cs =>
    if isBlank c then squeeze true cs
    else if gap && c != ';' then ' ' :: c :: squeeze false cs
    else c :: squeeze false cs

/-- The characters that are not blank. -/
def dense (cs : List Char) : List Char := cs.filter fun c => !isBlank c

@[simp] theorem dense_append (cs ds : List Char) : dense (cs ++ ds) = dense cs ++ dense ds := by
  simp [dense]

theorem dense_cons (c : Char) (cs : List Char) :
    dense (c :: cs) = if isBlank c then dense cs else c :: dense cs := by
  by_cases h : isBlank c = true <;> simp [dense, h]

theorem dense_of_blanks {bl : List Char} (h : ∀ c ∈ bl, isBlank c = true) : dense bl = [] := by
  simpa [dense, List.filter_eq_nil_iff] using h

theorem isBlank_space : isBlank ' ' = true := by decide

theorem isBlank_terminator : isBlank ';' = false := by decide

theorem squeeze_blank {c : Char} (h : isBlank c = true) (gap : Bool) (cs : List Char) :
    squeeze gap (c :: cs) = squeeze true cs := by
  simp [squeeze, h]

theorem squeeze_inside {c : Char} (h : isBlank c = false) (cs : List Char) :
    squeeze false (c :: cs) = c :: squeeze false cs := by
  simp [squeeze, h]

theorem squeeze_terminator (gap : Bool) (cs : List Char) :
    squeeze gap (';' :: cs) = ';' :: squeeze false cs := by
  simp [squeeze, isBlank_terminator]

theorem squeeze_after {c : Char} (h : isBlank c = false) (hc : c ≠ ';') (cs : List Char) :
    squeeze true (c :: cs) = ' ' :: c :: squeeze false cs := by
  simp [squeeze, h, hc]

theorem squeeze_blanks {bl : List Char} (h : ∀ c ∈ bl, isBlank c = true) (gap : Bool)
    (cs : List Char) : squeeze gap (bl ++ cs) = squeeze (gap || !bl.isEmpty) cs := by
  induction bl generalizing gap with
  | nil => simp
  | cons b bl ih =>
    rw [List.cons_append, squeeze_blank (h b (by simp)), ih fun c hc => h c (by simp [hc])]
    simp

theorem squeeze_word {w : List Char} (h : ∀ c ∈ w, isBlank c = false) (cs : List Char) :
    squeeze false (w ++ cs) = w ++ squeeze false cs := by
  induction w with
  | nil => rfl
  | cons c w ih =>
    rw [List.cons_append, squeeze_inside (h c (by simp)), ih fun d hd => h d (by simp [hd]),
      List.cons_append]

/-- Text in front of a mark is squeezed by itself, whatever comes after the mark. -/
theorem squeeze_append_mark {c : Char} (hc : isBlank c = false) (hne : c ≠ ';') (gap : Bool)
    (cs : List Char) :
    ∃ front, dense front = dense cs ∧ (∀ d ∈ front, d ∈ cs ∨ d = ' ') ∧
      ∀ rest, squeeze gap (cs ++ c :: rest) = front ++ c :: squeeze false rest := by
  induction cs generalizing gap with
  | nil =>
    cases gap with
    | false => exact ⟨[], rfl, by simp, squeeze_inside hc⟩
    | true => exact ⟨[' '], by decide, by simp, squeeze_after hc hne⟩
  | cons d cs ih =>
    by_cases hd : isBlank d = true
    · obtain ⟨front, hdense, hmem, heq⟩ := ih true
      refine ⟨front, by rw [hdense, dense_cons, if_pos hd], ?_, fun rest => ?_⟩
      · intro e he
        rcases hmem e he with h | h
        · exact Or.inl (by simp [h])
        · exact Or.inr h
      · rw [List.cons_append, squeeze_blank hd, heq]
    · have hd' : isBlank d = false := by simpa using hd
      obtain ⟨front, hdense, hmem, heq⟩ := ih false
      have hmem' : ∀ e ∈ front, e ∈ d :: cs ∨ e = ' ' := by
        intro e he
        rcases hmem e he with h | h
        · exact Or.inl (by simp [h])
        · exact Or.inr h
      by_cases hgap : (gap && d != ';') = true
      · refine ⟨' ' :: d :: front, ?_, ?_, fun rest => ?_⟩
        · rw [dense_cons, if_pos isBlank_space, dense_cons, if_neg hd, dense_cons, if_neg hd, hdense]
        · simpa using hmem'
        · simp [squeeze, hd', hgap, heq]
      · refine ⟨d :: front, ?_, ?_, fun rest => ?_⟩
        · rw [dense_cons, if_neg hd, dense_cons, if_neg hd, hdense]
        · simpa using hmem'
        · simp [squeeze, hd', hgap, heq]

/-- What a gap becomes in front of a word. -/
def gapText : List Char → List Char
  | [] => []
  | _ => [' ']

theorem blank_of_mem_gapText {bl : List Char} {c : Char} (h : c ∈ gapText bl) :
    isBlank c = true := by
  cases bl with
  | nil => cases h
  | cons b bl => rw [List.mem_singleton.1 h]; exact isBlank_space

theorem squeeze_gap {bl : List Char} (hbl : ∀ c ∈ bl, isBlank c = true) {c : Char}
    (hc : isBlank c = false) (hne : c ≠ ';') (cs : List Char) :
    squeeze false (bl ++ c :: cs) = gapText bl ++ c :: squeeze false cs := by
  rw [squeeze_blanks hbl]
  cases bl with
  | nil => exact squeeze_inside hc cs
  | cons b bl => exact squeeze_after hc hne cs

/-- A word after a gap. -/
theorem squeeze_gap_word {bl w : List Char} (hbl : ∀ c ∈ bl, isBlank c = true) (hw : w ≠ [])
    (hsolid : ∀ c ∈ w, isBlank c = false) (hne : w.head? ≠ some ';') (cs : List Char) :
    squeeze false (bl ++ (w ++ cs)) = gapText bl ++ (w ++ squeeze false cs) := by
  obtain ⟨c, v, rfl⟩ := List.exists_cons_of_ne_nil hw
  rw [List.cons_append, squeeze_gap hbl (hsolid c (by simp)) (by simpa using hne),
    squeeze_word fun d hd => hsolid d (by simp [hd])]
  rfl

/-- The end of a text whose form does not depend on what came before. -/
theorem squeeze_append_end {ds es : List Char} (h : ∀ gap, squeeze gap ds = es) (gap : Bool)
    (cs : List Char) : squeeze gap (cs ++ ds) = squeeze gap cs ++ es := by
  induction cs generalizing gap with
  | nil => exact h gap
  | cons c cs ih =>
    rw [List.cons_append, squeeze, squeeze]
    split
    · exact ih true
    · split
      · rw [ih false]; rfl
      · rw [ih false]; rfl

theorem dense_squeeze (gap : Bool) (cs : List Char) : dense (squeeze gap cs) = dense cs := by
  induction cs generalizing gap with
  | nil => rfl
  | cons c cs ih =>
    rw [squeeze]
    split
    · next h => rw [ih, dense_cons, if_pos h]
    · next h =>
      split
      · rw [dense_cons, if_pos isBlank_space, dense_cons, if_neg h, ih, dense_cons, if_neg h]
      · rw [dense_cons, if_neg h, ih, dense_cons, if_neg h]

theorem mem_squeeze {gap : Bool} {cs : List Char} {d : Char} (h : d ∈ squeeze gap cs) :
    d ∈ cs ∧ isBlank d = false ∨ d = ' ' := by
  by_cases hd : isBlank d = true
  · right
    induction cs generalizing gap with
    | nil => simp [squeeze] at h
    | cons c cs ih =>
      rw [squeeze] at h
      split at h
      · exact ih h
      · next hc =>
        have hdc : d ≠ c := by rintro rfl; exact hc hd
        split at h
        · rcases List.mem_cons.1 h with h | h
          · exact h
          · exact ih ((List.mem_cons.1 h).resolve_left hdc)
        · exact ih ((List.mem_cons.1 h).resolve_left hdc)
  · have hd' : d ∈ dense (squeeze gap cs) := List.mem_filter.2 ⟨h, by simpa using hd⟩
    rw [dense_squeeze] at hd'
    exact Or.inl ⟨(List.mem_filter.1 hd').1, by simpa using hd⟩

theorem last_squeeze (gap : Bool) (cs : List Char) :
    ∀ c ∈ (squeeze gap cs).getLast?, isBlank c = false := by
  induction cs generalizing gap with
  | nil => simp [squeeze]
  | cons d cs ih =>
    rw [squeeze]
    split
    · exact ih true
    · next hd =>
      have hd' : isBlank d = false := by simpa using hd
      have hlast : ∀ c ∈ (d :: squeeze false cs).getLast?, isBlank c = false := by
        cases hcs : squeeze false cs with
        | nil => simpa using hd'
        | cons e es => rw [List.getLast?_cons_cons, ← hcs]; exact ih false
      split
      · rw [List.getLast?_cons_cons]; exact hlast
      · exact hlast

theorem squeeze_squeeze (gap : Bool) (cs : List Char) :
    squeeze false (squeeze gap cs) = squeeze gap cs := by
  induction cs generalizing gap with
  | nil => rfl
  | cons c cs ih =>
    rw [squeeze]
    split
    · exact ih true
    · next h =>
      have h' : isBlank c = false := by simpa using h
      split
      · next hgap =>
        have hc : c ≠ ';' := by
          simp only [Bool.and_eq_true, bne_iff_ne] at hgap; exact hgap.2
        rw [squeeze_blank isBlank_space, squeeze_after h' hc, ih]
      · rw [squeeze_inside h', ih]

@[simp] theorem words_nil : words [] = [] := rfl

theorem words_cons (c : Char) (cs : List Char) :
    words (c :: cs) =
      if isBlank c then words cs
      else match cs, words cs with
        | d :: _, w :: ws => if isBlank d then [c] :: w :: ws else (c :: w) :: ws
        | _, ws => [c] :: ws := rfl

theorem words_blank {c : Char} (h : isBlank c = true) (cs : List Char) :
    words (c :: cs) = words cs := by
  rw [words_cons, if_pos h]

theorem words_one {c : Char} (h : isBlank c = false) : words [c] = [[c]] := by
  rw [words_cons]; simp only [h]; rfl

theorem words_next {c : Char} (h : isBlank c = false) (d : Char) (ds : List Char) :
    words (c :: d :: ds) =
      match words (d :: ds) with
      | w :: ws => if isBlank d then [c] :: w :: ws else (c :: w) :: ws
      | [] => [[c]] := by
  rw [words_cons]
  simp only [h]
  cases words (d :: ds) <;> rfl

theorem words_blanks {bl : List Char} (h : ∀ c ∈ bl, isBlank c = true) (cs : List Char) :
    words (bl ++ cs) = words cs := by
  induction bl with
  | nil => rfl
  | cons b bl ih =>
    rw [List.cons_append, words_blank (h b (by simp)), ih fun c hc => h c (by simp [hc])]

theorem words_word {c : Char} {w : List Char} (h : ∀ d ∈ c :: w, isBlank d = false) :
    words (c :: w) = [c :: w] := by
  induction w generalizing c with
  | nil => exact words_one (h c (by simp))
  | cons d w ih =>
    rw [words_next (h c (by simp)), ih fun e he => h e (by simp [he])]
    simp [h d (by simp)]

/-- A blank after a word ends it. -/
theorem words_word_blank {c b : Char} {w : List Char} (h : ∀ d ∈ c :: w, isBlank d = false)
    (hb : isBlank b = true) (cs : List Char) :
    words (c :: w ++ b :: cs) = (c :: w) :: words cs := by
  induction w generalizing c with
  | nil =>
    rw [List.cons_append, List.nil_append, words_next (h c (by simp)), words_blank hb]
    cases words cs <;> simp [hb]
  | cons d w ih =>
    rw [List.cons_append, List.cons_append, words_next (h c (by simp)), ← List.cons_append,
      ih fun e he => h e (by simp [he])]
    simp [h d (by simp)]

/-- A text is blank, or it has a first word that ends at a blank or with the text. -/
theorem exists_first_word (cs : List Char) :
    (∀ c ∈ cs, isBlank c = true) ∨
    ∃ bl c w rest, cs = bl ++ (c :: w ++ rest) ∧ (∀ d ∈ bl, isBlank d = true) ∧
      (∀ d ∈ c :: w, isBlank d = false) ∧
      (rest = [] ∨ ∃ b more, rest = b :: more ∧ isBlank b = true) := by
  obtain ⟨bl, hbl, hcs⟩ := exists_blanks_trimStart cs
  cases hstart : trimStart cs with
  | nil => left; rw [hcs, hstart, List.append_nil]; exact hbl
  | cons c ds =>
    right
    have hc : isBlank c = false := head_trimStart cs c (by rw [hstart]; rfl)
    refine ⟨bl, c, ds.takeWhile fun d => !isBlank d, ds.dropWhile fun d => !isBlank d, ?_, hbl,
      ?_, ?_⟩
    · rw [List.cons_append, List.takeWhile_append_dropWhile, ← hstart]; exact hcs
    · intro d hd
      rcases List.mem_cons.1 hd with rfl | hd
      · exact hc
      · simpa using List.all_eq_true.1 List.all_takeWhile d hd
    · cases hrest : ds.dropWhile fun d => !isBlank d with
      | nil => exact Or.inl rfl
      | cons b more =>
        have hnot := List.head?_dropWhile_not (fun d => !isBlank d) ds
        rw [hrest] at hnot
        exact Or.inr ⟨b, more, rfl, by simpa using hnot⟩

theorem solid_of_mem_words {cs w : List Char} (h : w ∈ words cs) :
    w ≠ [] ∧ ∀ c ∈ w, isBlank c = false ∧ c ∈ cs := by
  have key : ∀ (n : Nat) (cs : List Char), cs.length ≤ n → ∀ w ∈ words cs,
      w ≠ [] ∧ ∀ c ∈ w, isBlank c = false ∧ c ∈ cs := by
    intro n
    induction n with
    | zero =>
      intro cs hn w hw
      rw [List.length_eq_zero_iff.1 (by omega : cs.length = 0), words_nil] at hw
      cases hw
    | succ n ih =>
      intro cs hn w hw
      rcases exists_first_word cs with hblank | ⟨bl, c, v, rest, rfl, hbl, hv, hrest⟩
      · have hnil := words_blanks hblank []
        rw [List.append_nil, words_nil] at hnil
        rw [hnil] at hw
        cases hw
      · rw [words_blanks hbl] at hw
        have hfirst : c :: v ≠ [] ∧ ∀ d ∈ c :: v, isBlank d = false ∧ d ∈ bl ++ (c :: v ++ rest) :=
          ⟨by simp, fun d hd => ⟨hv d hd, List.mem_append_right _ (List.mem_append_left _ hd)⟩⟩
        rcases hrest with rfl | ⟨b, more, rfl, hb⟩
        · rw [List.append_nil, words_word hv, List.mem_singleton] at hw
          rw [hw]; exact hfirst
        · rw [words_word_blank hv hb] at hw
          rcases List.mem_cons.1 hw with rfl | hw
          · exact hfirst
          · obtain ⟨hne, hall⟩ := ih more (by simp at hn; omega) w hw
            exact ⟨hne, fun d hd => ⟨(hall d hd).1, by simp [(hall d hd).2]⟩⟩
  exact key cs.length cs (Nat.le_refl _) w h

theorem unwords_cons (w v : List Char) (ws : List (List Char)) :
    unwords (w :: v :: ws) = w ++ ' ' :: unwords (v :: ws) := rfl

theorem mem_unwords {ws : List (List Char)} {c : Char} (h : c ∈ unwords ws) :
    c = ' ' ∨ ∃ w ∈ ws, c ∈ w := by
  induction ws with
  | nil => cases h
  | cons w ws ih =>
    cases ws with
    | nil => exact Or.inr ⟨w, by simp, h⟩
    | cons v vs =>
      rw [unwords_cons, List.mem_append, List.mem_cons] at h
      rcases h with h | h | h
      · exact Or.inr ⟨w, by simp, h⟩
      · exact Or.inl h
      · rcases ih h with h | ⟨u, hu, h⟩
        · exact Or.inl h
        · exact Or.inr ⟨u, List.mem_cons_of_mem w hu, h⟩

theorem unwords_ne_nil {w : List Char} (hw : w ≠ []) (ws : List (List Char)) :
    unwords (w :: ws) ≠ [] := by
  cases ws with
  | nil => exact hw
  | cons v vs => rw [unwords_cons]; simp

theorem head_unwords {p : Char → Prop} {ws : List (List Char)}
    (h : ∀ w ∈ ws, w ≠ [] ∧ ∀ c ∈ w, p c) : ∀ c ∈ (unwords ws).head?, p c := by
  cases ws with
  | nil => simp [unwords]
  | cons w ws =>
    obtain ⟨hw, hp⟩ := h w (by simp)
    obtain ⟨c, cs, rfl⟩ := List.exists_cons_of_ne_nil hw
    cases ws with
    | nil => simpa [unwords] using hp c (by simp)
    | cons v vs => rw [unwords_cons]; simpa using hp c (by simp)

theorem last_unwords {p : Char → Prop} {ws : List (List Char)}
    (h : ∀ w ∈ ws, w ≠ [] ∧ ∀ c ∈ w, p c) : ∀ c ∈ (unwords ws).getLast?, p c := by
  induction ws with
  | nil => simp [unwords]
  | cons w ws ih =>
    cases ws with
    | nil => exact fun c hc => (h w (by simp)).2 c (List.mem_of_getLast? hc)
    | cons v vs =>
      have hrest := ih fun u hu => h u (List.mem_cons_of_mem w hu)
      have hne := unwords_ne_nil (h v (by simp)).1 vs
      rw [unwords_cons, List.getLast?_append, List.getLast?_cons_of_ne_nil hne]
      obtain ⟨last, hl⟩ := Option.ne_none_iff_exists'.1 (mt List.getLast?_eq_none_iff.1 hne)
      rw [hl] at hrest ⊢
      exact hrest

/-- Words that each come after a space. -/
theorem flatMap_space (ws : List (List Char)) :
    ∃ bl, (∀ c ∈ bl, isBlank c = true) ∧ ws.flatMap (' ' :: ·) = bl ++ unwords ws := by
  cases ws with
  | nil => exact ⟨[], by simp, rfl⟩
  | cons w ws =>
    refine ⟨[' '], by simp [isBlank_space], ?_⟩
    induction ws generalizing w with
    | nil => simp [unwords]
    | cons v vs ih =>
      rw [List.flatMap_cons, ih v, unwords_cons]
      simp

theorem words_unwords {ws : List (List Char)}
    (h : ∀ w ∈ ws, w ≠ [] ∧ ∀ c ∈ w, isBlank c = false) : words (unwords ws) = ws := by
  induction ws with
  | nil => rfl
  | cons w ws ih =>
    obtain ⟨hne, hw⟩ := h w (by simp)
    obtain ⟨c, v, rfl⟩ := List.exists_cons_of_ne_nil hne
    have hws := ih fun v hv => h v (by simp [hv])
    cases ws with
    | nil => exact words_word hw
    | cons u us => rw [unwords_cons, words_word_blank hw isBlank_space, hws]

theorem tighten_cons {c : Char} (h : isBlank c = false) (cs : List Char) :
    tightenTerminators (c :: cs) = c :: tightenTerminators cs := by
  rw [tightenTerminators.eq_2]
  rintro rest rfl
  exact absurd h (by decide)

theorem tighten_word {w : List Char} (h : ∀ c ∈ w, isBlank c = false) (cs : List Char) :
    tightenTerminators (w ++ cs) = w ++ tightenTerminators cs := by
  induction w with
  | nil => rfl
  | cons c w ih =>
    rw [List.cons_append, tighten_cons (h c (by simp)), ih fun d hd => h d (by simp [hd]),
      List.cons_append]

theorem tighten_space {c : Char} (hc : c ≠ ';') (cs : List Char) :
    tightenTerminators (' ' :: c :: cs) = ' ' :: tightenTerminators (c :: cs) := by
  rw [tightenTerminators.eq_2]
  rintro rest - h
  exact hc (List.cons.inj h).1

/-- What the words after a blank give. -/
def afterGap : List (List Char) → List Char
  | [] => []
  | ws => tightenTerminators (' ' :: unwords ws)

theorem tighten_unwords {w : List Char} (h : ∀ c ∈ w, isBlank c = false)
    (ws : List (List Char)) :
    tightenTerminators (unwords (w :: ws)) = w ++ afterGap ws := by
  cases ws with
  | nil =>
    have hw := tighten_word h []
    rw [List.append_nil] at hw
    exact hw
  | cons v vs => rw [unwords_cons, tighten_word h]; rfl

theorem afterGap_cons {c : Char} {w : List Char} (h : ∀ d ∈ c :: w, isBlank d = false)
    (ws : List (List Char)) :
    afterGap ((c :: w) :: ws) =
      (if c = ';' then [c] else [' ', c]) ++ (w ++ afterGap ws) := by
  have hun := tighten_unwords h ws
  obtain ⟨text, htext⟩ : ∃ text, unwords ((c :: w) :: ws) = c :: text := by
    cases ws <;> exact ⟨_, rfl⟩
  rw [htext, tighten_cons (h c (by simp)), List.cons_append, List.cons_inj_right] at hun
  rw [afterGap, htext]
  · split
    · next hc => subst hc; rw [tightenTerminators.eq_1, hun]; rfl
    · next hc => rw [tighten_space hc, tighten_cons (h c (by simp)), hun]; rfl
  · simp

theorem squeeze_true_eq (cs : List Char) : squeeze true cs = afterGap (words cs) := by
  have key : ∀ (n : Nat) (cs : List Char), cs.length ≤ n → squeeze true cs = afterGap (words cs) := by
    intro n
    induction n with
    | zero =>
      intro cs hn
      rw [List.length_eq_zero_iff.1 (by omega : cs.length = 0)]; rfl
    | succ n ih =>
      intro cs hn
      rcases exists_first_word cs with hblank | ⟨bl, c, w, rest, rfl, hbl, hw, hrest⟩
      · have hwords := words_blanks hblank []
        have hsqueeze := squeeze_blanks hblank true []
        rw [List.append_nil] at hwords hsqueeze
        rw [hwords, hsqueeze]; rfl
      · have hlead : squeeze true (c :: w ++ rest) =
            (if c = ';' then [c] else [' ', c]) ++ (w ++ squeeze false rest) := by
          rw [← squeeze_word fun d hd => hw d (by simp [hd])]
          by_cases hc : c = ';'
          · rw [if_pos hc, hc]; exact squeeze_terminator true _
          · rw [if_neg hc]; exact squeeze_after (hw c (by simp)) hc _
        rw [squeeze_blanks hbl, Bool.true_or, hlead, words_blanks hbl]
        rcases hrest with rfl | ⟨b, more, rfl, hb⟩
        · rw [List.append_nil, words_word hw, afterGap_cons hw]; rfl
        · have hmore : more.length ≤ n := by simp at hn; omega
          rw [words_word_blank hw hb, afterGap_cons hw, squeeze_blank hb, ih more hmore]
  exact key cs.length cs (Nat.le_refl _)

theorem collapse_eq_squeeze (cs : List Char) : collapse cs = squeeze false (trimStart cs) := by
  rcases exists_first_word cs with hblank | ⟨bl, c, w, rest, rfl, hbl, hw, hrest⟩
  · have hwords := words_blanks hblank []
    have htrim := trimStart_append_blanks hblank []
    rw [List.append_nil] at hwords htrim
    rw [collapse, hwords, htrim]; rfl
  · have hstart : trimStart (c :: w ++ rest) = c :: w ++ rest := trimStart_cons (hw c (by simp)) _
    rw [collapse, words_blanks hbl, trimStart_append_blanks hbl, hstart, squeeze_word hw]
    rcases hrest with rfl | ⟨b, more, rfl, hb⟩
    · rw [List.append_nil, words_word hw, tighten_unwords hw]; rfl
    · rw [words_word_blank hw hb, tighten_unwords hw, squeeze_blank hb, squeeze_true_eq]

/-- On a text that starts with no blank. -/
theorem collapse_eq_of_head {cs : List Char} (h : ∀ c ∈ cs.head?, isBlank c = false) :
    collapse cs = squeeze false cs := by
  rw [collapse_eq_squeeze, trimStart_of_head h]

theorem dense_trimStart (cs : List Char) : dense (trimStart cs) = dense cs := by
  obtain ⟨bl, hbl, hcs⟩ := exists_blanks_trimStart cs
  rw [congrArg dense hcs, dense_append, dense_of_blanks hbl, List.nil_append]

theorem dense_collapse (cs : List Char) : dense (collapse cs) = dense cs := by
  rw [collapse_eq_squeeze, dense_squeeze, dense_trimStart]

theorem trimmed_collapse (cs : List Char) : Trimmed (collapse cs) := by
  rw [collapse_eq_squeeze]
  refine ⟨?_, last_squeeze _ _⟩
  cases h : trimStart cs with
  | nil => simp [squeeze]
  | cons d ds =>
    have hd : isBlank d = false := head_trimStart cs d (by rw [h]; rfl)
    simpa [squeeze_inside hd] using hd

theorem collapse_collapse (cs : List Char) : collapse (collapse cs) = collapse cs := by
  rw [collapse_eq_of_head (trimmed_collapse cs).head, collapse_eq_squeeze, squeeze_squeeze]

theorem squeeze_append_blanks {bl : List Char} (h : ∀ c ∈ bl, isBlank c = true) (gap : Bool)
    (cs : List Char) : squeeze gap (cs ++ bl) = squeeze gap cs := by
  have hend : ∀ gap, squeeze gap bl = [] := fun gap => by
    have hblanks := squeeze_blanks h gap []
    rwa [List.append_nil] at hblanks
  rw [squeeze_append_end hend, List.append_nil]

/-- After a text that ends with no blank the pass starts anew. -/
theorem squeeze_append_of_last {cs : List Char} (h : ∀ c ∈ cs.getLast?, isBlank c = false)
    (ds : List Char) : squeeze false (cs ++ ds) = squeeze false cs ++ squeeze false ds := by
  have key : ∀ (gap : Bool) (cs : List Char), cs ≠ [] → (∀ c ∈ cs.getLast?, isBlank c = false) →
      squeeze gap (cs ++ ds) = squeeze gap cs ++ squeeze false ds := by
    intro gap cs hne hlast
    induction cs generalizing gap with
    | nil => exact absurd rfl hne
    | cons c cs ih =>
      rw [List.cons_append, squeeze, squeeze]
      by_cases hcs : cs = []
      · subst hcs
        have hc : isBlank c = false := hlast c rfl
        simp only [hc, Bool.false_eq_true, if_false, List.nil_append]
        split <;> simp [squeeze]
      · rw [List.getLast?_cons_of_ne_nil hcs] at hlast
        rw [ih true hcs hlast, ih false hcs hlast]
        split
        · rfl
        · split <;> rfl
  by_cases hcs : cs = []
  · subst hcs
    rfl
  · exact key false cs hcs h

theorem trimStart_squeeze (gap : Bool) (cs : List Char) :
    trimStart (squeeze gap cs) = squeeze false (trimStart cs) := by
  induction cs generalizing gap with
  | nil => rfl
  | cons c cs ih =>
    by_cases hc : isBlank c = true
    · have hblank : trimStart ([c] ++ cs) = trimStart cs :=
        trimStart_append_blanks (by simpa using hc) cs
      rw [squeeze_blank hc, ih, ← hblank]
      rfl
    · have hsolid : isBlank c = false := by simpa using hc
      have hspace : trimStart ([' '] ++ c :: squeeze false cs) = trimStart (c :: squeeze false cs) :=
        trimStart_append_blanks (by simp [isBlank_space]) _
      rw [trimStart_cons hsolid, squeeze_inside hsolid, squeeze, if_neg hc]
      split
      · exact hspace.trans (trimStart_cons hsolid _)
      · exact trimStart_cons hsolid _

theorem collapse_squeeze (gap : Bool) (cs : List Char) : collapse (squeeze gap cs) = collapse cs := by
  rw [collapse_eq_squeeze, trimStart_squeeze, squeeze_squeeze, ← collapse_eq_squeeze]

theorem collapse_append_blanks {bl : List Char} (h : ∀ c ∈ bl, isBlank c = true) (cs : List Char) :
    collapse (cs ++ bl) = collapse cs := by
  rw [← collapse_squeeze false, squeeze_append_blanks h, collapse_squeeze]

/-- A mark after a text does not matter to how the text is collapsed. -/
theorem collapse_of_squeeze_mark {c : Char} (hc : isBlank c = false) (hne : c ≠ ';')
    {cs front : List Char} (h : squeeze false (cs ++ [c]) = front ++ [c]) :
    collapse front = collapse cs := by
  obtain ⟨bl, hbl, hcs⟩ := exists_trimEnd_blanks cs
  have hfront : front = squeeze false (trimEnd cs) ++ gapText bl := by
    have hgap : squeeze false (bl ++ [c]) = gapText bl ++ [c] := squeeze_gap hbl hc hne []
    rw [hcs, List.append_assoc, squeeze_append_of_last (last_trimEnd cs), hgap,
      ← List.append_assoc] at h
    exact (List.append_cancel_right h).symm
  rw [hfront, collapse_append_blanks fun _ => blank_of_mem_gapText, collapse_squeeze,
    ← collapse_append_blanks hbl (trimEnd cs), ← hcs]

end LineGrammar.Text
