import LineGrammar.Proofs.Collapse
import LineGrammar.Proofs.Scanners
import LineGrammar.Proofs.Sequences

/-! Lists of names. A list is read item by item, and each item takes the blanks on both sides of it; what is
read is the list of the words of the text, and the list is refused when one of the words is no name. -/

namespace LineGrammar

namespace Text

/-- The maximal runs without a blank, each with its column. -/
def wordsAt : Nat → List Char → List Slice
  | _, [] => []
  | column, c :: cs =>
    if isBlank c then wordsAt (column + 1) cs
    else match cs, wordsAt (column + 1) cs with
      | d :: _, w :: ws =>
        if isBlank d then ⟨column, [c]⟩ :: w :: ws else ⟨column, c :: w.chars⟩ :: ws
      | _, ws => ⟨column, [c]⟩ :: ws

theorem wordsAt_cons (column : Nat) (c : Char) (cs : List Char) :
    wordsAt column (c :: cs) =
      if isBlank c then wordsAt (column + 1) cs
      else match cs, wordsAt (column + 1) cs with
        | d :: _, w :: ws =>
          if isBlank d then ⟨column, [c]⟩ :: w :: ws else ⟨column, c :: w.chars⟩ :: ws
        | _, ws => ⟨column, [c]⟩ :: ws := rfl

theorem wordsAt_blank {b : Char} (h : isBlank b = true) (column : Nat) (cs : List Char) :
    wordsAt column (b :: cs) = wordsAt (column + 1) cs := by
  rw [wordsAt_cons, if_pos h]

theorem wordsAt_one {c : Char} (h : isBlank c = false) (column : Nat) :
    wordsAt column [c] = [⟨column, [c]⟩] := by
  rw [wordsAt_cons, if_neg (by simp [h])]
  rfl

theorem wordsAt_next {c : Char} (h : isBlank c = false) (column : Nat) (d : Char) (ds : List Char) :
    wordsAt column (c :: d :: ds) =
      match wordsAt (column + 1) (d :: ds) with
      | w :: ws => if isBlank d then ⟨column, [c]⟩ :: w :: ws else ⟨column, c :: w.chars⟩ :: ws
      | [] => [⟨column, [c]⟩] := by
  rw [wordsAt_cons, if_neg (by simp [h])]
  cases wordsAt (column + 1) (d :: ds) <;> rfl

/-- They are the words of the text. -/
theorem map_chars_wordsAt (column : Nat) (cs : List Char) :
    (wordsAt column cs).map Slice.chars = words cs := by
  induction cs generalizing column with
  | nil => rfl
  | cons c cs ih =>
    have hrest := ih (column + 1)
    cases hc : isBlank c with
    | true => rw [wordsAt_blank hc, words_blank hc, hrest]
    | false =>
      cases cs with
      | nil => rw [wordsAt_one hc, words_one hc]; rfl
      | cons d ds =>
        rw [wordsAt_next hc, words_next hc, ← hrest]
        cases wordsAt (column + 1) (d :: ds) with
        | nil => rfl
        | cons w ws => cases isBlank d <;> rfl

theorem wordsAt_blanks {bl : List Char} (h : ∀ c ∈ bl, isBlank c = true) (column : Nat)
    (cs : List Char) : wordsAt column (bl ++ cs) = wordsAt (column + bl.length) cs := by
  induction bl generalizing column with
  | nil => rfl
  | cons b bl ih =>
    rw [List.cons_append, wordsAt_blank (h b (by simp)), ih fun c hc => h c (by simp [hc])]
    simp [Nat.add_assoc, Nat.add_comm 1]

theorem wordsAt_append_blanks {bl : List Char} (h : ∀ c ∈ bl, isBlank c = true) (column : Nat)
    (cs : List Char) : wordsAt column (cs ++ bl) = wordsAt column cs := by
  have hnone : ∀ n, wordsAt n bl = [] := fun n => by
    have hskip := wordsAt_blanks h n []
    rwa [List.append_nil] at hskip
  induction cs generalizing column with
  | nil => exact hnone column
  | cons c cs ih =>
    cases hc : isBlank c with
    | true => rw [List.cons_append, wordsAt_blank hc, wordsAt_blank hc, ih]
    | false =>
      cases cs with
      | nil =>
        rw [wordsAt_one hc, List.singleton_append]
        cases bl with
        | nil => exact wordsAt_one hc column
        | cons b bl => rw [wordsAt_next hc, hnone]
      | cons d ds =>
        rw [wordsAt_next hc, ← ih]
        exact wordsAt_next hc column d (ds ++ bl)

/-- A word that ends at a blank or with the text. -/
theorem wordsAt_cut {w bl rest : List Char} (hw : w ≠ []) (hsolid : ∀ c ∈ w, isBlank c = false)
    (hbl : ∀ c ∈ bl, isBlank c = true) (hend : bl ≠ [] ∨ rest = []) (column : Nat) :
    wordsAt column (w ++ (bl ++ rest)) =
      ⟨column, w⟩ :: wordsAt (column + w.length + bl.length) rest := by
  have hhead : ∀ c ∈ (bl ++ rest).head?, isBlank c = true := by
    cases bl with
    | nil => rw [hend.resolve_left (by simp)]; simp
    | cons b bl => simpa using hbl b (by simp)
  rw [← wordsAt_blanks hbl]
  clear hend hbl
  generalize bl ++ rest = tail at hhead
  induction w generalizing column with
  | nil => exact absurd rfl hw
  | cons c w ih =>
    have hc := hsolid c (by simp)
    cases w with
    | nil =>
      cases tail with
      | nil => exact wordsAt_one hc column
      | cons b more =>
        have hb : isBlank b = true := hhead b rfl
        rw [List.singleton_append, wordsAt_next hc, List.length_singleton]
        cases wordsAt (column + 1) (b :: more) <;> simp [hb]
    | cons d w =>
      have hd := hsolid d (by simp)
      have hrest := ih (by simp) (fun e he => hsolid e (List.mem_cons_of_mem c he)) (column + 1)
      rw [List.cons_append] at hrest
      rw [List.cons_append, List.cons_append, wordsAt_next hc, hrest]
      simp [hd, Nat.add_assoc, Nat.add_comm 1]

/-- A text that starts with a word has that word first. -/
theorem exists_wordsAt {c : Char} (h : isBlank c = false) (column : Nat) (cs : List Char) :
    ∃ w ws, wordsAt column (c :: cs) = ⟨column, c :: w⟩ :: ws := by
  cases cs with
  | nil => exact ⟨[], [], wordsAt_one h column⟩
  | cons d ds =>
    rw [wordsAt_next h]
    cases wordsAt (column + 1) (d :: ds) with
    | nil => exact ⟨[], [], rfl⟩
    | cons w ws => cases isBlank d <;> exact ⟨_, _, rfl⟩

/-- A word is found at its column. -/
theorem occurs_wordsAt {column : Nat} {cs : List Char} :
    ∀ w ∈ wordsAt column cs, column ≤ w.column ∧ w.chars <+: cs.drop (w.column - column) := by
  induction cs generalizing column with
  | nil => exact fun w hw => absurd hw List.not_mem_nil
  | cons c cs ih =>
    have hlater : ∀ w ∈ wordsAt (column + 1) cs,
        column ≤ w.column ∧ w.chars <+: (c :: cs).drop (w.column - column) := fun w hw => by
      obtain ⟨hle, hoccurs⟩ := ih w hw
      refine ⟨by omega, ?_⟩
      rwa [show w.column - column = w.column - (column + 1) + 1 by omega, List.drop_succ_cons]
    cases hc : isBlank c with
    | true => rw [wordsAt_blank hc]; exact hlater
    | false =>
      cases cs with
      | nil => rw [wordsAt_one hc]; simp
      | cons d ds =>
        rw [wordsAt_next hc]
        cases hwords : wordsAt (column + 1) (d :: ds) with
        | nil => simp
        | cons w ws =>
          rw [hwords] at hlater
          cases hd : isBlank d with
          | true => simpa using hlater
          | false =>
            -- the word that starts at `d` starts one character earlier
            obtain ⟨v, vs, hv⟩ := exists_wordsAt hd (column + 1) ds
            rw [hwords] at hv
            cases hv
            obtain ⟨-, hoccurs⟩ := ih ⟨column + 1, d :: v⟩ (hwords ▸ List.mem_cons_self)
            dsimp only at hoccurs
            rw [Nat.sub_self, List.drop_zero] at hoccurs
            intro w hw
            rcases List.mem_cons.1 hw with rfl | hw
            · simpa using hoccurs
            · exact hlater w (List.mem_cons_of_mem _ hw)

/-- The words are in order, and between two of them there is a character of neither. -/
theorem pairwise_wordsAt (column : Nat) (cs : List Char) :
    (wordsAt column cs).Pairwise fun v w => v.stop < w.column := by
  induction cs generalizing column with
  | nil => exact .nil
  | cons c cs ih =>
    cases hc : isBlank c with
    | true => rw [wordsAt_blank hc]; exact ih _
    | false =>
      cases cs with
      | nil => rw [wordsAt_one hc]; exact List.pairwise_singleton _ _
      | cons d ds =>
        rw [wordsAt_next hc]
        have hrest := ih (column + 1)
        cases hwords : wordsAt (column + 1) (d :: ds) with
        | nil => exact List.pairwise_singleton _ _
        | cons w ws =>
          rw [hwords] at hrest
          cases hd : isBlank d with
          | true =>
            rw [wordsAt_blank hd] at hwords
            refine List.pairwise_cons.2 ⟨fun v hv => ?_, hrest⟩
            have hle := (occurs_wordsAt v (hwords ▸ hv)).1
            simp only [Slice.stop, List.length_singleton]
            omega
          | false =>
            obtain ⟨v, vs, hv⟩ := exists_wordsAt hd (column + 1) ds
            rw [hwords] at hv
            cases hv
            obtain ⟨hfirst, hmore⟩ := List.pairwise_cons.1 hrest
            refine List.pairwise_cons.2 ⟨fun u hu => ?_, hmore⟩
            have hlt := hfirst u hu
            simp only [Slice.stop, List.length_cons] at hlt ⊢
            omega

/-- A text that ends with no blank has a first word. -/
theorem exists_word {cs : List Char} (hne : cs ≠ []) (hlast : ∀ c ∈ cs.getLast?, isBlank c = false) :
    ∃ gap w bl rest, cs = gap ++ (w ++ (bl ++ rest)) ∧ (∀ c ∈ gap, isBlank c = true) ∧ w ≠ [] ∧
      (∀ c ∈ w, isBlank c = false) ∧ (∀ c ∈ bl, isBlank c = true) ∧ (bl ≠ [] ∨ rest = []) ∧
      (∀ c ∈ rest.head?, isBlank c = false) ∧ ∀ c ∈ rest.getLast?, isBlank c = false := by
  rcases exists_first_word cs with hblank | ⟨gap, c, w, rest, rfl, hgap, hw, hrest⟩
  · obtain ⟨last, hl⟩ := Option.ne_none_iff_exists'.1 (mt List.getLast?_eq_none_iff.1 hne)
    exact absurd (hlast last hl) (by simp [hblank last (List.mem_of_getLast? hl)])
  · obtain ⟨bl, hbl, hs⟩ := exists_blanks_trimStart rest
    refine ⟨gap, c :: w, bl, trimStart rest, by rw [← hs], hgap, by simp, hw, hbl, ?_,
      head_trimStart _, fun d hd => hlast d ?_⟩
    · rcases hrest with rfl | ⟨b, more, rfl, hb⟩
      · exact Or.inr rfl
      · left
        rintro rfl
        have hhead := head_trimStart (b :: more) b
        rw [← List.nil_append (trimStart _), ← hs] at hhead
        exact absurd (hhead rfl) (by simp [hb])
    · rw [Option.mem_def] at hd ⊢
      rw [hs]
      simp only [List.getLast?_append, hd, Option.some_or]

end Text

namespace Slice

/-- An item with the blanks around it, on a text that is written so. -/
theorem listItem?_append {gap w bl rest : List Char} (column : Nat) (hw : IsNameText w)
    (hgap : ∀ c ∈ gap, isBlank c = true) (hbl : ∀ c ∈ bl, isBlank c = true)
    (hend : bl ≠ [] ∨ rest = []) (hrest : ∀ c ∈ rest.head?, isBlank c = false) :
    (⟨column, gap ++ (w ++ (bl ++ rest))⟩ : Slice).listItem? =
      some (⟨column + gap.length, w⟩, ⟨column + gap.length + w.length + bl.length, rest⟩) := by
  have hstop : ∀ c ∈ (bl ++ rest).head?, isNameChar c = false := by
    cases bl with
    | nil => rw [hend.resolve_left (by simp)]; simp
    | cons b bl => simpa using isNameChar_of_isBlank (hbl b (by simp))
  have htrim := trimStart_append column hgap (hw.head_solid (bl ++ rest))
  have hname := name?_append (column + gap.length) hw hstop
  exact listItem?_steps.2 ⟨_, by rw [htrim]; exact hname, (trimStart_append _ hbl hrest).symm⟩

theorem listItem?_eq_some {s name rest : Slice} (h : s.listItem? = some (name, rest)) :
    ∃ gap w bl cs, (∀ c ∈ gap, isBlank c = true) ∧ (∀ c ∈ bl, isBlank c = true) ∧ IsNameText w ∧
      s = ⟨s.column, gap ++ (w ++ (bl ++ cs))⟩ ∧ name = ⟨s.column + gap.length, w⟩ ∧
      rest = ⟨s.column + gap.length + w.length + bl.length, cs⟩ ∧
      (∀ c ∈ cs.head?, isBlank c = false) ∧ ∀ c ∈ (bl ++ cs).head?, isNameChar c = false := by
  obtain ⟨s₂, hname, rfl⟩ := listItem?_steps.1 h
  obtain ⟨gap, hgap, hs⟩ := exists_trimStart s
  obtain ⟨hcut, htext, hhead⟩ := name?_eq_some hname
  obtain ⟨bl, hbl, hs₂⟩ := exists_trimStart s₂
  have hstart : ∀ c ∈ s.trimStart.chars.head?, isBlank c = false := by
    rw [chars_trimStart]; exact Text.head_trimStart _
  have hstart₂ : ∀ c ∈ s₂.trimStart.chars.head?, isBlank c = false := by
    rw [chars_trimStart]; exact Text.head_trimStart _
  have htrim : s.trimStart = ⟨s.column + gap.length, s.trimStart.chars⟩ := by
    have hskip := trimStart_append s.column hgap hstart
    rwa [← hs] at hskip
  have htrim₂ : s₂.trimStart = ⟨s₂.column + bl.length, s₂.trimStart.chars⟩ := by
    have hskip := trimStart_append s₂.column hbl hstart₂
    rwa [← hs₂] at hskip
  have hcolumn : name.column = s.column + gap.length := hcut.column.trans (congrArg column htrim)
  have hnext : s₂.column = s.column + gap.length + name.chars.length := by
    rw [hcut.next, congrArg column htrim]
  refine ⟨gap, name.chars, bl, s₂.trimStart.chars, hgap, hbl, htext, ?_, ?_, ?_, hstart₂, ?_⟩
  · rw [← hs₂, ← hcut.chars, ← hs]
  · rw [← hcolumn]
  · rw [← hnext, ← htrim₂]
  · rw [← hs₂]; exact hhead

theorem cuts_listItem? : Cuts listItem? := by
  intro s rest name h
  obtain ⟨gap, w, bl, cs, -, -, -, hs, -, rfl, -⟩ := listItem?_eq_some h
  obtain ⟨column, chars⟩ := s
  obtain ⟨-, rfl⟩ := Slice.mk.inj hs
  refine ⟨⟨gap ++ (w ++ bl), by simp⟩, ?_⟩
  simp only [Slice.stop, List.length_append]
  omega

/-- What is read as a list are its words, and they are names. -/
theorem words_of_sequence? {s : Slice} {names : List Slice}
    (h : s.sequence? listItem? = some names) :
    names = Text.wordsAt s.column s.chars ∧ ∀ name ∈ names, IsNameText name.chars := by
  induction names generalizing s with
  | nil =>
    rcases sequence?_eq_some cuts_listItem? h with ⟨hnil, -⟩ | ⟨_, _, _, -, -, -, hcons⟩
    · rw [hnil]; exact ⟨rfl, by simp⟩
    · cases hcons
  | cons name names ih =>
    rcases sequence?_eq_some cuts_listItem? h with ⟨-, hnil⟩ | ⟨_, rest, _, hitem, hlt, hmore, hcons⟩
    · cases hnil
    · obtain ⟨rfl, rfl⟩ := List.cons.inj hcons
      obtain ⟨gap, w, bl, cs, hgap, hbl, hname, hs, rfl, rfl, hhead, hstop⟩ := listItem?_eq_some hitem
      obtain ⟨hwords, hall⟩ := ih hmore
      have hend : bl ≠ [] ∨ cs = [] := by
        rcases sequence?_eq_some cuts_listItem? hmore with ⟨hnil, -⟩ | ⟨next, _, _, hnext, -⟩
        · exact Or.inr hnil
        · -- a second item right after the first would start inside of its name
          left
          rintro rfl
          obtain ⟨gap', w', bl', cs', hgap', -, hname', hs', -⟩ := listItem?_eq_some hnext
          obtain ⟨-, rfl⟩ := Slice.mk.inj hs'
          obtain ⟨c, v, rfl⟩ := List.exists_cons_of_ne_nil (isSpelled_ne_nil hname')
          cases gap' with
          | cons b gap' => exact absurd (hhead b rfl) (by simp [hgap' b (by simp)])
          | nil => exact absurd (hstop c rfl) (by simp [hname'.chars c (by simp)])
      rw [hs]
      dsimp only at hwords ⊢
      rw [Text.wordsAt_blanks hgap, Text.wordsAt_cut (isSpelled_ne_nil hname) hname.solid hbl hend,
        ← hwords]
      refine ⟨rfl, fun m hm => ?_⟩
      rcases List.mem_cons.1 hm with rfl | hm
      · exact hname
      · exact hall m hm

/-- Words that are names are read as a list. -/
theorem sequence?_of_words {s : Slice} (hlast : ∀ c ∈ s.chars.getLast?, isBlank c = false)
    (h : ∀ w ∈ Text.words s.chars, IsNameText w) :
    s.sequence? listItem? = some (Text.wordsAt s.column s.chars) := by
  induction hn : s.chars.length using Nat.strongRecOn generalizing s with
  | ind n ih =>
    by_cases hnil : s.chars = []
    · rw [sequence?_nil cuts_listItem? hnil, hnil]
      rfl
    · obtain ⟨gap, w, bl, rest, hchars, hgap, hw, hsolid, hbl, hend, hhead, hlast'⟩ :=
        Text.exists_word hnil hlast
      obtain ⟨column, cs⟩ := s
      dsimp only at hchars
      subst hchars
      have hlength : 0 < w.length := List.length_pos_iff.2 hw
      have hshorter : rest.length < (gap ++ (w ++ (bl ++ rest))).length := by
        simp only [List.length_append]
        omega
      have hwords : Text.words (gap ++ (w ++ (bl ++ rest))) = w :: Text.words rest := by
        rw [← Text.map_chars_wordsAt column, Text.wordsAt_blanks hgap,
          Text.wordsAt_cut hw hsolid hbl hend, List.map_cons, Text.map_chars_wordsAt]
      dsimp only at h ⊢
      rw [hwords] at h
      have hitem := listItem?_append column (h w (by simp)) hgap hbl hend hhead
      have hmore := ih rest.length (hn ▸ hshorter)
        (s := ⟨column + gap.length + w.length + bl.length, rest⟩) hlast'
        (fun v hv => h v (List.mem_cons_of_mem w hv)) rfl
      rw [sequence?_cons cuts_listItem? hnil hitem hshorter, hmore, Option.map_some,
        Text.wordsAt_blanks hgap, Text.wordsAt_cut hw hsolid hbl hend]

/-- Blanks before the terminator are in no word. -/
theorem wordsAt_cutTerminator (s : Slice) :
    Text.wordsAt s.cutTerminator.1.column s.cutTerminator.1.chars =
      Text.wordsAt s.column s.unterminated := by
  obtain ⟨bl, hbl, htrim⟩ := Text.exists_trimEnd_blanks s.unterminated
  rw [column_cutTerminator, chars_cutTerminator,
    ← Text.wordsAt_append_blanks hbl s.column (Text.trimEnd s.unterminated), ← htrim]

theorem mem_cutTerminator {c : Char} (hc : isBlank c = false) (s : Slice) :
    c ∈ s.cutTerminator.1.chars ↔ c ∈ s.unterminated := by
  obtain ⟨bl, hbl, htrim⟩ := Text.exists_trimEnd_blanks s.unterminated
  rw [htrim, chars_cutTerminator, List.mem_append]
  exact (or_iff_left fun hm => absurd (hbl c hm) (by simp [hc])).symm

theorem nameList?_eq_some_iff {s : Slice} {names : List Slice} :
    s.nameList? = some names ↔
      ';' ∉ s.unterminated ∧ s.cutTerminator.1.sequence? listItem? = some names ∧ names ≠ [] := by
  rw [nameList?, ← mem_cutTerminator (c := ';') (by decide), ← List.contains_iff_mem]
  cases s.cutTerminator.1.chars.contains ';' <;> simp [Option.filter_eq_some_iff]

theorem nameList?_eq_some {s : Slice} {names : List Slice} (h : s.nameList? = some names) :
    ';' ∉ s.unterminated ∧ names ≠ [] ∧ names = Text.wordsAt s.column s.unterminated ∧
      ∀ name ∈ names, IsNameText name.chars := by
  obtain ⟨hsemi, hsequence, hne⟩ := nameList?_eq_some_iff.1 h
  obtain ⟨hnames, hall⟩ := words_of_sequence? hsequence
  exact ⟨hsemi, hne, hnames.trans (wordsAt_cutTerminator s), hall⟩

theorem nameList?_of_words {s : Slice} (hsemi : ';' ∉ s.unterminated)
    (hne : Text.words s.unterminated ≠ []) (h : ∀ w ∈ Text.words s.unterminated, IsNameText w) :
    s.nameList? = some (Text.wordsAt s.column s.unterminated) := by
  have hlast : ∀ c ∈ s.cutTerminator.1.chars.getLast?, isBlank c = false := by
    rw [chars_cutTerminator]; exact Text.last_trimEnd _
  have htexts : Text.words s.cutTerminator.1.chars = Text.words s.unterminated := by
    rw [← Text.map_chars_wordsAt s.cutTerminator.1.column, wordsAt_cutTerminator,
      Text.map_chars_wordsAt]
  have hread := sequence?_of_words hlast (htexts ▸ h)
  rw [wordsAt_cutTerminator] at hread
  refine nameList?_eq_some_iff.2 ⟨hsemi, hread, fun hnil => hne ?_⟩
  rw [← Text.map_chars_wordsAt s.column, hnil]
  rfl

/-- A list of names is read from a text without further terminators in which there are words and all
words are names, and from no other text. The names that are found are the words in their order, each
at the columns where it stands. -/
theorem names_are_words (s : Slice) :
    (s.nameList?.isSome ↔
      ';' ∉ s.unterminated ∧ Text.words s.unterminated ≠ [] ∧
        ∀ w ∈ Text.words s.unterminated, IsNameText w) ∧
      ∀ names, s.nameList? = some names →
        names.map chars = Text.words s.unterminated ∧
          names = Text.wordsAt s.column s.unterminated ∧
          (∀ name ∈ names, s.column ≤ name.column ∧
            name.chars <+: s.chars.drop (name.column - s.column)) ∧
          names.Pairwise fun name next => name.stop < next.column := by
  refine ⟨⟨fun h => ?_, fun ⟨hsemi, hne, hall⟩ => ?_⟩, fun names h => ?_⟩
  · obtain ⟨names, h⟩ := Option.isSome_iff_exists.1 h
    obtain ⟨hsemi, hne, hnames, hall⟩ := nameList?_eq_some h
    rw [← Text.map_chars_wordsAt s.column, ← hnames]
    refine ⟨hsemi, by simpa using hne, fun w hw => ?_⟩
    obtain ⟨name, hname, rfl⟩ := List.mem_map.1 hw
    exact hall name hname
  · rw [nameList?_of_words hsemi hne hall]
    rfl
  · obtain ⟨-, -, rfl, -⟩ := nameList?_eq_some h
    refine ⟨Text.map_chars_wordsAt _ _, rfl, fun name hname => ?_, Text.pairwise_wordsAt _ _⟩
    obtain ⟨hle, hoccurs⟩ := Text.occurs_wordsAt name hname
    obtain ⟨last, hlast⟩ := prefix_unterminated s
    exact ⟨hle, hoccurs.trans ⟨_, by rw [← List.drop_append, hlast]⟩⟩

/-- Blanks of any kind separate names, a comma does not, and only the last terminator is taken off. -/
example :
    (⟨3, "Eval\u2003 Print ;".toList⟩ : Slice).nameList? =
        some [⟨3, "Eval".toList⟩, ⟨9, "Print".toList⟩] ∧
      (⟨3, "Eval, Print".toList⟩ : Slice).nameList? = none ∧
      (⟨3, "Eval;;".toList⟩ : Slice).nameList? = none := by
  decide +kernel

end Slice

end LineGrammar
