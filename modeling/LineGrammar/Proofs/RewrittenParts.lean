import LineGrammar.Proofs.LineParts
import LineGrammar.Proofs.Rewriting

/-! Recognising parts of a line that is rewritten. What was recognised before is recognised again, as the
same parts rewritten: each recogniser of a line commutes with the rewriting. -/

namespace LineGrammar

variable {w : Rewriting} {cs : List Char} {s part rest : Slice}

namespace Slice

theorem Cut.exists_eq (h : s.Cut part rest) : ∃ column cs ds,
    s = ⟨column, cs ++ ds⟩ ∧ part = ⟨column, cs⟩ ∧ rest = ⟨column + cs.length, ds⟩ := by
  obtain ⟨column, cs⟩ := s
  obtain ⟨column', ds⟩ := part
  obtain ⟨column'', es⟩ := rest
  obtain ⟨hchars, hcolumn, hnext⟩ := h
  dsimp only at hchars hcolumn hnext
  subst hchars hcolumn hnext
  exact ⟨_, _, _, rfl, rfl, rfl⟩

theorem Cut.split_eq (h : s.Cut part rest) : s.split part.chars.length = (part, rest) := by
  obtain ⟨column, cs, ds, rfl, rfl, rfl⟩ := h.exists_eq
  exact split_append ..

/-- A mark of one character and what follows it. -/
theorem Cut.split_mark {name back : Slice} {c : Char} (h : s.Cut part rest) (hpart : part.chars = [c])
    (h' : rest.Cut name back) : (s.split (name.chars.length + 1)).1 = ⟨s.column, c :: name.chars⟩ := by
  have hcut : s.Cut ⟨s.column, c :: name.chars⟩ back := by
    refine ⟨by rw [h.chars, hpart, h'.chars]; rfl, rfl, ?_⟩
    rw [h'.next, h.next, hpart, List.length_singleton, List.length_cons, Nat.add_assoc, Nat.add_comm 1]
  exact congrArg Prod.fst hcut.split_eq

theorem Cut.splitWhile_eq {p : Char → Bool} (h : s.Cut part rest) (hpart : ∀ c ∈ part.chars, p c = true)
    (hrest : ∀ c ∈ rest.chars.head?, p c = false) : s.splitWhile p = (part, rest) := by
  obtain ⟨column, cs, ds, rfl, rfl, rfl⟩ := h.exists_eq
  exact splitWhile_append _ hpart hrest

theorem Cut.accept?_eq {mark : String} (h : s.Cut part rest) (hpart : part.chars = mark.toList) :
    s.accept? mark = some (part, rest) := by
  obtain ⟨column, cs, ds, rfl, rfl, rfl⟩ := h.exists_eq
  obtain rfl : cs = mark.toList := hpart
  exact accept?_append ..

theorem Cut.spelled?_eq {first more : Char → Bool} (h : s.Cut part rest)
    (hpart : isSpelled first more part.chars = true) (hrest : ∀ c ∈ rest.chars.head?, more c = false) :
    s.spelled? first more = some (part, rest) := by
  obtain ⟨column, cs, ds, rfl, rfl, rfl⟩ := h.exists_eq
  exact spelled?_append _ hpart hrest

theorem Cut.literal?_eq (h : s.Cut part rest) (hpart : IsLiteralText part.chars) :
    s.literal? = some (part, rest) := by
  obtain ⟨column, cs, ds, rfl, rfl, rfl⟩ := h.exists_eq
  exact literal?_append hpart ..

end Slice

namespace Rewriting

section
variable (hw : w.Fits cs)
include hw

theorem splitWhile_slice {p : Char → Bool}
    (hp : (∀ c, isNameChar c = true → p c = true) ∨ ∀ c, isNameChar c = true → p c = false)
    (hs : s.Whole cs) :
    (w.slice s).splitWhile p = (w.slice (s.splitWhile p).1, w.slice (s.splitWhile p).2) := by
  have hcut : s.Cut (s.splitWhile p).1 (s.splitWhile p).2 := Slice.cut_split _ s
  obtain ⟨hfront, hback⟩ := hs.splitWhile hp
  have hall : ∀ c ∈ (s.splitWhile p).1.chars, p c = true := by
    rw [Slice.chars_splitWhile_fst]
    exact List.all_eq_true.1 List.all_takeWhile
  have hnot : ∀ c ∈ (s.splitWhile p).2.chars.head?, p c = false := by
    intro c hc
    have hhead := List.head?_dropWhile_not p s.chars
    rw [← Slice.chars_splitWhile_snd, Option.mem_def.1 hc] at hhead
    simpa using hhead
  rcases hp with hp | hp
  · refine hcut.rewrite.splitWhile_eq (fun c hc => (hw.mem_text hc).elim (hall c) (hp c)) ?_
    refine head_slice_of_not_name hw hback fun c hc => ⟨Bool.eq_false_iff.2 fun hname => ?_, hnot c hc⟩
    exact absurd ((hp c (isNameChar_of_isNameStart hname)).symm.trans (hnot c hc)) (by simp)
  · refine hcut.rewrite.splitWhile_eq ?_ (head_slice hw hback (fun c hc =>
      hp c (isNameChar_of_isNameStart hc)) hnot)
    rw [slice_of_plain hw hfront fun c hc => Bool.eq_false_iff.2 fun hname =>
      absurd ((hp c hname).symm.trans (hall c hc)) (by simp)]
    exact hall

theorem trimStart_slice (hs : s.Whole cs) : (w.slice s).trimStart = w.slice s.trimStart :=
  congrArg Prod.snd (splitWhile_slice hw (.inr Slice.isBlank_of_name) hs)

theorem trimEnd_slice (hs : s.Whole cs) : (w.slice s).trimEnd = w.slice s.trimEnd := by
  obtain ⟨bl, hbl, hchars⟩ := Text.exists_trimEnd_blanks s.chars
  have hcut : s.Cut s.trimEnd (s.split (Text.trimEnd s.chars).length).2 := Slice.cut_split _ s
  have hblanks : (s.split (Text.trimEnd s.chars).length).2.chars = bl := by
    have hdrop : (Text.trimEnd s.chars ++ bl).drop (Text.trimEnd s.chars).length = bl := List.drop_left
    rwa [← hchars] at hdrop
  have hplain : ∀ c ∈ bl, isNameChar c = false := fun c hc => isNameChar_of_isBlank (hbl c hc)
  obtain ⟨hfront, hback⟩ := hs.cut hcut (apart_of_head (fun c hc => hplain c
    (hblanks ▸ List.mem_of_mem_head? hc)) _)
  have hlast := last_slice_of_solid hw hfront (by
    rw [Slice.chars_trimEnd]
    exact Text.last_trimEnd s.chars)
  have htrim : Text.trimEnd (w.slice s).chars = (w.slice s.trimEnd).chars := by
    rw [hcut.rewrite.chars, slice_of_plain hw hback (hblanks ▸ hplain), hblanks,
      Text.trimEnd_append_blanks hbl, Text.trimEnd_of_last hlast]
  rw [Slice.trimEnd, htrim, hcut.rewrite.split_eq]

theorem trim_slice (hs : s.Whole cs) : (w.slice s).trim = w.slice s.trim := by
  rw [Slice.trim, trimStart_slice hw hs, trimEnd_slice hw hs.trimStart, Slice.trim]

theorem isEmpty_slice (hs : s.Whole cs) : (w.slice s).isEmpty = s.isEmpty := by
  rw [Bool.eq_iff_iff, Slice.isEmpty, Slice.isEmpty, List.isEmpty_iff, List.isEmpty_iff,
    slice_eq_nil hw hs]

/-- A mark that stands in the rewritten part stood there before. -/
theorem prefix_of_slice {mark : List Char} (hmark : ∀ c ∈ mark, isNameChar c = false) :
    ∀ {s : Slice}, s.Whole cs → mark <+: (w.slice s).chars → mark <+: s.chars := by
  induction mark with
  | nil => exact fun _ _ => List.nil_prefix
  | cons m mark ih =>
    intro s hs hprefix
    have hm : isNameChar m = false := hmark m List.mem_cons_self
    cases hcs : s.chars with
    | nil =>
      rw [(slice_eq_nil hw hs).2 hcs] at hprefix
      exact absurd (List.prefix_nil.1 hprefix) (by simp)
    | cons c more =>
      obtain ⟨d, more', htext, hhead⟩ := exists_head hw hs hcs
      have hd : m = d := by
        rw [htext] at hprefix
        exact (List.cons_prefix_cons.1 hprefix).1
      have hc : d = c := by
        rcases hhead with rfl | ⟨-, hname⟩
        · rfl
        · exact absurd ((isNameChar_of_isNameStart hname).symm.trans (hd ▸ hm)) (by simp)
      subst hd hc
      have hcut : s.Cut ⟨s.column, [m]⟩ ⟨s.column + 1, more⟩ := ⟨hcs, rfl, rfl⟩
      obtain ⟨hfront, hback⟩ := hs.cut hcut (apart_of_last (by simpa using hm) _)
      have hplain := slice_of_plain hw hfront (by simpa using hm)
      have hrest : (w.slice s).chars = m :: (w.slice ⟨s.column + 1, more⟩).chars := by
        rw [hcut.rewrite.chars, hplain]
        rfl
      rw [hrest] at hprefix
      exact List.cons_prefix_cons.2 ⟨rfl, ih (fun c hc => hmark c (List.mem_cons_of_mem m hc)) hback
        (List.cons_prefix_cons.1 hprefix).2⟩

end

/-- It does not matter whether a part is rewritten before or after it is recognised. -/
def Commutes (w : Rewriting) (cs : List Char) (part? : Slice → Option (Slice × Slice)) : Prop :=
  ∀ {s : Slice}, s.Whole cs → part? (w.slice s) = (part? s).map (Prod.map w.slice w.slice)

section
variable (hw : w.Fits cs)
include hw

theorem accept?_slice (mark : String) (hmark : Slice.IsMark mark) (hs : s.Whole cs) :
    (w.slice s).accept? mark = (s.accept? mark).map (Prod.map w.slice w.slice) := by
  cases haccept : s.accept? mark with
  | none =>
    refine Slice.accept?_eq_none fun hprefix => ?_
    rw [Slice.accept?, if_pos (List.isPrefixOf_iff_prefix.2 (prefix_of_slice hw hmark hs hprefix))]
      at haccept
    cases haccept
  | some found =>
    obtain ⟨part, rest⟩ := found
    obtain ⟨hcut, hchars⟩ := Slice.accept?_eq_some haccept
    obtain ⟨hpart, -⟩ := hs.accept? hmark haccept
    exact hcut.rewrite.accept?_eq ((slice_of_plain hw hpart (hchars ▸ hmark)).trans hchars)

theorem commutes_accept? (mark : String) (hmark : Slice.IsMark mark) :
    w.Commutes cs (·.accept? mark) := accept?_slice hw mark hmark

/-- A spelled part, if it is spelled as before and what follows does not go on with it. -/
theorem spelled?_slice {first more : Char → Bool} (h : s.spelled? first more = some (part, rest))
    (hpart : isSpelled first more (w.slice part).chars = true) (hrest : rest.Whole cs)
    (hstop : ∀ c ∈ rest.chars.head?, isNameChar c = false) :
    (w.slice s).spelled? first more = some (w.slice part, w.slice rest) := by
  obtain ⟨hcut, -, hhead⟩ := Slice.spelled?_eq_some h
  refine hcut.rewrite.spelled?_eq hpart (head_slice_of_not_name hw hrest fun c hc => ⟨?_, hhead c hc⟩)
  exact Bool.eq_false_iff.2 fun hname =>
    absurd ((isNameChar_of_isNameStart hname).symm.trans (hstop c hc)) (by simp)

theorem commutes_name? : w.Commutes cs Slice.name? := by
  intro s hs
  cases hname : s.name? with
  | some found =>
    obtain ⟨part, rest⟩ := found
    obtain ⟨hword, hrest, -, -⟩ := hs.name? hname
    exact spelled?_slice hw hname (isNameText_of_word hw hword) hrest (Slice.name?_eq_some hname).2.2
  | none =>
    have hfirst : ∀ c ∈ s.chars.head?, isNameStart c = false := by
      intro c hc
      rw [Slice.name?, Slice.spelled?] at hname
      split at hname
      · next hcs => rw [hcs] at hc; cases hc
      · next d ds hcs =>
        rw [hcs] at hc
        obtain rfl := Option.some.inj hc
        split at hname
        · cases hname
        · next hd => simpa using hd
    have hfirst' := head_slice_of_not_name hw hs (p := fun c => isNameStart c = false)
      fun c hc => ⟨hfirst c hc, hfirst c hc⟩
    rw [Option.map_none, Slice.name?, Slice.spelled?]
    split
    · rfl
    · next d ds hcs => rw [if_neg]; simp [hfirst' d (by rw [hcs]; rfl)]

theorem blanks?_slice (hs : s.Whole cs) (h : s.blanks? = some rest) :
    (w.slice s).blanks? = some (w.slice rest) := by
  obtain ⟨rfl, bl, hne, hbl, hchars⟩ := Slice.blanks?_eq_some h
  obtain ⟨b, more, rfl⟩ := List.exists_cons_of_ne_nil hne
  have hb := hbl b List.mem_cons_self
  obtain ⟨d, more', htext, hhead⟩ := exists_head hw hs hchars
  have hd : d = b := by
    rcases hhead with rfl | ⟨hname, -⟩
    · rfl
    · exact absurd ((isBlank_of_isNameChar (isNameChar_of_isNameStart hname)).symm.trans hb) (by simp)
  rw [Slice.blanks?, htext]
  dsimp only
  rw [hd, if_pos hb, trimStart_slice hw hs]

theorem terminator?_slice (hs : s.Whole cs) {terminated : Bool} (h : s.terminator? = some terminated) :
    (w.slice s).terminator? = some terminated := by
  obtain ⟨bl, hbl, hchars⟩ := Slice.terminator?_eq_some h
  have hplain : ∀ c ∈ s.chars, isNameChar c = false := by
    rw [hchars]
    intro c hc
    rcases List.mem_append.1 hc with hc | hc
    · exact isNameChar_of_isBlank (hbl c hc)
    · rw [show c = ';' by cases terminated <;> simp_all [Slice.terminator]]
      decide
  rw [Slice.terminator?, Slice.chars_trimStart, slice_of_plain hw hs hplain,
    ← Slice.chars_trimStart]
  exact h

theorem cutTerminator_slice (hs : s.Whole cs) :
    (w.slice s).cutTerminator = (w.slice s.cutTerminator.1, s.cutTerminator.2) := by
  have hsemi : (w.slice s).chars.getLast? = some ';' ↔ s.chars.getLast? = some ';' := by
    constructor
    · intro h
      obtain ⟨c, hc, rfl | ⟨-, hname⟩⟩ := last_slice hw hs ';' h
      · exact hc
      · exact absurd hname (by decide)
    · intro h
      obtain ⟨init, hinit⟩ := List.getLast?_eq_some_iff.1 h
      have hcut : s.Cut ⟨s.column, init⟩ ⟨s.column + init.length, [';']⟩ := ⟨hinit, rfl, rfl⟩
      obtain ⟨-, hmark⟩ := hs.cut hcut (apart_of_head (by simp; decide) _)
      rw [hcut.rewrite.chars, slice_of_plain hw hmark (by simp; decide), List.getLast?_concat]
  unfold Slice.cutTerminator
  by_cases hlast : s.chars.getLast? = some ';'
  · rw [if_pos hlast, if_pos (hsemi.2 hlast)]
    obtain ⟨init, hinit⟩ := List.getLast?_eq_some_iff.1 hlast
    have hcut : s.Cut ⟨s.column, init⟩ ⟨s.column + init.length, [';']⟩ := ⟨hinit, rfl, rfl⟩
    obtain ⟨hfront, hmark⟩ := hs.cut hcut (apart_of_head (by simp; decide) _)
    have hlength : s.chars.length - 1 = init.length := by simp [hinit]
    have hlength' : (w.slice s).chars.length - 1 = (w.slice ⟨s.column, init⟩).chars.length := by
      rw [hcut.rewrite.chars, slice_of_plain hw hmark (by simp; decide), List.length_append,
        List.length_singleton, Nat.add_sub_cancel]
    rw [hlength, hcut.split_eq, hlength', hcut.rewrite.split_eq, trimEnd_slice hw hfront]
  · rw [if_neg hlast, if_neg fun h => hlast (hsemi.1 h), trimEnd_slice hw hs]

omit hw in
theorem Commutes.eq_some {part? : Slice → Option (Slice × Slice)} (h : w.Commutes cs part?)
    (hs : s.Whole cs) (hpart : part? s = some (part, rest)) :
    part? (w.slice s) = some (w.slice part, w.slice rest) := by
  rw [h hs, hpart]
  rfl

omit hw in
theorem Commutes.optional {part? : Slice → Option (Slice × Slice)} (h : w.Commutes cs part?)
    (hs : s.Whole cs) : (w.slice s).optional part? =
      ((s.optional part?).1.map w.slice, w.slice (s.optional part?).2) := by
  rw [Slice.optional, h hs, Slice.optional]
  cases part? s <;> rfl

end

section
variable (hw : w.Fits cs)
include hw

theorem commutes_parenthesised? : w.Commutes cs Slice.parenthesised? := by
  intro s hs
  unfold Slice.parenthesised?
  simp only [Option.bind_eq_bind, Option.pure_def]
  rw [accept?_slice hw "(" (by decide) hs]
  cases hopen : s.accept? "(" with
  | none => rfl
  | some opened =>
    obtain ⟨opening, s₁⟩ := opened
    obtain ⟨-, h₁, -⟩ := hs.accept? (by decide) hopen
    simp only [Option.map_some, Option.bind_some, Prod.map, trimStart_slice hw h₁]
    rw [commutes_name? hw h₁.trimStart]
    cases hname : s₁.trimStart.name? with
    | none => rfl
    | some named =>
      obtain ⟨name, s₂⟩ := named
      obtain ⟨-, h₂, -⟩ := h₁.trimStart.name? hname
      simp only [Option.map_some, Option.bind_some, Prod.map, trimStart_slice hw h₂]
      rw [accept?_slice hw ")" (by decide) h₂.trimStart]
      cases s₂.trimStart.accept? ")" <;> rfl

theorem commutes_qualifier? : w.Commutes cs Slice.qualifier? := by
  intro s hs
  unfold Slice.qualifier?
  simp only [Option.bind_eq_bind, Option.pure_def]
  rw [commutes_name? hw hs]
  cases hname : s.name? with
  | none => rfl
  | some named =>
    obtain ⟨name, s₁⟩ := named
    obtain ⟨-, h₁, -⟩ := hs.name? hname
    simp only [Option.map_some, Option.bind_some, Prod.map]
    rw [accept?_slice hw "::" (by decide) h₁]
    cases s₁.accept? "::" <;> rfl

theorem commutes_markedFunction? : w.Commutes cs Slice.markedFunction? := by
  intro s hs
  unfold Slice.markedFunction?
  simp only [Option.bind_eq_bind]
  rw [accept?_slice hw "::" (by decide) hs]
  cases hmark : s.accept? "::" with
  | none => rfl
  | some marked =>
    obtain ⟨mark, s₁⟩ := marked
    obtain ⟨-, h₁, -⟩ := hs.accept? (by decide) hmark
    exact commutes_name? hw h₁

theorem commutes_mode? : w.Commutes cs Slice.mode? := by
  intro s hs
  unfold Slice.mode?
  simp only [Option.bind_eq_bind, Option.pure_def]
  rw [accept?_slice hw "[" (by decide) hs]
  cases hopen : s.accept? "[" with
  | none => rfl
  | some opened =>
    obtain ⟨opening, s₁⟩ := opened
    obtain ⟨-, h₁, -⟩ := hs.accept? (by decide) hopen
    have hmode : ∀ {part rest : Slice},
        (s₁.trimStart.accept? currentMode <|> s₁.trimStart.name?) = some (part, rest) →
          rest.Whole cs := by
      intro part rest h
      cases hcurrent : s₁.trimStart.accept? currentMode with
      | some found =>
        rw [hcurrent] at h
        cases h
        exact (h₁.trimStart.accept? (by decide) hcurrent).2.1
      | none =>
        rw [hcurrent] at h
        exact (h₁.trimStart.name? h).2.1
    simp only [Option.map_some, Option.bind_some, Prod.map, trimStart_slice hw h₁]
    rw [accept?_slice hw currentMode (by decide) h₁.trimStart,
      commutes_name? hw h₁.trimStart]
    have hmap : ((s₁.trimStart.accept? currentMode).map (Prod.map w.slice w.slice) <|>
        s₁.trimStart.name?.map (Prod.map w.slice w.slice)) =
          (s₁.trimStart.accept? currentMode <|> s₁.trimStart.name?).map (Prod.map w.slice w.slice) := by
      cases s₁.trimStart.accept? currentMode <;> rfl
    rw [hmap]
    cases hfound : (s₁.trimStart.accept? currentMode <|> s₁.trimStart.name?) with
    | none => rfl
    | some found =>
      obtain ⟨mode, s₂⟩ := found
      have h₂ := hmode hfound
      simp only [Option.map_some, Option.bind_some, Prod.map, trimStart_slice hw h₂]
      rw [accept?_slice hw "]" (by decide) h₂.trimStart]
      cases s₂.trimStart.accept? "]" <;> rfl

theorem singleName?_slice (hs : s.Whole cs) {name : Slice} {terminated : Bool}
    (h : s.singleName? = some (name, terminated)) :
    (w.slice s).singleName? = some (w.slice name, terminated) := by
  obtain ⟨s₁, hname, hend⟩ := Slice.singleName?_steps.1 h
  obtain ⟨-, h₁, -⟩ := hs.name? hname
  exact Slice.singleName?_steps.2 ⟨_, Commutes.eq_some (commutes_name? hw) hs hname, terminator?_slice hw h₁ hend⟩

/-- The rest is shorter also after the rewriting. -/
theorem length_slice_lt (hs : s.Whole cs) (hends : rest.Ends s)
    (hlt : rest.chars.length < s.chars.length) :
    (w.slice rest).chars.length < (w.slice s).chars.length := by
  have hcut := Slice.cut_split (s.chars.length - rest.chars.length) s
  rw [hends.split_eq] at hcut
  obtain ⟨c, more, hfront⟩ := List.exists_cons_of_ne_nil (l := (s.split
    (s.chars.length - rest.chars.length)).1.chars) fun hnil => by
      have := congrArg List.length hcut.chars
      rw [hnil, List.nil_append] at this
      omega
  have hne : s.chars ≠ [] := by rw [hcut.chars, hfront]; simp
  have hpos : 0 < (w.slice (s.split (s.chars.length - rest.chars.length)).1).chars.length := by
    rw [chars_slice, hfront, hcut.column, text, out, covers_column hw hs hne,
      if_neg Bool.false_ne_true, List.length_append]
    split
    · exact Nat.add_pos_left (List.length_pos_iff.2 (isSpelled_ne_nil hw.new)) _
    · exact Nat.add_pos_left Nat.one_pos _
  rw [hcut.rewrite.chars, List.length_append]
  omega

theorem sequence?_slice {α : Type} {item? : Slice → Option (α × Slice)} (hcuts : Slice.Cuts item?)
    {f : α → α} (hitem : ∀ {s rest : Slice} {a : α}, s.Whole cs → item? s = some (a, rest) →
      rest.Whole cs ∧ item? (w.slice s) = some (f a, w.slice rest))
    {items : List α} (hs : s.Whole cs) (h : s.sequence? item? = some items) :
    (w.slice s).sequence? item? = some (items.map f) := by
  induction items generalizing s with
  | nil =>
    rcases Slice.sequence?_eq_some hcuts h with ⟨hnil, -⟩ | ⟨_, _, _, -, -, -, hcons⟩
    · exact Slice.sequence?_nil hcuts ((slice_eq_nil hw hs).2 hnil)
    · cases hcons
  | cons a items ih =>
    rcases Slice.sequence?_eq_some hcuts h with ⟨-, hnil⟩ | ⟨first, rest, more, hfirst, hlt, hmore, hcons⟩
    · cases hnil
    · obtain ⟨rfl, rfl⟩ := List.cons.inj hcons
      obtain ⟨hrest, hfirst'⟩ := hitem hs hfirst
      have hne : s.chars ≠ [] := List.length_pos_iff.1 (Nat.zero_lt_of_lt hlt)
      rw [Slice.sequence?_cons hcuts (fun hnil => hne ((slice_eq_nil hw hs).1 hnil)) hfirst'
        (length_slice_lt hw hs (hcuts hfirst) hlt), ih hrest hmore]
      rfl

theorem listItem?_slice (hs : s.Whole cs) {name : Slice} (h : s.listItem? = some (name, rest)) :
    rest.Whole cs ∧ (w.slice s).listItem? = some (w.slice name, w.slice rest) := by
  refine ⟨(Slice.listItem?_words hs h).2.1, ?_⟩
  obtain ⟨s₁, hname, rfl⟩ := Slice.listItem?_steps.1 h
  obtain ⟨-, h₁, -⟩ := hs.trimStart.name? hname
  refine Slice.listItem?_steps.2 ⟨_, ?_, (trimStart_slice hw h₁).symm⟩
  rw [trimStart_slice hw hs]
  exact Commutes.eq_some (commutes_name? hw) hs.trimStart hname

theorem nameList?_slice (hs : s.Whole cs) {names : List Slice} (h : s.nameList? = some names) :
    (w.slice s).nameList? = some (names.map w.slice) := by
  unfold Slice.nameList? at h ⊢
  rw [cutTerminator_slice hw hs]
  dsimp only at h ⊢
  split at h
  · cases h
  · next hsemi =>
    obtain ⟨hsequence, hne⟩ := Option.filter_eq_some_iff.1 h
    obtain ⟨hlist, -⟩ := hs.cutTerminator
    have hsemi' : ¬ (w.slice s.cutTerminator.1).chars.contains ';' = true := by
      intro hmem
      rcases hw.mem_text (List.contains_iff_mem.1 hmem) with hold | hname
      · exact hsemi (List.contains_iff_mem.2 hold)
      · exact absurd hname (by decide)
    rw [if_neg hsemi', sequence?_slice hw Slice.cuts_listItem? (fun hs h => listItem?_slice hw hs h)
      hlist hsequence]
    refine Option.filter_eq_some_iff.2 ⟨rfl, ?_⟩
    simpa using hne

theorem membersParameters?_slice (hs : s.Whole cs) {walker : Slice} {mark? : Option Slice}
    (h : s.membersParameters? = some (walker, mark?)) :
    (w.slice s).membersParameters? = some (w.slice walker, mark?.map w.slice) := by
  obtain ⟨s₁, hname, hend⟩ := Slice.membersParameters?_steps.1 h
  obtain ⟨-, h₁, -⟩ := hs.name? hname
  have hmark : (w.slice s₁).trimStart.accept? openingMark =
      (s₁.trimStart.accept? openingMark).map (Prod.map w.slice w.slice) := by
    rw [trimStart_slice hw h₁]
    exact accept?_slice hw openingMark (by decide) h₁.trimStart
  refine Slice.membersParameters?_steps.2 ⟨_, Commutes.eq_some (commutes_name? hw) hs hname, ?_⟩
  rw [hmark]
  rcases hend with ⟨mark, s₂, haccept, hempty, rfl⟩ | ⟨terminated, haccept, hend, rfl⟩
  · obtain ⟨-, h₂, -⟩ := h₁.trimStart.accept? (by decide) haccept
    exact .inl ⟨_, _, by rw [haccept]; rfl, by rw [isEmpty_slice hw h₂]; exact hempty, rfl⟩
  · exact .inr ⟨terminated, by rw [haccept]; rfl, terminator?_slice hw h₁ hend, rfl⟩

/-- A spelled part whose class takes in all names is spelled again. -/
theorem isSpelled_slice {more : Char → Bool} (hmore : ∀ c, isNameChar c = true → more c = true)
    (hs : s.Whole cs) (h : isSpelled isNameStart more s.chars = true) :
    isSpelled isNameStart more (w.slice s).chars = true := by
  obtain ⟨c, ds, hcs⟩ := List.exists_cons_of_ne_nil (isSpelled_ne_nil h)
  obtain ⟨d, more', htext, hhead⟩ := exists_head hw hs hcs
  have hall : ∀ e ∈ (w.slice s).chars, more e = true := fun e he =>
    (hw.mem_text he).elim
      (isSpelled_mem (fun c hc => hmore c (isNameChar_of_isNameStart hc)) h e) (hmore e)
  rw [hcs, isSpelled_cons] at h
  rw [htext] at hall ⊢
  refine isSpelled_cons.2 ⟨?_, fun e he => hall e (List.mem_cons_of_mem d he)⟩
  rcases hhead with rfl | ⟨-, hd⟩
  · exact h.1
  · exact hd

theorem interfaceParameters?_slice (hs : s.Whole cs) {walker typeName : Slice}
    (h : s.interfaceParameters? = some (walker, typeName)) :
    (w.slice s).interfaceParameters? = some (w.slice walker, w.slice typeName) := by
  have hmore : ∀ c, isNameChar c = true → isTypeWordChar c = true := fun c hc => by
    simp [isTypeWordChar, hc]
  obtain ⟨s₁, s₂, s₃, terminated, hname, hgap, htype, hend⟩ := Slice.interfaceParameters?_steps.1 h
  obtain ⟨-, h₁, -⟩ := hs.name? hname
  obtain ⟨h₂, -⟩ := h₁.blanks? hgap
  obtain ⟨hpart, h₃⟩ := h₂.spelled? hmore htype
  obtain ⟨-, hspelled, hstop⟩ := Slice.spelled?_eq_some htype
  have htype' := spelled?_slice hw htype (isSpelled_slice hw hmore hpart hspelled) h₃
    fun c hc => Bool.eq_false_iff.2 fun hname =>
      absurd ((hmore c hname).symm.trans (hstop c hc)) (by simp)
  exact Slice.interfaceParameters?_steps.2 ⟨_, _, _, terminated, Commutes.eq_some (commutes_name? hw) hs hname,
    blanks?_slice hw h₁ hgap, htype', terminator?_slice hw h₃ hend⟩

end

end Rewriting

/-- The same parts, each of them changed. -/
def FunctionShape.map (f : Slice → Slice) (shape : FunctionShape) : FunctionShape :=
  { rule := f shape.rule
    walker? := shape.walker?.map f
    function := f shape.function
    parameters := f shape.parameters
    returnType := f shape.returnType
    terminated := shape.terminated }

def TokenValue.map (f : Slice → Slice) (value : TokenValue) : TokenValue :=
  { literal := f value.literal
    bang? := value.bang?.map f
    mode? := value.mode?.map f
    terminated := value.terminated }

def ElementShape.map (f : Slice → Slice) (e : ElementShape) : ElementShape :=
  ⟨e.anchor?.map f, f e.name, e.alias?.map f⟩

def Shape.map (f : Slice → Slice) : Shape → Shape
  | comment => .comment
  | pragma keyword name params => .pragma (f keyword) (f name) (f params)
  | token name operator rest => .token (f name) (f operator) (f rest)
  | rule name alias? operator rest => .rule (f name) (alias?.map f) (f operator) (f rest)

namespace Rewriting

section
variable (hw : w.Fits cs)
include hw

theorem functionParameters?_slice (hs : s.Whole cs) {shape : FunctionShape}
    (h : s.functionParameters? = some shape) :
    (w.slice s).functionParameters? = some (shape.map w.slice) := by
  have hparens : ∀ c, isNameChar c = true → (c != '(' && c != ')') = true := by
    intro c hc
    simp only [Bool.and_eq_true, bne_iff_ne]
    constructor <;> rintro rfl <;> exact absurd hc (by decide)
  obtain ⟨rule, s₁, s₂, function, s₃, opening, s₄, closing, s₅, arrow, s₆, hrule, hgap, hfunction,
    hopening, hclosing, harrow, htype, rfl⟩ := Slice.functionParameters?_steps.1 h
  obtain ⟨-, h₁, -⟩ := hs.name? hrule
  obtain ⟨h₂, -⟩ := h₁.blanks? hgap
  obtain ⟨-, hqualified, -⟩ := Slice.cutsWords_qualifier?.optional h₂
  obtain ⟨-, h₃, -⟩ := hqualified.name? hfunction
  obtain ⟨-, h₄, -⟩ := h₃.trimStart.accept? (by decide) hopening
  obtain ⟨-, h₄'⟩ := h₄.splitWhile (.inl hparens)
  obtain ⟨-, h₅, -⟩ := h₄'.accept? (by decide) hclosing
  obtain ⟨-, h₆, -⟩ := h₅.trimStart.accept? (by decide) harrow
  have hqualifier := Commutes.optional (commutes_qualifier? hw) h₂
  have hsplit := splitWhile_slice hw (.inl hparens) h₄
  have htype' := isSpelled_slice hw (fun c hc => by simp [isTypeChar, hc]) h₆.trimStart.cutTerminator.1 htype
  refine Slice.functionParameters?_steps.2 ⟨_, _, _, w.slice function, w.slice s₃, w.slice opening,
    w.slice s₄, w.slice closing, w.slice s₅, w.slice arrow, w.slice s₆,
    Commutes.eq_some (commutes_name? hw) hs hrule, blanks?_slice hw h₁ hgap, ?_, ?_, ?_, ?_, ?_, ?_⟩
  · rw [hqualifier]
    exact Commutes.eq_some (commutes_name? hw) hqualified hfunction
  · rw [trimStart_slice hw h₃]
    exact Commutes.eq_some (commutes_accept? hw "(" (by decide)) h₃.trimStart hopening
  · rw [hsplit]
    exact Commutes.eq_some (commutes_accept? hw ")" (by decide)) h₄' hclosing
  · rw [trimStart_slice hw h₅]
    exact Commutes.eq_some (commutes_accept? hw "->" (by decide)) h₅.trimStart harrow
  · rw [trimStart_slice hw h₆, cutTerminator_slice hw h₆.trimStart]
    exact htype'
  · rw [hqualifier, hsplit, trimStart_slice hw h₆, cutTerminator_slice hw h₆.trimStart]
    rfl

theorem blockName?_slice (hs : s.Whole cs) {walker : Slice} {function? : Option Slice}
    (h : s.blockName? = some (walker, function?)) :
    (w.slice s).blockName? = some (w.slice walker, function?.map w.slice) := by
  obtain ⟨mark, s₁, s₂, hmark, hname, hempty, rfl⟩ := Slice.blockName?_steps.1 h
  obtain ⟨-, h₁, -⟩ := hs.accept? (by decide) hmark
  obtain ⟨-, h₂, -⟩ := h₁.name? hname
  obtain ⟨-, hend, -⟩ := Slice.cutsWords_markedFunction?.optional h₂
  have hfunction := Commutes.optional (commutes_markedFunction? hw) h₂
  refine Slice.blockName?_steps.2 ⟨_, _, _, Commutes.eq_some (commutes_accept? hw "@" (by decide)) hs hmark,
    Commutes.eq_some (commutes_name? hw) h₁ hname, ?_, by rw [hfunction]⟩
  rw [hfunction, isEmpty_slice hw hend]
  exact hempty

omit hw in
theorem literal?_slice (h : s.literal? = some (part, rest))
    (hpart : (w.slice part).chars = part.chars) :
    (w.slice s).literal? = some (w.slice part, w.slice rest) := by
  obtain ⟨hcut, htext⟩ := Slice.literal?_eq_some h
  exact hcut.rewrite.literal?_eq (hpart ▸ htext)

/-- The value of a token, if no name is replaced in it but the mode. -/
theorem tokenValue?_slice (hs : s.Whole cs) {value : TokenValue} (h : s.tokenValue? = some value)
    (hcolumns : ∀ start ∈ w.columns, s.column ≤ start → ∃ mode ∈ value.mode?, mode.column = start) :
    (w.slice s).tokenValue? = some (value.map w.slice) := by
  obtain ⟨literal, s₁, terminated, hliteral, hend, rfl⟩ := Slice.tokenValue?_steps.1 h
  obtain ⟨hcut, -⟩ := Slice.literal?_eq_some hliteral
  obtain ⟨hwhole, h₁, -⟩ := Slice.cutsWhole_literal? hs hliteral
  obtain ⟨-, h₂, hle₂⟩ :=
    Slice.CutsWhole.optional (Slice.cutsWhole_accept? "!" (by decide)) h₁
  obtain ⟨hmode, h₃, -⟩ := Slice.cutsWhole_mode?.optional h₂.trimStart
  have hle₃ := Slice.column_le_trimStart (s₁.optional (·.accept? "!")).2
  have hfree : (w.slice literal).chars = literal.chars := by
    refine text_of_free hw hwhole fun start hmem hle => ?_
    obtain ⟨mode, hmem', rfl⟩ := hcolumns start hmem (hcut.column ▸ hle)
    have hafter := (hmode mode hmem').2.1
    have hnext := hcut.next
    rw [← hcut.column] at hnext
    change literal.column + literal.chars.length ≤ mode.column
    omega
  have hbang := Commutes.optional (commutes_accept? hw "!" (by decide)) h₁
  have hmode' := Commutes.optional (commutes_mode? hw) h₂.trimStart
  refine Slice.tokenValue?_steps.2 ⟨_, _, terminated, literal?_slice hliteral hfree, ?_, ?_⟩
  · rw [hbang, trimStart_slice hw h₂, hmode']
    exact terminator?_slice hw h₃ hend
  · rw [hbang, trimStart_slice hw h₂, hmode']
    rfl

theorem element?_slice (hs : s.Whole cs) {e : ElementShape} (h : s.element? = some (e, rest)) :
    rest.Whole cs ∧ (w.slice s).element? = some (e.map w.slice, w.slice rest) := by
  refine ⟨(Slice.element?_words hs h).2.1, ?_⟩
  obtain ⟨name, s₂, hname, hend, rfl⟩ := Slice.element?_steps.1 h
  obtain ⟨-, h₁, -⟩ :=
    Slice.CutsWhole.optional (Slice.cutsWhole_accept? "^" (by decide)) hs.trimStart
  obtain ⟨-, h₂, -⟩ := h₁.name? hname
  obtain ⟨-, h₃, -⟩ := Slice.cutsWords_parenthesised?.optional h₂
  have hanchor := Commutes.optional (commutes_accept? hw "^" (by decide)) hs.trimStart
  have halias := Commutes.optional (commutes_parenthesised? hw) h₂
  refine Slice.element?_steps.2 ⟨w.slice name, w.slice s₂, ?_, ?_, ?_⟩
  · rw [trimStart_slice hw hs, hanchor]
    exact Commutes.eq_some (commutes_name? hw) h₁ hname
  · rw [halias, isEmpty_slice hw h₃]
    rcases hend with ⟨hempty, rfl⟩ | ⟨hempty, hblanks⟩
    · exact .inl ⟨hempty, rfl⟩
    · exact .inr ⟨hempty, blanks?_slice hw h₃ hblanks⟩
  · rw [trimStart_slice hw hs, hanchor, halias]
    rfl

theorem elements?_slice (hs : s.Whole cs) {es : List ElementShape} (h : s.elements? = some es) :
    (w.slice s).elements? = some (es.map (ElementShape.map w.slice)) :=
  sequence?_slice hw Slice.cuts_element? (fun hs h => element?_slice hw hs h) hs h

theorem not_break_slice (h : '\n' ∉ s.chars) : '\n' ∉ (w.slice s).chars := fun hmem =>
  (hw.mem_text hmem).elim h fun hname => absurd hname (by decide)

theorem tail?_slice (hs : s.Whole cs) (h : Shape.tail? s = some rest) :
    Shape.tail? (w.slice s) = some (w.slice rest) := by
  obtain ⟨rfl, hbreak⟩ := Shape.tail?_eq_some h
  rw [← trim_slice hw hs]
  exact Shape.tail?_of (trim_slice hw hs ▸ not_break_slice hw hbreak)

theorem comment?_slice (hs : s.Whole cs) (h : Shape.comment? s = some .comment) :
    Shape.comment? (w.slice s) = some .comment := by
  obtain ⟨mark, s₁, hmark, hbreak, -⟩ := Shape.comment?_steps.1 h
  exact Shape.comment?_steps.2 ⟨_, _, Commutes.eq_some (commutes_accept? hw "//" (by decide)) hs hmark,
    not_break_slice hw hbreak, rfl⟩

theorem pragma?_slice (hs : s.Whole cs) {mark name params : Slice}
    (h : Shape.pragma? s = some (.pragma mark name params)) :
    Shape.pragma? (w.slice s) = some (Shape.map w.slice (.pragma mark name params)) := by
  obtain ⟨percent, s₁, _, s₂, _, hpercent, hname, hparams, ⟨⟩⟩ := Shape.pragma?_steps.1 h
  obtain ⟨hpercentWhole, h₁, -⟩ := hs.accept? (by decide) hpercent
  obtain ⟨-, h₂, -⟩ := h₁.name? hname
  obtain ⟨hcut, hchars⟩ := Slice.accept?_eq_some hpercent
  obtain ⟨hcut', -⟩ := Slice.name?_eq_some hname
  refine Shape.pragma?_steps.2 ⟨_, _, _, _, _, Commutes.eq_some (commutes_accept? hw "%" (by decide)) hs hpercent,
    Commutes.eq_some (commutes_name? hw) h₁ hname, tail?_slice hw h₂ hparams, ?_⟩
  have hpercentMark : Slice.IsMark "%" := by decide
  have hplain : (w.slice percent).chars = ['%'] :=
    (slice_of_plain hw hpercentWhole (hchars ▸ hpercentMark)).trans hchars
  replace hchars : percent.chars = ['%'] := hchars
  have hjoined : (⟨s.column, '%' :: name.chars⟩ : Slice).Cut percent name :=
    ⟨by rw [hchars]; rfl, hcut.column, by rw [hcut'.column, hcut.next]⟩
  rw [Shape.map, hcut.split_mark hchars hcut', hcut.rewrite.split_mark hplain hcut'.rewrite]
  have hmark : w.slice ⟨s.column, '%' :: name.chars⟩ =
      ⟨(w.slice s).column, '%' :: (w.slice name).chars⟩ := by
    have hparts := (hjoined.rewrite (w := w)).chars
    rw [hplain] at hparts
    exact congrArg (Slice.mk _) hparts
  rw [hmark]

/-- A token definition, if its name is replaced by the name of a token only. -/
theorem token?_slice (hs : s.Whole cs) {name operator rest : Slice}
    (h : Shape.token? s = some (.token name operator rest))
    (hname : isSpelled isTokenStart isTokenChar (w.slice name).chars = true) :
    Shape.token? (w.slice s) = some (Shape.map w.slice (.token name operator rest)) := by
  obtain ⟨_, s₁, _, s₂, _, hspelled, hoperator, hrest, ⟨⟩⟩ := Shape.token?_steps.1 h
  obtain ⟨hcut, -⟩ := Slice.spelled?_eq_some hspelled
  obtain ⟨bl, hbl, hs₁⟩ := Slice.exists_trimStart s₁
  obtain ⟨hcut', hchars⟩ := Slice.accept?_eq_some hoperator
  have hstop : ∀ c ∈ s₁.chars.head?, isNameChar c = false := by
    rw [hs₁, hcut'.chars, hchars]
    exact Shape.head_operator (by decide) (by decide) _ hbl
  obtain ⟨-, h₁⟩ := hs.cut hcut (apart_of_head hstop _)
  obtain ⟨-, h₂, -⟩ := h₁.trimStart.accept? (by decide) hoperator
  refine Shape.token?_steps.2 ⟨_, _, _, _, _, spelled?_slice hw hspelled hname h₁ hstop, ?_,
    tail?_slice hw h₂ hrest, rfl⟩
  rw [trimStart_slice hw h₁]
  exact Commutes.eq_some (commutes_accept? hw ":=" (by decide)) h₁.trimStart hoperator

/-- A rule definition, if its name is replaced by the name of a rule only. -/
theorem rule?_slice (hs : s.Whole cs) {name operator rest : Slice} {alias? : Option Slice}
    (h : Shape.rule? s = some (.rule name alias? operator rest))
    (hname : isSpelled isRuleStart isNameChar (w.slice name).chars = true) :
    Shape.rule? (w.slice s) = some (Shape.map w.slice (.rule name alias? operator rest)) := by
  obtain ⟨_, s₁, _, s₂, _, hspelled, hoperator, hrest, ⟨⟩⟩ := Shape.rule?_steps.1 h
  obtain ⟨-, h₁⟩ := hs.spelled? (fun _ => id) hspelled
  obtain ⟨-, h₁', -⟩ := Slice.cutsWords_parenthesised?.optional h₁
  obtain ⟨-, h₂, -⟩ := h₁'.trimStart.accept? (by decide) hoperator
  have halias := Commutes.optional (commutes_parenthesised? hw) h₁
  refine Shape.rule?_steps.2 ⟨_, _, w.slice operator, w.slice s₂, _,
    spelled?_slice hw hspelled hname h₁ (Slice.spelled?_eq_some hspelled).2.2, ?_,
    tail?_slice hw h₂ hrest, ?_⟩
  · rw [halias, trimStart_slice hw h₁']
    exact Commutes.eq_some (commutes_accept? hw ":=" (by decide)) h₁'.trimStart hoperator
  · rw [halias]
    rfl

/-- The names that a shape gives at once are spelled as before. -/
def KeepsCasing (w : Rewriting) : Shape → Prop
  | .token name _ _ => isSpelled isTokenStart isTokenChar (w.slice name).chars = true
  | .rule name _ _ _ => isSpelled isRuleStart isNameChar (w.slice name).chars = true
  | .comment | .pragma .. => True

omit hw in
theorem head_ne_of_name {name : List Char} (h : IsNameText name) (rest : List Char) {d : Char}
    (hd : isNameChar d = false) : (name ++ rest).head? ≠ some d := by
  obtain ⟨c, more, rfl⟩ := List.exists_cons_of_ne_nil (isSpelled_ne_nil h)
  rintro ⟨⟩
  exact absurd ((h.chars d List.mem_cons_self).symm.trans hd) (by simp)

/-- A line keeps its shape. -/
theorem of?_slice (hs : s.Whole cs) {shape : Shape} (h : Shape.of? s = some shape)
    (hcasing : w.KeepsCasing shape) : Shape.of? (w.slice s) = some (shape.map w.slice) := by
  cases shape with
  | comment =>
    have hread := comment?_slice hw hs (Shape.comment?_of_of? h)
    rw [Shape.of?, hread]
    rfl
  | pragma mark name params =>
    have hread := pragma?_slice hw hs (Shape.pragma?_of_of? h)
    obtain ⟨_, _, _, -, -, -, -, rest, hchars, -⟩ := Shape.pragma?_eq_some hread
    rw [Shape.of?, Shape.comment?_eq_none (by simp [hchars]), hread]
    rfl
  | token name operator rest =>
    have hread := token?_slice hw hs (Shape.token?_of_of? h) hcasing
    obtain ⟨_, _, _, hshape, hspelled, -, -, bl, tail, -, hchars, -⟩ := Shape.token?_eq_some hread
    cases hshape
    have hne : ∀ d, isNameChar d = false → (w.slice s).chars.head? ≠ some d :=
      fun d hd => hchars ▸ head_ne_of_name (isNameText_of_isTokenSpelled hspelled) _ hd
    rw [Shape.of?, Shape.comment?_eq_none (hne '/' (by decide)),
      Shape.pragma?_eq_none (hne '%' (by decide)), hread]
    rfl
  | rule name alias? operator rest =>
    have hread := rule?_slice hw hs (Shape.rule?_of_of? h) hcasing
    obtain ⟨_, _, _, _, hshape, hspelled, -, -, al, bl, tail, -, -, hchars, -⟩ :=
      Shape.rule?_eq_some hread
    cases hshape
    have hne : ∀ d, isNameChar d = false → (w.slice s).chars.head? ≠ some d :=
      fun d hd => hchars ▸ head_ne_of_name (isNameText_of_isRuleSpelled hspelled) _ hd
    have htoken : ∀ d ∈ (w.slice s).chars.head?, isTokenStart d = false := by
      intro d hd
      obtain ⟨c, more, hcs⟩ := List.exists_cons_of_ne_nil (isSpelled_ne_nil hspelled)
      rw [hchars, hcs] at hd
      obtain rfl := Option.some.inj hd
      rw [hcs] at hspelled
      exact isTokenStart_of_isRuleStart (isSpelled_cons.1 hspelled).1
    rw [Shape.of?, Shape.comment?_eq_none (hne '/' (by decide)),
      Shape.pragma?_eq_none (hne '%' (by decide)), Shape.token?_eq_none htoken, hread]
    rfl

end

end Rewriting

end LineGrammar
