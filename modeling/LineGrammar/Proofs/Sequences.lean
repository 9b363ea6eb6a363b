import LineGrammar.Proofs.Recognition
import LineGrammar.Tiling

/-! A sequence read item by item. The tiling works with offsets into the whole slice; for an item
reader that only cuts its slice it is the plain recursion on the rest. -/

namespace LineGrammar.Slice

/-- What an item reader leaves stands at the end of what it was given. -/
def Cuts {α : Type} (item? : Slice → Option (α × Slice)) : Prop :=
  ∀ {s rest : Slice} {a : α}, item? s = some (a, rest) → rest.Ends s

theorem Ends.split_eq {t s : Slice} (h : t.Ends s) :
    (s.split (s.chars.length - t.chars.length)).2 = t := by
  obtain ⟨⟨front, hfront⟩, hstop⟩ := h
  obtain ⟨column, cs⟩ := s
  obtain ⟨column', ds⟩ := t
  simp only [Slice.stop] at hfront hstop
  subst hfront
  have hcol : column + front.length = column' := by
    simp only [List.length_append] at hstop; omega
  simp [split, hcol]

theorem Ends.offset_eq {t s : Slice} (h : t.Ends s) :
    t.column - s.column = s.chars.length - t.chars.length := by
  have hstop := h.stop
  have hlen := h.length_le
  simp only [Slice.stop] at hstop
  omega

section
variable {α : Type} {item? : Slice → Option (α × Slice)}

/-- The finder through which a slice is tiled with items. -/
def itemAt (item? : Slice → Option (α × Slice)) (s : Slice) (pos : Nat) : Option (Match α) :=
  (item? (s.split pos).2).map fun (item, rest) => ⟨pos, rest.column - s.column, item⟩

theorem sequence?_eq_tileFrom (s : Slice) :
    s.sequence? item? = tileFrom (itemAt item? s) s.chars.length 0 := rfl

theorem itemAt_eq {t s : Slice} (hcuts : Cuts item?) (h : t.Ends s) :
    itemAt item? s (s.chars.length - t.chars.length) =
      (item? t).map fun (item, rest) =>
        ⟨s.chars.length - t.chars.length, s.chars.length - rest.chars.length, item⟩ := by
  rw [itemAt, h.split_eq]
  cases hitem : item? t with
  | none => rfl
  | some found =>
    obtain ⟨item, rest⟩ := found
    simp only [Option.map_some, ((hcuts hitem).trans h).offset_eq]

/-- Tiling the end of a slice is the same within the slice and on its own. -/
theorem tileFrom_ends {t s : Slice} (hcuts : Cuts item?) (h : t.Ends s) :
    tileFrom (itemAt item? s) s.chars.length (s.chars.length - t.chars.length) =
      if t.chars = [] then some []
      else match item? t with
        | some (item, rest) =>
          if rest.chars.length < t.chars.length then
            (tileFrom (itemAt item? s) s.chars.length
              (s.chars.length - rest.chars.length)).map (item :: ·)
          else none
        | none => none := by
  have hlen := h.length_le
  rw [tileFrom, itemAt_eq hcuts h]
  by_cases hnil : t.chars = []
  · rw [if_neg (by simp [hnil]), if_pos hnil]
  · have hpos : 0 < t.chars.length := List.length_pos_iff.2 hnil
    rw [if_pos (by omega), if_neg hnil]
    cases hitem : item? t with
    | none => rfl
    | some found =>
      obtain ⟨item, rest⟩ := found
      have hrest := (hcuts hitem).length_le
      simp only [Option.map_some, true_and]
      by_cases hlt : rest.chars.length < t.chars.length
      · rw [if_pos (by omega), if_pos hlt]
      · rw [if_neg (by omega), if_neg hlt]

theorem tileFrom_eq_sequence? (hcuts : Cuts item?) :
    ∀ (n : Nat) {t s : Slice}, t.chars.length ≤ n → t.Ends s →
      tileFrom (itemAt item? s) s.chars.length (s.chars.length - t.chars.length) =
        t.sequence? item? := by
  intro n
  induction n with
  | zero =>
    intro t s hn h
    have hnil : t.chars = [] := List.length_eq_zero_iff.1 (by omega)
    have hself := tileFrom_ends hcuts (Ends.refl t)
    rw [Nat.sub_self] at hself
    rw [tileFrom_ends hcuts h, sequence?_eq_tileFrom, hself, if_pos hnil, if_pos hnil]
  | succ n ih =>
    intro t s hn h
    have hself := tileFrom_ends hcuts (Ends.refl t)
    rw [Nat.sub_self] at hself
    rw [tileFrom_ends hcuts h, sequence?_eq_tileFrom, hself]
    split
    · rfl
    · cases hitem : item? t with
      | none => rfl
      | some found =>
        obtain ⟨item, rest⟩ := found
        have hrest := hcuts hitem
        dsimp only
        split
        · next hlt => rw [ih (by omega) (hrest.trans h), ih (by omega) hrest]
        · rfl

/-- A sequence is read by reading one item and then the rest. -/
theorem sequence?_eq (hcuts : Cuts item?) (s : Slice) :
    s.sequence? item? =
      if s.chars = [] then some []
      else match item? s with
        | some (item, rest) =>
          if rest.chars.length < s.chars.length then (rest.sequence? item?).map (item :: ·)
          else none
        | none => none := by
  have hself := tileFrom_ends hcuts (Ends.refl s)
  rw [Nat.sub_self] at hself
  rw [sequence?_eq_tileFrom, hself]
  split
  · rfl
  · cases hitem : item? s with
    | none => rfl
    | some found =>
      obtain ⟨item, rest⟩ := found
      dsimp only
      rw [tileFrom_eq_sequence? hcuts _ (Nat.le_refl _) (hcuts hitem)]

theorem sequence?_nil (hcuts : Cuts item?) {s : Slice} (h : s.chars = []) :
    s.sequence? item? = some [] := by
  rw [sequence?_eq hcuts, if_pos h]

theorem sequence?_cons (hcuts : Cuts item?) {s rest : Slice} {item : α} (h : s.chars ≠ [])
    (hitem : item? s = some (item, rest)) (hlt : rest.chars.length < s.chars.length) :
    s.sequence? item? = (rest.sequence? item?).map (item :: ·) := by
  rw [sequence?_eq hcuts, if_neg h, hitem]
  exact if_pos hlt

/-- Reading a sequence that succeeds, by its first item. -/
theorem sequence?_eq_some (hcuts : Cuts item?) {s : Slice} {items : List α}
    (h : s.sequence? item? = some items) :
    s.chars = [] ∧ items = [] ∨
      ∃ item rest more, item? s = some (item, rest) ∧ rest.chars.length < s.chars.length ∧
        rest.sequence? item? = some more ∧ items = item :: more := by
  rw [sequence?_eq hcuts] at h
  split at h
  · next hnil => cases h; exact Or.inl ⟨hnil, rfl⟩
  · split at h
    · next item rest hitem =>
      split at h
      · next hlt =>
        obtain ⟨more, hmore, rfl⟩ := Option.map_eq_some_iff.1 h
        exact Or.inr ⟨item, rest, more, hitem, hlt, hmore, rfl⟩
      · cases h
    · cases h

/-- What holds of every item that is read holds of all items of a sequence. -/
theorem forall_of_sequence? (hcuts : Cuts item?) {P : α → Prop}
    (hitem : ∀ {s rest : Slice} {item : α}, item? s = some (item, rest) → P item) {s : Slice}
    {items : List α} (h : s.sequence? item? = some items) : ∀ item ∈ items, P item := by
  induction items generalizing s with
  | nil => simp
  | cons item items ih =>
    rcases sequence?_eq_some hcuts h with ⟨-, hnil⟩ | ⟨_, rest, _, hfirst, -, hmore, hcons⟩
    · cases hnil
    · obtain ⟨rfl, rfl⟩ := List.cons.inj hcons
      intro i hi
      rcases List.mem_cons.1 hi with rfl | hi
      · exact hitem hfirst
      · exact ih hmore i hi

end

end LineGrammar.Slice
