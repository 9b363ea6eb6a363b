import LineGrammar.Proofs.LineParts

/-! Parts of a line in a row. What a recogniser finds stands between the column where it starts to read
and the column where it stops, so the parts of a line follow each other and none runs into the next. -/

namespace LineGrammar

/-- The parts of an element in the order in which they are written. -/
def ElementShape.parts (e : ElementShape) : List Slice := e.anchor?.toList ++ e.name :: e.alias?.toList

namespace Slice

/-- The parts follow each other from left to right between two columns, and none of them is empty. -/
def Row (first : Nat) : List Slice → Nat → Prop
  | [], last => first ≤ last
  | s :: rest, last => first ≤ s.column ∧ s.column < s.stop ∧ Row s.stop rest last

theorem Row.widen {first first' last last' : Nat} {parts : List Slice} (hfirst : first' ≤ first)
    (h : Row first parts last) (hlast : last ≤ last') : Row first' parts last' := by
  induction parts generalizing first first' with
  | nil => exact Nat.le_trans hfirst (Nat.le_trans h hlast)
  | cons s rest ih =>
    obtain ⟨hcolumn, hpos, hrest⟩ := h
    exact ⟨Nat.le_trans hfirst hcolumn, hpos, ih (Nat.le_refl _) hrest⟩

theorem Row.append {first middle last : Nat} {parts more : List Slice} (h : Row first parts middle)
    (hmore : Row middle more last) : Row first (parts ++ more) last := by
  induction parts generalizing first with
  | nil => exact hmore.widen h (Nat.le_refl _)
  | cons s rest ih => exact ⟨h.1, h.2.1, ih h.2.2⟩

theorem Row.nonempty {first last : Nat} {parts : List Slice} (h : Row first parts last) :
    ∀ s ∈ parts, first ≤ s.column ∧ s.column < s.stop := by
  induction parts generalizing first with
  | nil => simp
  | cons t rest ih =>
    obtain ⟨hcolumn, hpos, hrest⟩ := h
    intro s hs
    rcases List.mem_cons.1 hs with rfl | hs
    · exact ⟨hcolumn, hpos⟩
    · obtain ⟨hle, hlt⟩ := ih hrest s hs
      exact ⟨by omega, hlt⟩

theorem Row.pairwise {first last : Nat} {parts : List Slice} (h : Row first parts last) :
    parts.Pairwise fun s t => s.stop ≤ t.column := by
  induction parts generalizing first with
  | nil => exact .nil
  | cons s rest ih =>
    obtain ⟨-, -, hrest⟩ := h
    exact List.pairwise_cons.2 ⟨fun t ht => (hrest.nonempty t ht).1, ih hrest⟩

variable {s part rest : Slice}

theorem Cut.row (h : s.Cut part rest) (hne : part.chars ≠ []) : Row s.column [part] rest.column := by
  have hlength := List.length_pos_iff.2 hne
  have hcolumn := h.column
  have hnext := h.next
  exact ⟨by omega, by rw [Slice.stop]; omega, by change part.stop ≤ rest.column; rw [Slice.stop]; omega⟩

/-- A recogniser that finds one part, which is not empty. -/
def FindsPart (part? : Slice → Option (Slice × Slice)) : Prop :=
  ∀ {s part rest : Slice}, part? s = some (part, rest) → Row s.column [part] rest.column

theorem FindsPart.optional {part? : Slice → Option (Slice × Slice)} (h : FindsPart part?) (s : Slice) :
    Row s.column (s.optional part?).1.toList (s.optional part?).2.column := by
  unfold Slice.optional
  cases hpart : part? s with
  | none => exact Nat.le_refl _
  | some found => exact h hpart

theorem column_le_accept? {mark : String} (h : s.accept? mark = some (part, rest)) :
    s.column ≤ rest.column := (accept?_eq_some h).1.ends.column_le

theorem findsPart_accept? (mark : String) (hne : mark.toList ≠ []) : FindsPart (·.accept? mark) := by
  intro s part rest h
  obtain ⟨hcut, hchars⟩ := accept?_eq_some h
  exact hcut.row (by rwa [hchars])

theorem findsPart_spelled? (first more : Char → Bool) : FindsPart (·.spelled? first more) := by
  intro s part rest h
  obtain ⟨hcut, hspelled, -⟩ := spelled?_eq_some h
  exact hcut.row (isSpelled_ne_nil hspelled)

theorem findsPart_name? : FindsPart name? := findsPart_spelled? isNameStart isNameChar

theorem findsPart_parenthesised? : FindsPart parenthesised? := by
  intro s name rest h
  obtain ⟨opening, s₁, s₂, closing, hopening, hname, hclosing⟩ := parenthesised?_steps.1 h
  have hle₁ := column_le_accept? hopening
  have hle₃ := column_le_accept? hclosing
  exact (findsPart_name? hname).widen (Nat.le_trans hle₁ (column_le_trimStart s₁))
    (Nat.le_trans (column_le_trimStart s₂) hle₃)

theorem findsPart_qualifier? : FindsPart qualifier? := by
  intro s walker rest h
  obtain ⟨s₁, mark, hname, hmark⟩ := qualifier?_steps.1 h
  exact (findsPart_name? hname).widen (Nat.le_refl _) (column_le_accept? hmark)

theorem findsPart_markedFunction? : FindsPart markedFunction? := by
  intro s function rest h
  obtain ⟨mark, s₁, hmark, hname⟩ := markedFunction?_steps.1 h
  exact (findsPart_name? hname).widen (column_le_accept? hmark) (Nat.le_refl _)

theorem findsPart_literal? : FindsPart literal? := by
  intro s literal rest h
  obtain ⟨hcut, body, hbody, -⟩ := literal?_eq_some h
  exact hcut.row (by simp [hbody])

theorem findsPart_mode? : FindsPart mode? := by
  intro s mode rest h
  obtain ⟨opening, s₁, s₂, closing, hopening, hfound, hclosing⟩ := mode?_steps.1 h
  have hle₁ := column_le_accept? hopening
  have hle₃ := column_le_accept? hclosing
  have hmode : Row s₁.trimStart.column [mode] s₂.column := by
    rcases hfound with hcurrent | ⟨-, hname⟩
    · exact findsPart_accept? currentMode (by decide) hcurrent
    · exact findsPart_name? hname
  exact hmode.widen (Nat.le_trans hle₁ (column_le_trimStart s₁))
    (Nat.le_trans (column_le_trimStart s₂) hle₃)

/-- The parts of a sequence, item by item. -/
theorem row_sequence? {α : Type} {item? : Slice → Option (α × Slice)} (hcuts : Cuts item?)
    (parts : α → List Slice)
    (hitem : ∀ {s rest : Slice} {item : α}, item? s = some (item, rest) →
      Row s.column (parts item) rest.column)
    {items : List α} (h : s.sequence? item? = some items) :
    ∃ last, Row s.column (items.flatMap parts) last := by
  induction items generalizing s with
  | nil => exact ⟨s.column, Nat.le_refl _⟩
  | cons item items ih =>
    rcases sequence?_eq_some hcuts h with ⟨-, hnil⟩ | ⟨first, rest, more, hfirst, -, hmore, hcons⟩
    · cases hnil
    · obtain ⟨rfl, rfl⟩ := List.cons.inj hcons
      obtain ⟨last, hlast⟩ := ih hmore
      exact ⟨last, (hitem hfirst).append hlast⟩

theorem row_singleName? {name : Slice} {terminated : Bool}
    (h : s.singleName? = some (name, terminated)) : ∃ last, Row s.column [name] last := by
  obtain ⟨s₁, hname, -⟩ := singleName?_steps.1 h
  exact ⟨_, findsPart_name? hname⟩

theorem row_listItem? {name : Slice} (h : s.listItem? = some (name, rest)) :
    Row s.column [name] rest.column := by
  obtain ⟨s₁, hname, rfl⟩ := listItem?_steps.1 h
  exact (findsPart_name? hname).widen (column_le_trimStart s) (column_le_trimStart s₁)

theorem row_nameList? {names : List Slice} (h : s.nameList? = some names) :
    ∃ last, Row s.column names last := by
  unfold nameList? at h
  dsimp only at h
  split at h
  · cases h
  · obtain ⟨hsequence, -⟩ := Option.filter_eq_some_iff.1 h
    obtain ⟨last, hrow⟩ := row_sequence? cuts_listItem? (fun name => [name]) row_listItem? hsequence
    rw [column_cutTerminator] at hrow
    exact ⟨last, by simpa using hrow⟩

theorem row_membersParameters? {walker : Slice} {mark? : Option Slice}
    (h : s.membersParameters? = some (walker, mark?)) :
    ∃ last, Row s.column (walker :: mark?.toList) last := by
  obtain ⟨s₁, hname, hend⟩ := membersParameters?_steps.1 h
  have hwalker := findsPart_name? hname
  rcases hend with ⟨mark, s₂, hmark, -, rfl⟩ | ⟨-, -, -, rfl⟩
  · have hrow := (findsPart_accept? openingMark (by decide)) hmark
    exact ⟨_, hwalker.append (hrow.widen (column_le_trimStart s₁) (Nat.le_refl _))⟩
  · exact ⟨_, hwalker⟩

theorem row_interfaceParameters? {walker typeName : Slice}
    (h : s.interfaceParameters? = some (walker, typeName)) :
    ∃ last, Row s.column [walker, typeName] last := by
  obtain ⟨s₁, s₂, s₃, terminated, hname, hgap, htype, -⟩ := interfaceParameters?_steps.1 h
  obtain ⟨rfl, -⟩ := blanks?_eq_some hgap
  have hrow := findsPart_spelled? _ _ htype
  exact ⟨_, (findsPart_name? hname).append (hrow.widen (column_le_trimStart s₁) (Nat.le_refl _))⟩

theorem row_functionParameters? {shape : FunctionShape} (h : s.functionParameters? = some shape) :
    ∃ last, Row s.column
      (shape.rule :: (shape.walker?.toList ++ [shape.function, shape.returnType])) last := by
  obtain ⟨rule, s₁, s₂, function, s₃, opening, s₄, closing, s₅, arrow, s₆, hrule, hgap, hfunction,
    hopening, hclosing, harrow, hspelled, rfl⟩ := functionParameters?_steps.1 h
  obtain ⟨rfl, -⟩ := blanks?_eq_some hgap
  have hrow := ((findsPart_name? hrule).widen (Nat.le_refl _) (column_le_trimStart s₁)).append
    ((FindsPart.optional findsPart_qualifier? s₁.trimStart).append (findsPart_name? hfunction))
  -- The parameters stand between the function and the type and are not part of the row.
  have hparameters : s₄.column ≤ (s₄.splitWhile fun c => c != '(' && c != ')').2.column :=
    (cut_split _ s₄).ends.column_le
  have hskip : s₃.column ≤ s₆.trimStart.cutTerminator.1.column := by
    have h₁ := column_le_trimStart s₃
    have h₂ := column_le_accept? hopening
    have h₃ := column_le_accept? hclosing
    have h₄ := column_le_trimStart s₅
    have h₅ := column_le_accept? harrow
    have h₆ := column_le_trimStart s₆
    rw [column_cutTerminator]
    omega
  have hlength := List.length_pos_iff.2 (isSpelled_ne_nil hspelled)
  have htype : Row s₃.column [s₆.trimStart.cutTerminator.1] s₆.trimStart.cutTerminator.1.stop :=
    ⟨hskip, by rw [Slice.stop]; omega, Nat.le_refl _⟩
  have hall := hrow.append htype
  simp only [List.append_assoc, List.cons_append, List.nil_append] at hall
  exact ⟨_, hall⟩

/-- The first character of a line, if there is one. -/
theorem row_first {s : Slice} (hne : s.chars ≠ []) :
    Row s.column [(s.split 1).1] (s.split 1).2.column := by
  refine (cut_split 1 s).row ?_
  obtain ⟨c, cs, hcs⟩ := List.exists_cons_of_ne_nil hne
  simp [split, hcs]

theorem row_blockName? {walker : Slice} {function? : Option Slice}
    (h : s.blockName? = some (walker, function?)) :
    ∃ last, Row s.column ((s.split 1).1 :: walker :: function?.toList) last := by
  obtain ⟨mark, s₁, s₂, hmark, hname, -, rfl⟩ := blockName?_steps.1 h
  obtain ⟨rfl, rfl⟩ : (s.split 1).1 = mark ∧ (s.split 1).2 = s₁ := by
    unfold accept? at hmark
    split at hmark <;> cases hmark
    exact ⟨rfl, rfl⟩
  have hfirst := findsPart_accept? "@" (by decide) hmark
  exact ⟨_, hfirst.append
    ((findsPart_name? hname).append (FindsPart.optional findsPart_markedFunction? s₂))⟩

theorem row_tokenValue? {value : TokenValue} (h : s.tokenValue? = some value) :
    ∃ last, Row s.column (value.literal :: (value.bang?.toList ++ value.mode?.toList)) last := by
  obtain ⟨literal, s₁, terminated, hliteral, -, rfl⟩ := tokenValue?_steps.1 h
  have hbang := FindsPart.optional (findsPart_accept? "!" (by decide)) s₁
  have hmode := FindsPart.optional findsPart_mode? (s₁.optional (·.accept? "!")).2.trimStart
  exact ⟨_, (findsPart_literal? hliteral).append
    (hbang.append (hmode.widen (column_le_trimStart _) (Nat.le_refl _)))⟩

theorem row_element? {e : ElementShape} (h : s.element? = some (e, rest)) :
    Row s.column e.parts rest.column := by
  obtain ⟨name, s₂, hname, hend, rfl⟩ := element?_steps.1 h
  have hanchor := FindsPart.optional (findsPart_accept? "^" (by decide)) s.trimStart
  have halias := FindsPart.optional findsPart_parenthesised? s₂
  have hrow := (hanchor.widen (column_le_trimStart s) (Nat.le_refl _)).append
    ((findsPart_name? hname).append halias)
  rcases hend with ⟨-, rfl⟩ | ⟨-, hblanks⟩
  · exact hrow
  · obtain ⟨rfl, -⟩ := blanks?_eq_some hblanks
    exact hrow.widen (Nat.le_refl _) (column_le_trimStart _)

/-- Also when the body is malformed and counts as empty. -/
theorem row_elements? (s : Slice) :
    ∃ last, Row s.column ((s.elements?.getD []).flatMap ElementShape.parts) last := by
  cases helements : s.elements? with
  | none => exact ⟨s.column, Nat.le_refl _⟩
  | some es => exact row_sequence? cuts_element? ElementShape.parts row_element? helements

end Slice

namespace Shape

open Slice

variable {s : Slice}

theorem column_le_tail? {rest : Slice} (h : tail? s = some rest) : s.column ≤ rest.column := by
  obtain ⟨rfl, -⟩ := tail?_eq_some h
  exact column_le_trimStart s

theorem row_pragma? {mark name params : Slice} (h : pragma? s = some (.pragma mark name params)) :
    Row s.column [mark] params.column := by
  obtain ⟨percent, s₁, _, s₂, _, hmark, hname, hparams, ⟨⟩⟩ := pragma?_steps.1 h
  obtain ⟨hcut, hchars⟩ := accept?_eq_some hmark
  obtain ⟨hcut', -, -⟩ := name?_eq_some hname
  have hnext : (s.split (name.chars.length + 1)).2.column = s₂.column := by
    have hcolumn := hcut'.next
    rw [hcut.next, hchars] at hcolumn
    simp [split, hcut.chars, hchars, hcut'.chars, hcolumn]
    omega
  refine ((cut_split (name.chars.length + 1) s).row ?_).widen (Nat.le_refl _) ?_
  · simp [split, hcut.chars, hchars]
  · rw [hnext]
    exact column_le_tail? hparams

theorem row_token? {name operator rest : Slice} (h : token? s = some (.token name operator rest)) :
    Row s.column [name, operator] rest.column := by
  obtain ⟨_, s₁, _, s₂, _, hname, hoperator, hrest, ⟨⟩⟩ := token?_steps.1 h
  have hmark := findsPart_accept? ":=" (by decide) hoperator
  exact (findsPart_spelled? _ _ hname).append
    (hmark.widen (column_le_trimStart s₁) (column_le_tail? hrest))

theorem row_rule? {name operator rest : Slice} {alias? : Option Slice}
    (h : rule? s = some (.rule name alias? operator rest)) :
    Row s.column (name :: (alias?.toList ++ [operator])) rest.column := by
  obtain ⟨_, s₁, _, s₂, _, hname, hoperator, hrest, ⟨⟩⟩ := rule?_steps.1 h
  have hmark := findsPart_accept? ":=" (by decide) hoperator
  exact (findsPart_spelled? _ _ hname).append
    ((FindsPart.optional findsPart_parenthesised? s₁).append
      (hmark.widen (column_le_trimStart _) (column_le_tail? hrest)))

end Shape

end LineGrammar
