import LineGrammar.Line.Shape
import LineGrammar.Proofs.BlockNameContent
import LineGrammar.Proofs.FunctionText
import LineGrammar.Reading.Rule
import LineGrammar.Reading.Token

/-! Recognising the parts of a text that stands further to the right. No recogniser looks at columns: it
finds the same parts, all of them as much further to the right. -/

namespace LineGrammar

namespace Slice

/-- The same text, `d` columns further to the right. -/
def shift (d : Nat) (s : Slice) : Slice := ⟨s.column + d, s.chars⟩

variable (d : Nat) (s : Slice)

@[simp] theorem column_shift : (s.shift d).column = s.column + d := rfl

@[simp] theorem chars_shift : (s.shift d).chars = s.chars := rfl

@[simp] theorem text_shift : (s.shift d).text = s.text := rfl

@[simp] theorem isEmpty_shift : (s.shift d).isEmpty = s.isEmpty := rfl

@[simp] theorem stop_shift : (s.shift d).stop = s.stop + d := by
  simp only [stop, column_shift, chars_shift]
  omega

/-- A part and the rest. -/
abbrev shiftBoth (d : Nat) : Slice × Slice → Slice × Slice := Prod.map (shift d) (shift d)

/-- The rest of a recogniser, after a part that is found further to the right. -/
theorem bind_of_map {α α' β β' : Type} {f : α → α'} {g : β → β'} {found : Option α}
    {next : α → Option β} {next' : α' → Option β'} (h : ∀ a, next' (f a) = (next a).map g) :
    (found.map f >>= next') = (found >>= next).map g := by
  cases found with
  | none => rfl
  | some a => exact h a

theorem split_shift (n : Nat) : (s.shift d).split n = shiftBoth d (s.split n) := by
  simp only [split, shiftBoth, Prod.map, shift, Prod.mk.injEq, Slice.mk.injEq, true_and, and_true]
  omega

theorem splitWhile_shift (p : Char → Bool) :
    (s.shift d).splitWhile p = shiftBoth d (s.splitWhile p) := split_shift d s _

@[simp] theorem trimStart_shift : (s.shift d).trimStart = s.trimStart.shift d :=
  congrArg Prod.snd (splitWhile_shift d s isBlank)

@[simp] theorem trimEnd_shift : (s.shift d).trimEnd = s.trimEnd.shift d :=
  congrArg Prod.fst (split_shift d s _)

@[simp] theorem trim_shift : (s.shift d).trim = s.trim.shift d := by
  rw [trim, trimStart_shift, trimEnd_shift, trim]

@[simp] theorem accept?_shift (front : String) :
    (s.shift d).accept? front = (s.accept? front).map (shiftBoth d) := by
  unfold accept?
  rw [chars_shift, split_shift]
  split <;> rfl

theorem spelled?_shift (first rest : Char → Bool) :
    (s.shift d).spelled? first rest = (s.spelled? first rest).map (shiftBoth d) := by
  unfold spelled?
  rw [chars_shift]
  cases s.chars with
  | nil => rfl
  | cons c cs =>
    dsimp only
    rw [split_shift]
    split <;> rfl

@[simp] theorem name?_shift : (s.shift d).name? = s.name?.map (shiftBoth d) := spelled?_shift d s _ _

@[simp] theorem blanks?_shift : (s.shift d).blanks? = s.blanks?.map (shift d) := by
  unfold blanks?
  rw [chars_shift, trimStart_shift]
  cases s.chars with
  | nil => rfl
  | cons c cs => dsimp only; split <;> rfl

theorem optional_shift {part? : Slice → Option (Slice × Slice)}
    (h : ∀ s : Slice, part? (s.shift d) = (part? s).map (shiftBoth d)) :
    (s.shift d).optional part? = Prod.map (Option.map (shift d)) (shift d) (s.optional part?) := by
  unfold optional
  rw [h]
  cases part? s <;> rfl

@[simp] theorem parenthesised?_shift :
    (s.shift d).parenthesised? = s.parenthesised?.map (shiftBoth d) := by
  unfold parenthesised?
  rw [accept?_shift]
  refine bind_of_map fun ⟨_, s⟩ => ?_
  dsimp only [shiftBoth, Prod.map]
  rw [trimStart_shift, name?_shift]
  refine bind_of_map fun ⟨name, s⟩ => ?_
  dsimp only [shiftBoth, Prod.map]
  rw [trimStart_shift, accept?_shift]
  exact bind_of_map fun _ => rfl

@[simp] theorem terminator?_shift : (s.shift d).terminator? = s.terminator? := by
  rw [terminator?, trimStart_shift, chars_shift, terminator?]

theorem cutTerminator_shift :
    (s.shift d).cutTerminator = Prod.map (shift d) id s.cutTerminator := by
  unfold cutTerminator
  rw [chars_shift, split_shift, trimEnd_shift]
  split
  · simp
  · rfl

/-- Tiling with what is made of the matches. -/
theorem tileFrom_map {α β : Type} (f : α → β) (find? : Nat → Option (Match α)) (size pos : Nat) :
    tileFrom (fun p => (find? p).map fun m => ⟨m.start, m.stop, f m.captured⟩) size pos =
      (tileFrom find? size pos).map (List.map f) := by
  induction pos using tileFrom.induct find? size with
  | case1 pos hpos m hfind hm ih =>
    have hnext : tileFrom find? size pos = (tileFrom find? size m.stop).map (m.captured :: ·) := by
      rw [tileFrom.eq_def find? size pos, if_pos hpos, hfind]
      exact if_pos hm
    rw [tileFrom, if_pos hpos, hfind]
    dsimp only [Option.map_some]
    rw [if_pos hm, ih, hnext, Option.map_map, Option.map_map]
    rfl
  | case2 pos hpos m hfind hm =>
    rw [tileFrom, if_pos hpos, hfind]
    dsimp only [Option.map_some]
    rw [if_neg hm, tileFrom, if_pos hpos, hfind]
    dsimp only
    rw [if_neg hm, Option.map_none]
  | case3 pos hpos hfind =>
    rw [tileFrom, if_pos hpos, hfind, tileFrom, if_pos hpos, hfind]
    rfl
  | case4 pos hpos =>
    rw [tileFrom, if_neg hpos, tileFrom, if_neg hpos]
    rfl

theorem sequence?_shift {α : Type} {item? : Slice → Option (α × Slice)} {f : α → α}
    (h : ∀ s : Slice, item? (s.shift d) = (item? s).map (Prod.map f (shift d))) :
    (s.shift d).sequence? item? = (s.sequence? item?).map (List.map f) := by
  unfold sequence?
  rw [← tileFrom_map]
  congr 1
  funext pos
  rw [split_shift, Prod.map_snd, h, Option.map_map, Option.map_map]
  congr 1
  funext ⟨item, rest⟩
  simp only [Function.comp, Prod.map, column_shift, Match.mk.injEq, true_and, and_true]
  omega

@[simp] theorem singleName?_shift :
    (s.shift d).singleName? = s.singleName?.map (Prod.map (shift d) id) := by
  unfold singleName?
  rw [name?_shift]
  refine bind_of_map fun ⟨name, s⟩ => ?_
  dsimp only [shiftBoth, Prod.map]
  rw [terminator?_shift]
  cases s.terminator? <;> rfl

@[simp] theorem listItem?_shift : (s.shift d).listItem? = s.listItem?.map (shiftBoth d) := by
  simp [listItem?, Function.comp_def]

@[simp] theorem nameList?_shift : (s.shift d).nameList? = s.nameList?.map (List.map (shift d)) := by
  unfold nameList?
  rw [cutTerminator_shift]
  dsimp only [shiftBoth, Prod.map]
  rw [chars_shift, sequence?_shift d _ (listItem?_shift d)]
  split
  · rfl
  · cases (s.cutTerminator.1.sequence? listItem?) with
    | none => rfl
    | some names => cases names <;> rfl

@[simp] theorem membersParameters?_shift :
    (s.shift d).membersParameters? =
      s.membersParameters?.map (Prod.map (shift d) (Option.map (shift d))) := by
  unfold membersParameters?
  rw [name?_shift]
  refine bind_of_map fun ⟨walker, s⟩ => ?_
  dsimp only [shiftBoth, Prod.map]
  rw [trimStart_shift, accept?_shift, terminator?_shift]
  cases s.trimStart.accept? openingMark with
  | none => cases s.terminator? <;> rfl
  | some found =>
    cases h : found.2.isEmpty <;> simp [h]

end Slice

/-- The parameters of a function, further to the right. -/
def FunctionShape.shift (d : Nat) (f : FunctionShape) : FunctionShape :=
  { f with
    rule := f.rule.shift d
    walker? := f.walker?.map (Slice.shift d)
    function := f.function.shift d
    parameters := f.parameters.shift d
    returnType := f.returnType.shift d }

def ElementShape.shift (d : Nat) (e : ElementShape) : ElementShape :=
  ⟨e.anchor?.map (Slice.shift d), e.name.shift d, e.alias?.map (Slice.shift d)⟩

def TokenValue.shift (d : Nat) (v : TokenValue) : TokenValue :=
  { v with
    literal := v.literal.shift d
    bang? := v.bang?.map (Slice.shift d)
    mode? := v.mode?.map (Slice.shift d) }

def Shape.shift (d : Nat) : Shape → Shape
  | comment => .comment
  | pragma keyword name params => .pragma (keyword.shift d) (name.shift d) (params.shift d)
  | token name operator rest => .token (name.shift d) (operator.shift d) (rest.shift d)
  | rule name alias? operator rest =>
    .rule (name.shift d) (alias?.map (Slice.shift d)) (operator.shift d) (rest.shift d)

namespace Slice

variable (d : Nat) (s : Slice)

theorem qualifier?_shift : (s.shift d).qualifier? = s.qualifier?.map (shiftBoth d) := by
  unfold qualifier?
  rw [name?_shift]
  refine bind_of_map fun ⟨walker, s⟩ => ?_
  dsimp only [shiftBoth, Prod.map]
  rw [accept?_shift]
  exact bind_of_map fun _ => rfl

@[simp] theorem functionParameters?_shift :
    (s.shift d).functionParameters? = s.functionParameters?.map (FunctionShape.shift d) := by
  unfold functionParameters?
  rw [name?_shift]
  refine bind_of_map fun ⟨rule, s⟩ => ?_
  dsimp only [shiftBoth, Prod.map]
  rw [blanks?_shift]
  refine bind_of_map fun s => ?_
  have hwalker := optional_shift d s (qualifier?_shift d)
  unfold qualifier? at hwalker
  rw [hwalker]
  generalize s.optional _ = found
  obtain ⟨walker?, s⟩ := found
  dsimp only [shiftBoth, Prod.map]
  rw [name?_shift]
  refine bind_of_map fun ⟨function, s⟩ => ?_
  dsimp only [shiftBoth, Prod.map]
  rw [trimStart_shift, accept?_shift]
  refine bind_of_map fun ⟨_, s⟩ => ?_
  dsimp only [shiftBoth, Prod.map]
  rw [splitWhile_shift]
  generalize s.splitWhile _ = found
  obtain ⟨parameters, s⟩ := found
  dsimp only [shiftBoth, Prod.map]
  rw [accept?_shift]
  refine bind_of_map fun ⟨_, s⟩ => ?_
  dsimp only [shiftBoth, Prod.map]
  rw [trimStart_shift, accept?_shift]
  refine bind_of_map fun ⟨_, s⟩ => ?_
  simp only [trimStart_shift, cutTerminator_shift, Prod.map, id, chars_shift]
  cases isSpelled isNameStart isTypeChar s.trimStart.cutTerminator.1.chars <;>
    simp [FunctionShape.shift]

@[simp] theorem interfaceParameters?_shift :
    (s.shift d).interfaceParameters? = s.interfaceParameters?.map (shiftBoth d) := by
  unfold interfaceParameters?
  rw [name?_shift]
  refine bind_of_map fun ⟨walker, s⟩ => ?_
  dsimp only [shiftBoth, Prod.map]
  rw [blanks?_shift]
  refine bind_of_map fun s => ?_
  rw [spelled?_shift]
  refine bind_of_map fun ⟨typeName, s⟩ => ?_
  dsimp only [shiftBoth, Prod.map]
  rw [terminator?_shift]
  cases s.terminator? <;> rfl

theorem element?_shift :
    (s.shift d).element? = s.element?.map (Prod.map (ElementShape.shift d) (shift d)) := by
  unfold element?
  rw [trimStart_shift, optional_shift d _ fun s => accept?_shift d s "^"]
  generalize s.trimStart.optional _ = found
  obtain ⟨anchor?, s⟩ := found
  dsimp only [shiftBoth, Prod.map]
  rw [name?_shift]
  refine bind_of_map fun ⟨name, s⟩ => ?_
  dsimp only [shiftBoth, Prod.map]
  simp only [optional_shift d _ (parenthesised?_shift d), Prod.map, isEmpty_shift, blanks?_shift]
  cases (s.optional parenthesised?).2.isEmpty with
  | true => rfl
  | false => exact bind_of_map fun _ => rfl

theorem elements?_shift : (s.shift d).elements? = s.elements?.map (List.map (ElementShape.shift d)) :=
  sequence?_shift d s (element?_shift d)

theorem literal?_shift : (s.shift d).literal? = s.literal?.map (shiftBoth d) := by
  unfold literal?
  rw [chars_shift]
  split
  · next cs _ => cases closingQuote? cs <;> simp [split_shift]
  · rfl

theorem mode?_shift : (s.shift d).mode? = s.mode?.map (shiftBoth d) := by
  unfold mode?
  rw [accept?_shift]
  refine bind_of_map fun ⟨_, s⟩ => ?_
  dsimp only [shiftBoth, Prod.map]
  have hmode : (((s.shift d).trimStart.accept? currentMode) <|> (s.shift d).trimStart.name?) =
      (s.trimStart.accept? currentMode <|> s.trimStart.name?).map (shiftBoth d) := by
    rw [trimStart_shift, accept?_shift, name?_shift]
    cases s.trimStart.accept? currentMode <;> rfl
  rw [hmode]
  refine bind_of_map fun ⟨mode, s⟩ => ?_
  dsimp only [shiftBoth, Prod.map]
  rw [trimStart_shift, accept?_shift]
  exact bind_of_map fun _ => rfl

theorem tokenValue?_shift : (s.shift d).tokenValue? = s.tokenValue?.map (TokenValue.shift d) := by
  unfold tokenValue?
  rw [literal?_shift]
  refine bind_of_map fun ⟨literal, s⟩ => ?_
  dsimp only [shiftBoth, Prod.map]
  rw [optional_shift d _ fun s => accept?_shift d s "!"]
  generalize s.optional _ = found
  obtain ⟨bang?, s⟩ := found
  dsimp only [shiftBoth, Prod.map]
  rw [trimStart_shift, optional_shift d _ (mode?_shift d)]
  generalize s.trimStart.optional _ = found
  obtain ⟨mode?, s⟩ := found
  dsimp only [shiftBoth, Prod.map]
  rw [terminator?_shift]
  cases s.terminator? <;> rfl

theorem markedFunction?_shift :
    (s.shift d).markedFunction? = s.markedFunction?.map (shiftBoth d) := by
  unfold markedFunction?
  rw [accept?_shift]
  exact bind_of_map fun ⟨_, s⟩ => name?_shift d s

theorem blockName?_shift :
    (s.shift d).blockName? = s.blockName?.map (Prod.map (shift d) (Option.map (shift d))) := by
  unfold blockName?
  rw [accept?_shift]
  refine bind_of_map fun ⟨_, s⟩ => ?_
  dsimp only [shiftBoth, Prod.map]
  rw [name?_shift]
  refine bind_of_map fun ⟨walker, s⟩ => ?_
  dsimp only [shiftBoth, Prod.map]
  have hfunction := optional_shift d s (markedFunction?_shift d)
  unfold markedFunction? at hfunction
  simp only [hfunction, Prod.map, isEmpty_shift]
  generalize s.optional _ = found
  cases found.2.isEmpty <;> rfl

end Slice

namespace Shape

variable (d : Nat) (s : Slice)

theorem tail?_shift : tail? (s.shift d) = (tail? s).map (Slice.shift d) := by
  unfold tail?
  rw [Slice.trim_shift, Slice.chars_shift]
  split <;> rfl

theorem comment?_shift : comment? (s.shift d) = (comment? s).map (shift d) := by
  unfold comment?
  rw [Slice.accept?_shift]
  refine Slice.bind_of_map fun ⟨_, rest⟩ => ?_
  dsimp only [Slice.shiftBoth, Prod.map]
  rw [Slice.chars_shift]
  split <;> rfl

theorem pragma?_shift : pragma? (s.shift d) = (pragma? s).map (shift d) := by
  unfold pragma?
  rw [Slice.accept?_shift]
  refine Slice.bind_of_map fun ⟨_, rest⟩ => ?_
  dsimp only [Slice.shiftBoth, Prod.map]
  rw [Slice.name?_shift]
  refine Slice.bind_of_map fun ⟨name, rest⟩ => ?_
  dsimp only [Slice.shiftBoth, Prod.map]
  rw [tail?_shift]
  refine Slice.bind_of_map fun params => ?_
  rw [Slice.chars_shift, Slice.split_shift]
  rfl

theorem token?_shift : token? (s.shift d) = (token? s).map (shift d) := by
  unfold token?
  rw [Slice.spelled?_shift]
  refine Slice.bind_of_map fun ⟨name, s⟩ => ?_
  dsimp only [Slice.shiftBoth, Prod.map]
  rw [Slice.trimStart_shift, Slice.accept?_shift]
  refine Slice.bind_of_map fun ⟨operator, s⟩ => ?_
  dsimp only [Slice.shiftBoth, Prod.map]
  rw [tail?_shift]
  exact Slice.bind_of_map fun _ => rfl

theorem rule?_shift : rule? (s.shift d) = (rule? s).map (shift d) := by
  unfold rule?
  rw [Slice.spelled?_shift]
  refine Slice.bind_of_map fun ⟨name, s⟩ => ?_
  dsimp only [Slice.shiftBoth, Prod.map]
  rw [Slice.optional_shift d _ (Slice.parenthesised?_shift d)]
  generalize s.optional _ = found
  obtain ⟨alias?, s⟩ := found
  dsimp only [Slice.shiftBoth, Prod.map]
  rw [Slice.trimStart_shift, Slice.accept?_shift]
  refine Slice.bind_of_map fun ⟨operator, s⟩ => ?_
  dsimp only [Slice.shiftBoth, Prod.map]
  rw [tail?_shift]
  exact Slice.bind_of_map fun _ => rfl

theorem of?_shift : of? (s.shift d) = (of? s).map (shift d) := by
  unfold of?
  rw [comment?_shift, pragma?_shift, token?_shift, rule?_shift]
  cases comment? s with
  | some shape => rfl
  | none =>
    cases pragma? s with
    | some shape => rfl
    | none => cases token? s <;> rfl

end Shape

end LineGrammar
