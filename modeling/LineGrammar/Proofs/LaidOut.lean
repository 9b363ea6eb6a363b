import LineGrammar.Layout
import LineGrammar.Proofs.Content

/-! Lines that are a layout of some slots. In such lines a token definition may be padded to any
width, so they can be taken apart slot by slot; the standard layout is one of them. -/

namespace LineGrammar

/-- The lines hold the slots in order, a node in as many lines as it takes. -/
inductive LaidOut (ind : Indentation) : List (Option Node) → List String → Prop
  | nil : LaidOut ind [] []
  | empty {slots : List (Option Node)} {lines : List String} (h : LaidOut ind slots lines) :
    LaidOut ind (none :: slots) ("" :: lines)
  | token {slots : List (Option Node)} {lines : List String} (t : TokenDef) (width : Nat)
    (h : LaidOut ind slots lines) :
    LaidOut ind (some (.token t) :: slots) (t.render width :: lines)
  | node {slots : List (Option Node)} {lines : List String} (n : Node)
    (hn : ∀ t, n ≠ .token t) (h : LaidOut ind (slots.drop (n.lineSpan - 1)) lines) :
    LaidOut ind (some n :: slots) (n.render ind ++ lines)

theorem LaidOut.of_empty {ind : Indentation} {slots : List (Option Node)} {lines : List String}
    (h : LaidOut ind (none :: slots) lines) :
    ∃ rest, lines = "" :: rest ∧ LaidOut ind slots rest := by
  cases h with
  | empty h => exact ⟨_, rfl, h⟩

theorem LaidOut.of_node {ind : Indentation} {n : Node} (hn : ∀ t, n ≠ .token t)
    {slots : List (Option Node)} {lines : List String} (h : LaidOut ind (some n :: slots) lines) :
    ∃ rest, lines = n.render ind ++ rest ∧ LaidOut ind (slots.drop (n.lineSpan - 1)) rest := by
  cases h with
  | token t width h => exact absurd rfl (hn t)
  | node n hn h => exact ⟨_, rfl, h⟩

/-- The text is a line on which the node can stand, apart from the lines of a block. -/
def Node.Written (n : Node) (s : String) : Prop :=
  match n with
  | .comment text => s = text.text
  | .pragma p => s = p.headLine
  | .token t => ∃ width, s = t.render width
  | .rule r => s = r.render
  | .blockName n => s = n.render
  | .block _ => False

/-- A node without a block takes one line. -/
theorem LaidOut.of_line {ind : Indentation} {n : Node} (hn : n.codeBlock? = none)
    {slots : List (Option Node)} {lines : List String} (h : LaidOut ind (some n :: slots) lines) :
    ∃ s rest, lines = s :: rest ∧ n.Written s ∧ LaidOut ind slots rest := by
  cases h with
  | token t width h => exact ⟨_, _, rfl, ⟨width, rfl⟩, h⟩
  | node n htoken h =>
    cases n with
    | token t => exact absurd rfl (htoken t)
    | block b => cases hn
    | pragma p =>
      have hp : p.block? = none := hn
      rw [Node.lineSpan, Pragma.lineSpan, hp] at h
      refine ⟨_, _, ?_, rfl, h⟩
      rw [Node.render, Pragma.render_eq, hp]
      rfl
    | _ => exact ⟨_, _, rfl, rfl, h⟩

/-- A run of token definitions, all padded to the same width. -/
theorem LaidOut.tokens {ind : Indentation} (width : Nat) (ts : List TokenDef)
    {slots : List (Option Node)} {lines : List String} (h : LaidOut ind slots lines) :
    LaidOut ind (ts.map (fun t => some (.token t)) ++ slots)
      (ts.map (TokenDef.render width) ++ lines) := by
  induction ts with
  | nil => exact h
  | cons t ts ih => exact .token t width ih

theorem leadingTokens_append (slots : List (Option Node)) :
    slots = (leadingTokens slots).map (fun t => some (.token t)) ++
      slots.drop (leadingTokens slots).length := by
  induction slots with
  | nil => rfl
  | cons slot slots ih =>
    match slot with
    | some (.token t) => simpa [leadingTokens] using ih
    | some (.comment _) | some (.pragma _) | some (.rule _) | some (.block _)
    | some (.blockName _) | none => rfl

theorem layoutSlots_node {ind : Indentation} {n : Node} (hn : ∀ t, n ≠ .token t)
    (slots : List (Option Node)) :
    layoutSlots ind (some n :: slots) =
      n.render ind ++ layoutSlots ind (slots.drop (n.lineSpan - 1)) := by
  cases n with
  | token t => exact absurd rfl (hn t)
  | _ => rw [layoutSlots]; simp

theorem layoutSlots_token {ind : Indentation} (t : TokenDef) (slots : List (Option Node)) :
    layoutSlots ind (some (.token t) :: slots) =
      (t :: leadingTokens slots).map (TokenDef.render (nameWidth (t :: leadingTokens slots))) ++
        layoutSlots ind (slots.drop (leadingTokens slots).length) := by
  rw [layoutSlots]; simp

/-- The standard layout is a layout. -/
theorem laidOut_layoutSlots (ind : Indentation) (slots : List (Option Node)) :
    LaidOut ind slots (layoutSlots ind slots) := by
  induction slots using layoutSlots.induct with
  | case1 => rw [layoutSlots]; exact .nil
  | case2 rest ih => rw [layoutSlots]; exact .empty ih
  | case3 t rest run ih =>
    have h := LaidOut.tokens (nameWidth run) run ih
    rw [layoutSlots_token]
    rw [show run.length - 1 = (leadingTokens rest).length by simp [run],
      show run.map (fun t => some (Node.token t)) = some (.token t) ::
        (leadingTokens rest).map fun t => some (Node.token t) from rfl,
      List.cons_append, ← leadingTokens_append] at h
    exact h
  | case4 n rest hn ih =>
    rw [layoutSlots_node hn]
    exact .node n hn ih

theorem leadingTokens_content (slots : List (Option Node)) :
    leadingTokens (slots.map (Option.map Node.content)) =
      (leadingTokens slots).map TokenDef.content := by
  induction slots with
  | nil => rfl
  | cons slot slots ih =>
    match slot with
    | some (.token t) => simpa [leadingTokens, Node.content] using ih
    | some (.comment _) | some (.pragma _) | some (.rule _) | some (.block _)
    | some (.blockName _) | none => rfl

theorem nameWidth_content (ts : List TokenDef) :
    nameWidth (ts.map TokenDef.content) = nameWidth ts := by
  rw [nameWidth, nameWidth, List.map_map]; rfl

theorem content_ne_token {n : Node} (h : ∀ t, n ≠ .token t) : ∀ t, n.content ≠ .token t := by
  intro t ht
  cases n with
  | token t => exact h t rfl
  | _ => cases ht

theorem layoutSlots_content (ind : Indentation) (slots : List (Option Node)) :
    layoutSlots ind (slots.map (Option.map Node.content)) = layoutSlots ind slots := by
  induction slots using layoutSlots.induct with
  | case1 => rfl
  | case2 rest ih => rw [List.map_cons, Option.map_none, layoutSlots, layoutSlots, ih]
  | case3 t rest run ih =>
    have hrun : t.content :: leadingTokens (rest.map (Option.map Node.content)) =
        run.map TokenDef.content := by
      rw [leadingTokens_content]; rfl
    have hlength : run.length - 1 = (leadingTokens rest).length := by simp [run]
    rw [List.map_cons, Option.map_some, Node.content, layoutSlots_token, layoutSlots_token, hrun,
      nameWidth_content, List.map_map, leadingTokens_content, List.length_map, ← List.map_drop,
      ← hlength, ih]
    congr 1
    apply List.map_congr_left
    intro u _
    exact u.render_content _
  | case4 n rest hn ih =>
    rw [List.map_cons, Option.map_some, layoutSlots_node (content_ne_token hn),
      layoutSlots_node hn, Node.render_content, Node.lineSpan_content, ← List.map_drop, ih]

end LineGrammar
