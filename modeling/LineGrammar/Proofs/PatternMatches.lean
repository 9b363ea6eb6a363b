import LineGrammar.Pattern
import LineGrammar.Proofs.Rows

/-! Where patterns match. A finder is asked for a match at or after an offset of a text, and what it gives
lies there, with its groups inside. The finder of a pattern that recognises front parts keeps to this, and
it gives the first match there is. -/

namespace LineGrammar

/-- The match lies between an offset and the end of a text, and its groups lie within it. -/
structure Match.LiesIn (m : Match Groups) (pos size : Nat) : Prop where
  after : pos ≤ m.start
  ordered : m.start ≤ m.stop
  within : m.stop ≤ size
  groups : ∀ e, some e ∈ m.captured → m.start ≤ e.start ∧ e.start ≤ e.stop ∧ e.stop ≤ m.stop

/-- What the finder gives for the text lies at or after the offset it was asked for. -/
def Finder.KeepsTo (find? : Finder) (text : List Char) : Prop :=
  ∀ pos m, pos ≤ text.length → find? text pos = some m → m.LiesIn pos text.length

namespace Pattern

/-- The pattern recognises a front part, and its groups stand in it. -/
def Fronts (p : Pattern) : Prop :=
  ∀ {s rest : Slice} {groups : List (Option Slice)}, p s = some (groups, rest) →
    rest.Ends s ∧ ∀ g, some g ∈ groups → s.column ≤ g.column ∧ g.stop ≤ rest.column

section
variable {p : Pattern} {text : List Char} {pos : Nat} {m : Match Groups}

/-- A finder gives the leftmost place at which its pattern matches. -/
theorem finder_eq_some (h : p.finder text pos = some m) :
    pos ≤ m.start ∧ m.start ≤ text.length ∧
    (∃ groups rest, p ⟨m.start, text.drop m.start⟩ = some (groups, rest) ∧ m.stop = rest.column ∧
      m.captured = groups.map fun group => group.map fun s => ⟨s.column, s.stop⟩) ∧
    ∀ start, pos ≤ start → start < m.start → p ⟨start, text.drop start⟩ = none := by
  obtain ⟨before, start, after, hrange, hmatch, hnone⟩ := List.findSome?_eq_some_iff.1 h
  obtain ⟨⟨groups, rest⟩, hp, rfl⟩ := Option.map_eq_some_iff.1 hmatch
  obtain ⟨k, hk, hbefore, hafter⟩ := List.range'_eq_append_iff.1 hrange
  obtain ⟨hstart, hlength, -⟩ := List.range'_eq_cons_iff.1 hafter.symm
  refine ⟨by dsimp only; omega, by dsimp only; omega, ⟨groups, rest, hp, rfl, rfl⟩, ?_⟩
  intro i hpos hlt
  have hmem : i ∈ before := by
    rw [hbefore, List.mem_range'_1]
    exact ⟨hpos, by dsimp only at hlt; omega⟩
  exact Option.map_eq_none_iff.1 (hnone i hmem)

theorem keepsTo_finder (hp : p.Fronts) (text : List Char) : p.finder.KeepsTo text := by
  intro pos m _ h
  obtain ⟨hpos, hlength, ⟨groups, rest, hmatch, hstop, hcaptured⟩, -⟩ := finder_eq_some h
  obtain ⟨hends, hgroups⟩ := hp hmatch
  have hle := hends.column_le
  have hend := hends.stop
  simp only [Slice.stop, List.length_drop] at hle hend
  refine ⟨hpos, by omega, by omega, fun e he => ?_⟩
  rw [hcaptured] at he
  obtain ⟨group, hgroup, hmap⟩ := List.mem_map.1 he
  obtain ⟨g, rfl, rfl⟩ := Option.map_eq_some_iff.1 hmap
  obtain ⟨hfirst, hlast⟩ := hgroups g hgroup
  exact ⟨hfirst, Nat.le_add_right _ _, hstop ▸ hlast⟩

end

theorem fronts_item : item.Fronts := by
  intro s rest groups h
  obtain ⟨⟨name, s₁⟩, hname, h⟩ := Option.bind_eq_some_iff.1 h
  cases h
  obtain ⟨hcut, -⟩ := Slice.spelled?_eq_some hname
  have hbefore := Slice.column_le_trimStart s
  have hafter := Slice.column_le_trimStart s₁
  refine ⟨(Slice.ends_trimStart s₁).trans (hcut.ends.trans (Slice.ends_trimStart s)), fun g hg => ?_⟩
  obtain rfl : g = name := by simpa using hg
  have hcolumn := hcut.column
  have hstop : g.stop = s₁.column := by rw [hcut.next, ← hcolumn]; rfl
  omega

end Pattern

end LineGrammar
