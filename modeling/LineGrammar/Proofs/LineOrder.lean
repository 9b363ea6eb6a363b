import LineGrammar.Proofs.Relocation
import LineGrammar.Proofs.Shares
import Mathlib.Data.List.FinRange

/-! The order of declarative lines does not matter. A line that is moved says the same at its new place, and
what the lines say together, with the uses that none of them defines, is the same up to order. -/

namespace LineGrammar

namespace Share

def recast (ρ : Recast) (s : Share) : Share :=
  ⟨s.problems.map (Diagnostic.recast ρ), s.uses.map (Pending.recast ρ), s.symbols⟩

theorem total_recast (ρ : Recast) (shares : List Share) :
    total (shares.map (recast ρ)) = (total shares).recast ρ := by
  simp [total, recast, List.flatMap_map, List.map_flatMap]

theorem diagnostics_recast (ρ : Recast) (s : Share) :
    (s.recast ρ).diagnostics = s.diagnostics.map (Diagnostic.recast ρ) := by
  simp only [diagnostics, undefined, recast, List.filter_map, List.map_append, List.map_map]
  rfl

/-- The same up to order. -/
structure Perm (s t : Share) : Prop where
  problems : s.problems.Perm t.problems
  uses : s.uses.Perm t.uses
  symbols : s.symbols.Perm t.symbols

theorem perm_total {shares shares' : List Share} (h : shares.Perm shares') :
    (total shares).Perm (total shares') :=
  ⟨h.flatMap_right _, h.flatMap_right _, h.flatMap_right _⟩

theorem Perm.diagnostics {s t : Share} (h : s.Perm t) : s.diagnostics.Perm t.diagnostics := by
  have hundefined : s.undefined.Perm t.undefined := by
    simp only [undefined, h.symbols.mem_iff]
    exact h.uses.filter _
  exact h.problems.append (hundefined.map _)

end Share

theorem Line.share_moved {m : Relocation} {l l' : Line} {d : Nat} (h : m.Takes l l' d) :
    l'.share = l.share.recast m.recast := by
  rw [share, share, h.body, Shape.of?_shift]
  cases Shape.of? l.body with
  | none => rfl
  | some shape =>
    have hread := Node.read_moved h {} shape
    change Node.read l' {} (shape.shift d) = _ at hread
    simp only [Option.map_some, hread, Reading.share, Share.recast, Reading.recast,
      ← Node.obligations_recast, Node.symbols_recast, List.map_nil]

/-- The lines with the one at `i` moved to `σ i`. -/
def reordered (lines : List String) (σ : Equiv.Perm (Fin lines.length)) : List String :=
  List.ofFn fun i => lines[σ.symm i]

/-- Each line goes to its new number, and the columns stay. -/
def Relocation.reorder {n : Nat} (σ : Equiv.Perm (Fin n)) : Relocation where
  place p := ⟨if h : p.line < n then σ ⟨p.line, h⟩ else p.line, p.column⟩
  body _ body := body
  body_nil _ := rfl

theorem Relocation.takes_reorder {n : Nat} (σ : Equiv.Perm (Fin n)) (i : Fin n) (raw : String) :
    (reorder σ).Takes { number := i, raw } { number := σ i, raw } 0 where
  body := rfl
  place column := by simp [reorder]

theorem mapIdx_ofFn {α β : Type} {n : Nat} (f : Nat → α → β) (g : Fin n → α) :
    (List.ofFn g).mapIdx f = List.ofFn fun i : Fin n => f i (g i) :=
  List.ext_getElem (by simp) (by simp)

theorem documentShare_reordered (lines : List String) (σ : Equiv.Perm (Fin lines.length)) :
    (documentShare (reordered lines σ)).Perm
      ((documentShare lines).recast (Relocation.reorder σ).recast) := by
  rw [documentShare, documentShare, ← Share.total_recast]
  apply Share.perm_total
  have hmoved : ∀ i : Fin lines.length, Line.share { number := σ i, raw := lines[i] } =
      (Line.share { number := i, raw := lines[i] }).recast (Relocation.reorder σ).recast :=
    fun i => Line.share_moved (Relocation.takes_reorder σ i lines[i])
  -- the line that is now at `i` came from `σ.symm i`
  have hback : (fun i : Fin lines.length => Line.share { number := i, raw := lines[σ.symm i] }) =
      (fun i : Fin lines.length => Line.share { number := σ i, raw := lines[i] }) ∘ σ.symm := by
    funext i
    simp
  have hlines : lines.mapIdx (fun number raw => Line.share { number, raw }) =
      List.ofFn fun i : Fin lines.length => Line.share { number := i, raw := lines[i] } := by
    rw [← mapIdx_ofFn (fun number raw => Line.share { number, raw }) fun i : Fin lines.length => lines[i]]
    simp
  rw [reordered, mapIdx_ofFn, hback, hlines, List.map_ofFn]
  simp only [Function.comp_def, ← hmoved]
  exact Equiv.Perm.ofFn_comp_perm σ.symm fun i => Line.share { number := σ i, raw := lines[i] }

theorem declarative_reordered {lines : List String}
    (h : ∀ raw ∈ lines, isDeclarativeLine raw = true) (σ : Equiv.Perm (Fin lines.length)) :
    ∀ raw ∈ reordered lines σ, isDeclarativeLine raw = true := by
  intro raw hraw
  obtain ⟨i, rfl⟩ := List.mem_ofFn.1 hraw
  exact h _ (List.getElem_mem _)

/-- The order of declarative lines does not matter. In any other order the analysis is aborted for the same
limits. If it is not, each diagnostic is reported with its lines moved and nothing else changed, as often as
before, and every symbol has as many definitions. -/
theorem line_order_irrelevant (limit : Nat) (lines : List String)
    (h : ∀ raw ∈ lines, isDeclarativeLine raw = true) (σ : Equiv.Perm (Fin lines.length)) :
    let d := analyzeLines limit lines
    let d' := analyzeLines limit (reordered lines σ)
    d'.aborted = d.aborted ∧
      (d.aborted = false →
        d'.diagnostics.Perm (d.diagnostics.map (Diagnostic.recast (Relocation.reorder σ).recast)) ∧
          ∀ symbol, (d'.index.definitionsOf symbol).length = (d.index.definitionsOf symbol).length) := by
  intro d d'
  have h' := declarative_reordered h σ
  have hshare := documentShare_reordered lines σ
  have haborted : d'.aborted = d.aborted := by
    have herrors : errorCount (documentShare (reordered lines σ)).problems =
        errorCount (documentShare lines).problems :=
      (hshare.problems.countP_eq _).trans (errorCount_recast _ _)
    rw [aborted_of_declarative h', aborted_of_declarative h, herrors]
  refine ⟨haborted, fun hrunning => ?_⟩
  have hrunning' : d'.aborted = false := haborted.trans hrunning
  constructor
  · rw [diagnostics_of_declarative h' hrunning', diagnostics_of_declarative h hrunning,
      ← Share.diagnostics_recast]
    exact hshare.diagnostics
  · intro symbol
    rw [length_definitionsOf_of_declarative h' hrunning', length_definitionsOf_of_declarative h hrunning]
    exact hshare.symbols.count_eq symbol

/-- A rule that comes after its token instead of before it, with a second anchor, and a start rule that
nothing defines. -/
theorem line_order_irrelevant_reversed :
    let lines := ["%start s;", "r := ^A ^A;", "A := \"a\";"]
    let σ : Equiv.Perm (Fin 3) := Fin.revPerm
    let d := analyzeLines 25 lines
    let d' := analyzeLines 25 (reordered lines σ)
    (∀ raw ∈ lines, isDeclarativeLine raw = true) ∧
      reordered lines σ = ["A := \"a\";", "r := ^A ^A;", "%start s;"] ∧
      d.diagnostics.map Diagnostic.code = ["E0306", "W0301"] ∧
      d.aborted = false ∧ d'.aborted = false ∧
      d'.diagnostics.Perm (d.diagnostics.map (Diagnostic.recast (Relocation.reorder σ).recast)) ∧
      ∀ symbol, (d'.index.definitionsOf symbol).length = (d.index.definitionsOf symbol).length :=
  have hlines : ∀ raw ∈ ["%start s;", "r := ^A ^A;", "A := \"a\";"], isDeclarativeLine raw = true := by
    decide +kernel
  have hrunning : (analyzeLines 25 ["%start s;", "r := ^A ^A;", "A := \"a\";"]).aborted = false := by
    decide +kernel
  have horder := line_order_irrelevant 25 ["%start s;", "r := ^A ^A;", "A := \"a\";"] hlines Fin.revPerm
  ⟨hlines, by decide +kernel, by decide +kernel, hrunning, horder.1.trans hrunning,
    (horder.2 hrunning).1, (horder.2 hrunning).2⟩

end LineGrammar
