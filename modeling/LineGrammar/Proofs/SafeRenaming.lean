import LineGrammar.Proofs.RenamedRuns
import LineGrammar.Proofs.TextEdits

/-! Renaming a symbol by the edits that are offered for it. The edited text is the document with its names
written anew, so if nothing was wrong with it nothing is wrong with it then, and every other symbol has the
definitions that it had. -/

namespace LineGrammar

namespace Renaming

variable {ρ : Renaming}

theorem sends_obligationsFrom {nodes nodes' : List Node} (h : List.Forall₂ ρ.SendsNode nodes nodes')
    {above above' : List Definition} (habove : ρ.SendsDefinitions above above') :
    ρ.SendsUses (obligationsFrom above nodes) (obligationsFrom above' nodes') := by
  induction h generalizing above above' with
  | nil => exact .nil
  | cons hn hrest ih =>
    exact List.rel_append (hn.obligations habove) (ih (List.rel_append habove hn.definitions))

/-- If all uses are of what is defined, so are those that follow them. -/
theorem SendsIndex.all_defined {ix ix' : Index} (h : ρ.SendsIndex ix ix') (hρ : ρ.Valid)
    {uses uses' : List Pending} (huses : ρ.SendsUses uses uses')
    (hall : ∀ use ∈ uses, ix.isDefined use.symbol = true) :
    ∀ use ∈ uses', ix'.isDefined use.symbol = true := by
  induction huses with
  | nil => simp
  | cons huse hrest ih =>
    rw [List.forall_mem_cons] at hall ⊢
    exact ⟨h.isDefined_of_isDefined hρ huse hall.1, ih hall.2⟩

theorem SendsAnalysis.clean {a b : Analysis} (h : ρ.SendsAnalysis a b) (hρ : ρ.Valid) (ha : Accounted a)
    (hb : Accounted b) (hclean : a.Clean) (hrunning : b.aborted = false) : b.Clean where
  diagnostics := h.reader.clean
  closed := eq_none_of_rel h.reader.block hclean.closed
  complete := h.reader.expectsBlock.trans hclean.complete
  resolved := by
    have hresolved := hclean.resolved
    rw [ha.unresolved_eq, List.filter_eq_nil_iff] at hresolved
    rw [hb.unresolved_eq, List.filter_eq_nil_iff]
    have hall := (h.index ha hb).all_defined hρ (sends_obligationsFrom h.nodes .nil)
      fun use huse => by simpa using hresolved use huse
    exact fun use huse => by simpa using hall use huse
  running := hrunning

end Renaming

/-- The names that are written in the document, with what they stand for. -/
def Document.references (d : Document) : List (Lexeme × Symbol) := d.nodeList.flatMap Node.references

section
variable {limit : Nat} {lines : List String}

open Analysis

/-- No two names of a symbol are written at one place. -/
theorem nodup_spans (s : Symbol) :
    ((analyzeLines limit lines).nodeList.flatMap fun n => (n.occurrences s).map Lexeme.span).Nodup := by
  have hwritten : ∀ {line : Nat} {n : Node} {span : Span},
      (analyzeLines limit lines).nodeAt? line = some n → span ∈ (n.occurrences s).map Lexeme.span →
        span.start.line = line := by
    intro line n span hn hspan
    obtain ⟨l, hl, rfl⟩ := List.mem_map.1 hspan
    obtain ⟨ref, href, rfl⟩ := List.mem_map.1 hl
    obtain ⟨raw, -, -, hword⟩ := standsOn_name hn (Node.mem_words (List.mem_filter.1 href).1)
    exact hword.holds.number_eq
  rw [Document.nodeList_eq, List.Nodup, List.pairwise_flatMap]
  constructor
  · intro n hn
    obtain ⟨line, -, hn⟩ := List.mem_filterMap.1 hn
    obtain ⟨raw, -, hstands | ⟨b, rfl, -⟩⟩ := (originAt_analyzeLines hn).standsOn
    · have horder := hstands.order
      rw [Node.words_bare] at horder
      have hsublist : (n.occurrences s).Sublist n.words :=
        (List.filter_sublist.map Prod.fst).trans n.references_sublist
      rw [List.pairwise_map]
      refine (horder.sublist hsublist).imp fun {l l'} hlt heq => ?_
      exact absurd (congrArg (fun span : Span => span.start.column) heq) (Nat.ne_of_lt hlt)
    · exact List.nodup_nil
  · rw [List.pairwise_filterMap]
    refine List.pairwise_lt_range.imp fun hlt n hn n' hn' span hspan span' hspan' heq => ?_
    subst heq
    exact absurd ((hwritten hn hspan).symm.trans (hwritten hn' hspan')) (Nat.ne_of_lt hlt)

theorem length_occurrences (s : Symbol) :
    ((analyzeLines limit lines).occurrences s).length =
      ((analyzeLines limit lines).references.filter fun ref => ref.2 = s).length := by
  have hsorted : (Span.sort ((analyzeLines limit lines).nodeList.flatMap fun n =>
      (n.occurrences s).map Lexeme.span)).Nodup :=
    (List.mergeSort_perm _ _).nodup_iff.2 (nodup_spans s)
  rw [Document.occurrences, Span.dropRepeats_of_nodup hsorted, Span.sort, List.length_mergeSort,
    Document.references]
  simp [Node.occurrences, List.length_flatMap, List.filter_flatMap, Function.comp_def]

end

theorem Analysis.referencesOn_eq (a : Analysis) (line : Nat) :
    a.referencesOn line = (a.document.nodeAt? line).toList.flatMap Node.references := by
  rw [referencesOn, Array.getElem?_toList]
  rfl

namespace Renaming

variable {ρ : Renaming}

section
variable {kind : SymbolKind} (hρ : ρ.Valid) (hkind : ρ.subject = .named kind) (hne : ρ.old ≠ ρ.new)
include hρ hkind

theorem Valid.isSimple : kind.isSimple = true := by
  have hsubject := hρ.subject
  rwa [hkind] at hsubject

omit hρ in
theorem kind_source : ρ.source.kind = kind := by rw [source, hkind]; rfl

include hne

/-- Nothing becomes the symbol that is renamed. -/
theorem Sends.ne_source {s t : Symbol} (h : ρ.Sends s t) : t ≠ ρ.source := by
  rintro heq
  have hsimple : t.kind.isSimple = true := by rw [heq, kind_source hkind]; exact hρ.isSimple hkind
  cases h with
  | @name kind' _ x y hxy =>
    rw [source, hkind] at heq
    cases heq
    have heq := hxy.eq
    simp only [apply, hkind, true_and] at heq
    split at heq
    · exact hne heq
    · next hx => exact hx heq.symm
  | _ => cases hsimple

end

section
variable {a b : Analysis} (h : ρ.SendsAnalysis a b)
include h

theorem SendsAnalysis.references : ρ.SendsReferences a.document.references b.document.references :=
  List.rel_flatMap (R := ρ.SendsNode) h.nodes fun _ _ hn => hn.references

theorem SendsAnalysis.count_references {s t : Symbol} (hs : ρ.Sends s t) (hblock : s.kind ≠ .codeBlock) :
    (b.document.references.filter fun ref => ref.2 = t).length =
      (a.document.references.filter fun ref => ref.2 = s).length := by
  have hfilter := List.rel_filter (p := fun ref : Lexeme × Symbol => ref.2 = s)
    (q := fun ref : Lexeme × Symbol => ref.2 = t)
    (fun ref ref' href => by simpa using Sends.inj href hs hblock) h.references
  exact hfilter.length_eq.symm

theorem SendsAnalysis.no_source {kind : SymbolKind} (hρ : ρ.Valid) (hkind : ρ.subject = .named kind)
    (hne : ρ.old ≠ ρ.new) :
    (b.document.references.filter fun ref => ref.2 = ρ.source).length = 0 := by
  have hfilter := List.rel_filter (p := fun _ : Lexeme × Symbol => false)
    (q := fun ref : Lexeme × Symbol => ref.2 = ρ.source)
    (fun ref ref' href => by simpa using Sends.ne_source hρ hkind hne href) h.references
  simpa using hfilter.length_eq.symm

end

end Renaming

section
variable {limit : Nat} {lines : List String} {s : Symbol} {old name : String}

/-- The edits that give a symbol a new name. -/
def Document.renamingOf (d : Document) (s : Symbol) (name : String) : List TextEdit :=
  (d.occurrences s).map fun span => { span, newText := name }

/-- Each edit replaces the name that is written there. -/
theorem renames_renamingOf (hwritten : s.IsWritten old) (hplain : IsPlain old) :
    ∀ e ∈ (analyzeLines limit lines).renamingOf s name,
      e.Renames old name (lines.map String.toList) := by
  intro e he
  obtain ⟨span, hspan, rfl⟩ := List.mem_map.1 he
  obtain ⟨n, hn, l, href, rfl⟩ := Document.mem_occurrences.1 hspan
  obtain ⟨line, hline⟩ := Document.mem_nodeList.1 hn
  obtain ⟨raw, hraw, -, t, ht, rfl⟩ := Analysis.standsOn_name hline (Node.mem_words href)
  have hname := hwritten.unique (Node.isWritten_reference href) hplain (Renaming.isPlain_of_word ht)
  have hchars : old.toList = t.chars := by rw [hname, Renaming.text_lexeme, String.toList_ofList]
  refine ⟨line, t.column, raw.toList, ?_, by rw [List.getElem?_map, hraw]; rfl, by rwa [hchars]⟩
  rw [hchars]
  rfl

/-- A line has an edit just where one of its names stands for the symbol. -/
theorem mem_columns_renamingOf {k i : Nat} :
    i ∈ (rewritingOn old name ((analyzeLines limit lines).renamingOf s name) k).columns ↔
      ∃ n, (analyzeLines limit lines).nodeAt? k = some n ∧
        ∃ ref ∈ n.references, ref.2 = s ∧ ref.1.start = i := by
  constructor
  · intro hi
    obtain ⟨e, he, rfl⟩ := List.mem_map.1 hi
    obtain ⟨he, hline⟩ := List.mem_filter.1 he
    obtain ⟨span, hspan, rfl⟩ := List.mem_map.1 he
    obtain ⟨n, hn, l, href, rfl⟩ := Document.mem_occurrences.1 hspan
    obtain ⟨line, hnode⟩ := Document.mem_nodeList.1 hn
    obtain ⟨raw, -, -, hword⟩ := Analysis.standsOn_name hnode (Node.mem_words href)
    obtain rfl : line = k := hword.holds.number_eq.symm.trans (of_decide_eq_true hline)
    exact ⟨n, hnode, _, href, rfl, rfl⟩
  · rintro ⟨n, hnode, ⟨l, s⟩, href, rfl, rfl⟩
    obtain ⟨raw, -, -, hword⟩ := Analysis.standsOn_name hnode (Node.mem_words href)
    have hspan := Document.mem_occurrences.2 ⟨n, Document.mem_nodeList.2 ⟨k, hnode⟩, l, href, rfl⟩
    refine List.mem_map.2 ⟨_, List.mem_filter.2 ⟨List.mem_map_of_mem hspan, ?_⟩, rfl⟩
    exact decide_eq_true hword.holds.number_eq

open Analysis in
/-- The lines of the edited text are the lines of the document, written anew at their references. -/
theorem lines_renamed {text : String} (hclean : (after (Text.lines text)).Clean) {ρ : Renaming}
    (hρ : ρ.Valid) :
    Text.lines (applyEdits text ((analyze limit text).renamingOf ρ.source ρ.new)) =
      ρ.lines (after (Text.lines text)) (Text.lines text) := by
  have hwritten : ρ.source.IsWritten ρ.old := Renaming.isWritten_symbol hρ.subject ρ.old
  have hsorted : ((analyze limit text).renamingOf ρ.source ρ.new).Pairwise fun e e' => e.span < e'.span :=
    List.pairwise_map.2 (Document.pairwise_occurrences _ _)
  rw [analyze] at hsorted ⊢
  have hcolumns : ∀ k i, i ∈ (rewritingOn ρ.old ρ.new
        ((analyzeLines limit (Text.lines text)).renamingOf ρ.source ρ.new) k).columns ↔
      i ∈ (ρ.rewriting ((after (Text.lines text)).referencesOn k)).columns := by
    intro k i
    rw [mem_columns_renamingOf, analyzeLines_of_clean hclean, referencesOn_eq]
    change (∃ n, (after (Text.lines text)).document.nodeAt? k = some n ∧ _) ↔ _
    cases (after (Text.lines text)).document.nodeAt? k with
    | none => simp [Renaming.rewriting]
    | some n => simp [Renaming.rewriting, and_assoc]
  have hplain : IsPlain ρ.old := isPlain_of_isNameText hρ.old
  rw [lines_applyEdits hρ.old hρ.new (renames_renamingOf hwritten hplain) hsorted, Renaming.lines]
  refine List.ext_getElem? fun k => ?_
  rw [List.getElem?_mapIdx, List.getElem?_mapIdx]
  refine congrArg (fun f => Option.map f _) (funext fun raw => congrArg String.ofList ?_)
  exact Rewriting.text_of_columns (hcolumns k) rfl rfl 0 raw.toList

end

/-- The name is spelled like those of the symbol's kind, and this kind can be renamed. -/
def Symbol.CanBeNamed (s : Symbol) (name : String) : Prop :=
  s.kind = .token ∧ isTokenName name = true ∨ (s.kind = .walker ∨ s.kind = .lexerMode) ∧ isName name = true

/-- The second document is the first one with `t` in the place of `s`, after so many edits. -/
structure Document.IsRenamed (d d' : Document) (s t : Symbol) (edits : Nat) : Prop where
  clean : d'.diagnostics = []
  gone : d'.occurrences s = []
  written : (d'.occurrences t).length = edits
  defined : (d'.index.definitionsOf t).length = (d.index.definitionsOf s).length
  others : ∀ x : Symbol, x.kind.isSimple = true → x ≠ s → x ≠ t →
    (d'.index.definitionsOf x).length = (d.index.definitionsOf x).length

namespace Renaming

variable {ρ : Renaming}

section
variable (hρ : ρ.Valid) {limit : Nat} {text : String} (hclean : (analyze limit text).diagnostics = [])
  (hadmits : ρ.AdmitsDocument (analyze limit text))
include hρ hclean hadmits

open Analysis in
/-- The analysis of the edited text follows that of the text, and nothing is wrong with it. -/
theorem Valid.sends_edited :
    (after (Text.lines text)).Clean ∧
      ∃ raws, Text.lines (applyEdits text ((analyze limit text).renamingOf ρ.source ρ.new)) = raws ∧
        (after raws).Clean ∧ ρ.SendsAnalysis (after (Text.lines text)) (after raws) := by
  have hrun : (after (Text.lines text)).Clean := clean_of_analyzeLines hclean
  rw [analyze, analyzeLines_of_clean hrun] at hadmits
  have hsends := sends_after hρ hrun hadmits
  refine ⟨hrun, _, @lines_renamed limit _ hrun _ hρ, ?_, hsends⟩
  exact hsends.clean hρ (accounted_after _) (accounted_after _) hrun (aborted_after _)

/-- The edited text has no diagnostics. -/
theorem Valid.clean_edited :
    (analyze limit (applyEdits text ((analyze limit text).renamingOf ρ.source ρ.new))).diagnostics = [] := by
  obtain ⟨-, raws, hlines, hrun, -⟩ := hρ.sends_edited hclean hadmits
  rw [analyze, hlines, analyzeLines_of_clean hrun]
  rfl

end

section
variable {kind : SymbolKind} (hρ : ρ.Valid) (hkind : ρ.subject = .named kind) (hne : ρ.old ≠ ρ.new)

include hρ hkind hne in
theorem Valid.sends_source : ρ.Sends ρ.source ρ.target := by
  rw [source, target, hkind]
  refine .name (hρ.isSimple hkind) ⟨?_, by simp [apply, hkind]⟩
  rw [target, hkind]
  exact fun h => hne (congrArg Symbol.name h)

/-- Every other symbol stays. -/
theorem sends_self {x : Symbol} (hkind : x.kind.isSimple = true) (hsource : x ≠ ρ.source)
    (htarget : x ≠ ρ.target) : ρ.Sends x x := by
  obtain ⟨kind, name⟩ := x
  have hstays : ρ.apply (.named kind) name = name := apply_eq_self hsource.symm
  exact .name hkind ⟨htarget, hstays.symm⟩

open Analysis in
include hρ hkind hne in
theorem Valid.isRenamed {limit : Nat} {text : String} (hclean : (analyze limit text).diagnostics = [])
    (hadmits : ρ.AdmitsDocument (analyze limit text)) :
    (analyze limit text).IsRenamed
      (analyze limit (applyEdits text ((analyze limit text).renamingOf ρ.source ρ.new)))
      ρ.source ρ.target ((analyze limit text).occurrences ρ.source).length := by
  obtain ⟨hrun, raws, hlines, hrun', hsends⟩ := hρ.sends_edited hclean hadmits
  rw [analyze] at hlines ⊢
  rw [analyze, hlines]
  generalize Text.lines text = lines at *
  have hix := hsends.index (accounted_after lines) (accounted_after raws)
  have hlength : ∀ s, ((analyzeLines limit raws).occurrences s).length =
      ((after raws).document.references.filter fun ref => ref.2 = s).length := by
    intro s
    rw [length_occurrences, analyzeLines_of_clean hrun']
    rfl
  have hblock : ∀ {s : Symbol}, s.kind.isSimple = true → s.kind ≠ .codeBlock := by
    intro s hsimple heq
    rw [heq] at hsimple
    cases hsimple
  have hcount : ∀ {s t : Symbol}, s.kind.isSimple = true → ρ.Sends s t →
      ((analyzeLines limit raws).index.definitionsOf t).length =
        ((analyzeLines limit lines).index.definitionsOf s).length := by
    intro s t hsimple hs
    rw [analyzeLines_of_clean hrun, analyzeLines_of_clean hrun']
    exact (hix.definitionsOf hs (hblock hsimple)).length_eq.symm
  have hsimple : ρ.source.kind.isSimple = true := by
    rw [kind_source hkind]
    exact hρ.isSimple hkind
  have hsource := hρ.sends_source hkind hne
  constructor
  case clean => rw [analyzeLines_of_clean hrun']; rfl
  case gone => exact List.length_eq_zero_iff.1 ((hlength _).trans (hsends.no_source hρ hkind hne))
  case written =>
    rw [hlength, hsends.count_references hsource (hblock hsimple), length_occurrences,
      analyzeLines_of_clean hrun]
    rfl
  case defined => exact hcount hsimple hsource
  case others => exact fun x hkind hsource htarget => hcount hkind (sends_self hkind hsource htarget)

end

end Renaming

/-- Making the edits that rename a token, a walker or a mode to a name of its kind that stands for nothing
yet keeps a document without diagnostics so, and renames the symbol everywhere. -/
theorem rename_safe (limit : Nat) (text : String) (p : Position) (l : Lexeme) (s : Symbol) (name : String)
    (hclean : (analyze limit text).diagnostics = [])
    (hfound : (analyze limit text).referenceAt? p = some (l, s)) (hname : s.CanBeNamed name)
    (hfresh : ∀ n ∈ (analyze limit text).nodeList, ∀ ref ∈ n.references, ref.2 ≠ ⟨s.kind, name⟩) :
    (analyze limit text).IsRenamed (analyze limit (applyEdits text ((analyze limit text).renameAt p name)))
      s ⟨s.kind, name⟩ ((analyze limit text).renameAt p name).length := by
  obtain ⟨kind, old⟩ := s
  obtain ⟨n, hn, href, -⟩ := exists_of_referenceAt? hfound
  obtain ⟨raw, -, -, t, ht, rfl⟩ := Analysis.standsOn_name hn (Node.mem_words href)
  have hkind : kind = .token ∨ kind = .walker ∨ kind = .lexerMode := hname.imp And.left And.left
  have hnew : isName name = true := hname.elim (fun h => isNameText_of_isTokenSpelled h.2) And.right
  have htoken : kind = .token → isTokenName name = true := by
    rintro rfl
    exact hname.elim And.right fun h => by simp at h
  have hold : isName old = true := by
    obtain ⟨-, hwritten⟩ := Node.isWritten_reference href
    rw [if_neg (by rcases hkind with rfl | rfl | rfl <;> simp)] at hwritten
    rw [show old = _ from hwritten, isName, Renaming.text_lexeme, String.toList_ofList]
    exact ht.text
  have hsimple : kind.isSimple = true := by rcases hkind with rfl | rfl | rfl <;> rfl
  have hnone : kind ≠ .rule := by rcases hkind with rfl | rfl | rfl <;> simp
  have hρ : Renaming.Valid ⟨.named kind, old, name, fun _ _ => True⟩ :=
    ⟨hsimple, hold, hnew, fun heq => htoken (Subject.named.inj heq),
      fun heq => absurd (Subject.named.inj heq) hnone,
      fun rule hrule => by cases (if_neg hnone).symm.trans hrule⟩
  have hne : old ≠ name := by
    rintro rfl
    exact hfresh n (Document.mem_nodeList.2 ⟨_, hn⟩) _ href rfl
  have hedits : (analyze limit text).renameAt p name = (analyze limit text).renamingOf ⟨kind, old⟩ name := by
    rw [Document.renameAt, Document.occurrencesAt, hfound]
    rfl
  rw [hedits, Document.renamingOf, List.length_map]
  refine hρ.isRenamed rfl hne hclean ⟨hfresh, fun _ _ => trivial, fun key _ heq => ?_⟩
  obtain rfl : kind = .function := congrArg Symbol.kind heq
  cases hsimple

/-- A token that is defined and then used. -/
theorem rename_safe_token :
    (analyze 25 "A := \"a\";\nr := A;").diagnostics = [] ∧
      (analyze 25 "A := \"a\";\nr := A;").referenceAt? ⟨1, 5⟩ =
        some (⟨"A", .onLine 1 5 6⟩, .token "A") ∧
      (analyze 25 "A := \"a\";\nr := A;").IsRenamed
        (analyze 25 (applyEdits "A := \"a\";\nr := A;"
          ((analyze 25 "A := \"a\";\nr := A;").renameAt ⟨1, 5⟩ "PLUS_2")))
        (.token "A") (.token "PLUS_2")
        ((analyze 25 "A := \"a\";\nr := A;").renameAt ⟨1, 5⟩ "PLUS_2").length :=
  have hclean : (analyze 25 "A := \"a\";\nr := A;").diagnostics = [] := by decide +kernel
  have hfound : (analyze 25 "A := \"a\";\nr := A;").referenceAt? ⟨1, 5⟩ =
      some (⟨"A", .onLine 1 5 6⟩, .token "A") := by decide +kernel
  ⟨hclean, hfound, rename_safe 25 _ ⟨1, 5⟩ _ _ "PLUS_2" hclean hfound (.inl ⟨rfl, by decide +kernel⟩)
    (by decide +kernel)⟩

end LineGrammar
