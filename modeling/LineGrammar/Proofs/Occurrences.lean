import LineGrammar.Proofs.Positions
import LineGrammar.Navigation
import Mathlib.Data.List.Pairwise

/-! What is found from a name: its definitions and its occurrences. A position belongs to at most one
name, an occurrence of a symbol is written as this name is, and from every occurrence the same is
found. -/

namespace LineGrammar

namespace Position

theorem lt_iff {p q : Position} : p < q ↔ p.line < q.line ∨ p.line = q.line ∧ p.column < q.column :=
  Iff.rfl

theorem le_iff {p q : Position} : p ≤ q ↔ p.line < q.line ∨ p.line = q.line ∧ p.column ≤ q.column :=
  Iff.rfl

theorem lt_trans {p q r : Position} (h : p < q) (h' : q < r) : p < r := by
  rw [lt_iff] at *
  omega

theorem lt_trichotomy (p q : Position) : p < q ∨ p = q ∨ q < p := by
  obtain ⟨line, column⟩ := p
  obtain ⟨line', column'⟩ := q
  simp only [lt_iff, Position.mk.injEq]
  omega

end Position

namespace Span

theorem lt_trans {s t u : Span} (h : s < t) (h' : t < u) : s < u := by
  obtain ⟨start, stop⟩ := s
  obtain ⟨start', stop'⟩ := t
  obtain ⟨start'', stop''⟩ := u
  rcases h with h | ⟨rfl, h⟩ <;> rcases h' with h' | ⟨rfl, h'⟩
  · exact .inl (Position.lt_trans h h')
  · exact .inl h
  · exact .inl h'
  · refine .inr ⟨rfl, ?_⟩
    cases stop <;> cases stop' <;> cases stop'' <;> try trivial
    exact Position.lt_trans h h'

theorem lt_trichotomy (s t : Span) : s < t ∨ s = t ∨ t < s := by
  obtain ⟨start, stop⟩ := s
  obtain ⟨start', stop'⟩ := t
  rcases Position.lt_trichotomy start start' with h | rfl | h
  · exact .inl (.inl h)
  · cases stop with
    | none =>
      cases stop' with
      | none => exact .inr (.inl rfl)
      | some stop' => exact .inl (.inr ⟨rfl, trivial⟩)
    | some stop =>
      cases stop' with
      | none => exact .inr (.inr (.inr ⟨rfl, trivial⟩))
      | some stop' =>
        rcases Position.lt_trichotomy stop stop' with h | rfl | h
        · exact .inl (.inr ⟨rfl, h⟩)
        · exact .inr (.inl rfl)
        · exact .inr (.inr (.inr ⟨rfl, h⟩))
  · exact .inr (.inr (.inl h))

theorem lt_of_lt_of_le {s t u : Span} (h : s < t) (h' : t ≤ u) : s < u := by
  rcases h' with h' | rfl
  · exact lt_trans h h'
  · exact h

theorem le_trans {s t u : Span} (h : s ≤ t) (h' : t ≤ u) : s ≤ u := by
  rcases h with h | rfl
  · exact .inl (lt_of_lt_of_le h h')
  · exact h'

theorem le_total (s t : Span) : s ≤ t ∨ t ≤ s := by
  rcases lt_trichotomy s t with h | rfl | h
  · exact .inl (.inl h)
  · exact .inl (.inr rfl)
  · exact .inr (.inl h)

theorem pairwise_sort (spans : List Span) : (sort spans).Pairwise (· ≤ ·) := by
  have hsorted : (sort spans).Pairwise fun s t => decide (s ≤ t) = true :=
    List.pairwise_mergeSort
      (fun s t u h h' => by simpa using le_trans (by simpa using h) (by simpa using h'))
      (fun s t => by simpa using le_total s t) spans
  simpa only [decide_eq_true_eq] using hsorted

theorem mem_dropRepeats {spans : List Span} {s : Span} : s ∈ dropRepeats spans ↔ s ∈ spans := by
  fun_induction dropRepeats spans with
  | case1 => exact Iff.rfl
  | case2 t => exact Iff.rfl
  | case3 t rest ih => rw [ih]; simp
  | case4 t u rest hne ih => rw [List.mem_cons, ih, List.mem_cons (a := s) (b := t)]

/-- In a sorted list each span is left once. -/
theorem pairwise_dropRepeats {spans : List Span} (h : spans.Pairwise (· ≤ ·)) :
    (dropRepeats spans).Pairwise (· < ·) := by
  fun_induction dropRepeats spans with
  | case1 => exact .nil
  | case2 t => exact List.pairwise_singleton _ _
  | case3 t rest ih => exact ih h.tail
  | case4 t u rest hne ih =>
    obtain ⟨hle, htail⟩ := List.pairwise_cons.1 h
    have hlt : t < u := (hle u List.mem_cons_self).resolve_right hne
    refine List.pairwise_cons.2 ⟨fun v hv => ?_, ih htail⟩
    rcases List.mem_cons.1 (mem_dropRepeats.1 hv) with rfl | hv
    · exact hlt
    · exact lt_of_lt_of_le hlt ((List.pairwise_cons.1 htail).1 v hv)

/-- Where no span is repeated, nothing is dropped. -/
theorem dropRepeats_of_nodup {spans : List Span} (h : spans.Nodup) : dropRepeats spans = spans := by
  fun_induction dropRepeats spans with
  | case1 => rfl
  | case2 t => rfl
  | case3 t rest ih => exact absurd List.mem_cons_self (List.nodup_cons.1 h).1
  | case4 t u rest hne ih => rw [ih (List.nodup_cons.1 h).2]

end Span

namespace Document

variable {d : Document}

theorem mem_occurrences {s : Symbol} {span : Span} :
    span ∈ d.occurrences s ↔ ∃ n ∈ d.nodeList, ∃ l, (l, s) ∈ n.references ∧ l.span = span := by
  rw [occurrences, Span.mem_dropRepeats, Span.sort, List.mem_mergeSort]
  simp [Node.occurrences]

theorem pairwise_occurrences (d : Document) (s : Symbol) : (d.occurrences s).Pairwise (· < ·) :=
  Span.pairwise_dropRepeats (Span.pairwise_sort _)

end Document

/-- The kinds of symbols that are written by name; the other two are made of such names. -/
def SymbolKind.isWritten : SymbolKind → Bool
  | rule | token | function | walker | lexerMode => true
  | walkerInterface | codeBlock => false

/-- How a symbol is written: by its own name, or by the last part of the key of a function. -/
def Symbol.IsWritten (s : Symbol) (text : String) : Prop :=
  s.kind.isWritten = true ∧
    if s.kind = .function then ∃ front, s.name = front ++ "::" ++ text else s.name = text

theorem Symbol.isWritten_ofElement? {name : String} {s : Symbol} (h : Symbol.ofElement? name = some s) :
    s.IsWritten name := by
  unfold ofElement? at h
  split at h
  · cases h; exact ⟨rfl, rfl⟩
  · split at h
    · cases h; exact ⟨rfl, rfl⟩
    · cases h

theorem Node.isWritten_reference {n : Node} {l : Lexeme} {s : Symbol} (h : (l, s) ∈ n.references) :
    s.IsWritten l.text := by
  cases n with
  | comment text => cases h
  | block b => cases h
  | pragma p =>
    obtain ⟨mark, name, parameters, keyword?, body, span⟩ := p
    cases body with
    | walkers walkers declared =>
      obtain ⟨walker, -, h⟩ := List.mem_map.1 h
      cases h; exact ⟨rfl, rfl⟩
    | associativity associativity tokens =>
      obtain ⟨token, -, h⟩ := List.mem_map.1 h
      cases h; exact ⟨rfl, rfl⟩
    | defaultWalker | members | walkerInterface | lexerMode | lexerInclude | start =>
      cases List.mem_singleton.1 h; exact ⟨rfl, rfl⟩
    | function decl =>
      rcases List.mem_append.1 h with h | h
      · rcases List.mem_cons.1 h with h | h
        · cases h; exact ⟨rfl, rfl⟩
        · obtain ⟨walker, -, h⟩ := List.mem_map.1 h
          cases h; exact ⟨rfl, rfl⟩
      · obtain ⟨key, hkey, h⟩ := List.mem_map.1 h
        cases h
        obtain ⟨walker, -, rfl⟩ := Option.map_eq_some_iff.1 (Option.mem_toList.1 hkey)
        exact ⟨rfl, _, rfl⟩
    | _ => cases h
  | token t =>
    rcases List.mem_cons.1 h with h | h
    · cases h; exact ⟨rfl, rfl⟩
    · obtain ⟨mode, -, h⟩ := List.mem_map.1 h
      cases h; exact ⟨rfl, rfl⟩
  | rule r =>
    rcases List.mem_cons.1 h with h | h
    · cases h; exact ⟨rfl, rfl⟩
    · obtain ⟨e, -, h⟩ := List.mem_filterMap.1 h
      obtain ⟨symbol, hsymbol, h⟩ := Option.map_eq_some_iff.1 h
      cases h; exact Symbol.isWritten_ofElement? hsymbol
  | blockName n =>
    rcases List.mem_append.1 h with h | h
    · obtain ⟨walker, -, h⟩ := List.mem_map.1 h
      cases h; exact ⟨rfl, rfl⟩
    · obtain ⟨⟨function, key⟩, hkey, h⟩ := List.mem_map.1 h
      cases h
      replace hkey : n.functionKey? = some (l, key) := Option.mem_toList.1 hkey
      unfold BlockName.functionKey? at hkey
      split at hkey
      · cases hkey; exact ⟨rfl, _, rfl⟩
      · cases hkey

/-- A node defines what it refers to, where it refers to it. -/
theorem Node.reference_of_definition {n : Node} {d : Definition} (h : d ∈ n.definitions)
    (hkind : d.symbol.kind.isWritten = true) : ∃ l, (l, d.symbol) ∈ n.references ∧ l.span = d.span := by
  have hblock : ∀ b : CodeBlock, d ∈ b.definitions → False := by
    intro b hb
    rw [CodeBlock.kind_of_definition hb] at hkind
    cases hkind
  cases n with
  | comment text => cases h
  | blockName n => cases h
  | block b => exact (hblock b h).elim
  | token t =>
    obtain ⟨literal, -, -, rfl⟩ := TokenDef.mem_definitions.1 h
    exact ⟨t.name, List.mem_cons_self, rfl⟩
  | rule r =>
    rw [List.mem_singleton.1 h]
    exact ⟨r.name, List.mem_cons_self, rfl⟩
  | pragma p =>
    simp only [references, Pragma.references]
    cases Pragma.mem_definitions.1 h with
    | @walker _ walker hbody hwalker =>
      rw [hbody]
      exact ⟨walker, List.mem_map_of_mem hwalker, rfl⟩
    | @function decl key _ hbody _ hkeyed =>
      rw [hbody]
      refine ⟨decl.function, List.mem_append_right _ (List.mem_map.2 ⟨key, ?_, rfl⟩), rfl⟩
      simpa using hkeyed
    | @lexerMode mode hbody =>
      rw [hbody]
      exact ⟨mode, List.mem_singleton_self _, rfl⟩
    | walkerInterface => cases hkind
    | block _ hdefined => exact (hblock _ hdefined).elim

/-- Names that do not contain a colon and end the same text are the same. -/
theorem eq_of_append_colons {front front' text text' : String}
    (h : front ++ "::" ++ text = front' ++ "::" ++ text') (htext : ':' ∉ text.toList)
    (htext' : ':' ∉ text'.toList) : text = text' := by
  have hlast : ∀ (front : String) {text : String}, ':' ∉ text.toList →
      ((front ++ "::" ++ text).toList.reverse.takeWhile (· != ':')).reverse = text.toList := by
    intro front text hnot
    rw [String.toList_append, String.toList_append, List.reverse_append, List.reverse_append,
      List.takeWhile_append_of_pos]
    · simp
    · intro c hc
      have hmem : c ∈ text.toList := List.mem_reverse.1 hc
      simpa using fun hcolon : c = ':' => hnot (hcolon ▸ hmem)
  rw [← String.toList_inj, ← hlast front htext, h, hlast _ htext']

/-- A symbol is written in one way only. -/
theorem Symbol.IsWritten.unique {s : Symbol} {text text' : String} (h : s.IsWritten text)
    (h' : s.IsWritten text') (htext : ':' ∉ text.toList) (htext' : ':' ∉ text'.toList) :
    text = text' := by
  obtain ⟨-, h⟩ := h
  obtain ⟨-, h'⟩ := h'
  split at h
  · next hkind =>
    rw [if_pos hkind] at h'
    obtain ⟨front, hname⟩ := h
    obtain ⟨front', hname'⟩ := h'
    exact eq_of_append_colons (hname.symm.trans hname') htext htext'
  · next hkind =>
    rw [if_neg hkind] at h'
    exact h.symm.trans h'

theorem contains_lexeme {line : Line} {s : Slice} {p : Position} :
    (line.lexeme s).contains p = true ↔
      p.line = line.number ∧ s.column ≤ p.column ∧ p.column ≤ s.stop := by
  change (p.line == line.number && (decide (s.column ≤ p.column) && decide (p.column ≤ s.stop))) = true ↔ _
  simp only [Bool.and_eq_true, beq_iff_eq, decide_eq_true_eq]

theorem contains_span_lexeme {line : Line} {s : Slice} {p : Position} :
    (line.lexeme s).span.contains p = true ↔
      p.line = line.number ∧ s.column ≤ p.column ∧ p.column ≤ s.stop := by
  simp only [Line.lexeme, Slice.lexeme, Span.contains, Span.onLine, Bool.and_eq_true,
    decide_eq_true_eq, Position.le_iff]
  omega

/-- Two names on a line that share a position are the same. -/
theorem Line.HoldsWord.eq_of_contains {line : Line} {l l' : Lexeme} (h : line.HoldsWord l)
    (h' : line.HoldsWord l') {p : Position} (hp : l.contains p = true) (hp' : l'.contains p = true) :
    l = l' := by
  obtain ⟨s, hs, rfl⟩ := h
  obtain ⟨s', hs', rfl⟩ := h'
  rw [hs.eq_of_touch hs' (contains_lexeme.1 hp).2 (contains_lexeme.1 hp').2]

theorem Line.HoldsWord.contains_span {line : Line} {l : Lexeme} (h : line.HoldsWord l) (p : Position) :
    l.span.contains p = true ↔ l.contains p = true := by
  obtain ⟨s, -, rfl⟩ := h
  rw [contains_span_lexeme, contains_lexeme]

theorem Line.HoldsWord.not_colon {line : Line} {l : Lexeme} (h : line.HoldsWord l) :
    ':' ∉ l.text.toList := by
  obtain ⟨s, hs, rfl⟩ := h
  have htext : (line.lexeme s).text.toList = s.chars := by simp [Line.lexeme, Slice.lexeme, Slice.text]
  rw [htext]
  exact fun hm => absurd (hs.text.chars ':' hm) (by decide)

/-- Names that stand from left to right have different places. -/
theorem Node.StandsOn.eq_of_reference {line : Line} {n : Node} (h : n.bare.StandsOn line)
    {ref ref' : Lexeme × Symbol} (href : ref ∈ n.references) (href' : ref' ∈ n.references)
    (heq : ref.1 = ref'.1) : ref = ref' := by
  have horder := h.order
  rw [words_bare] at horder
  have hdistinct : n.references.Pairwise fun ref ref' => ref.1 ≠ ref'.1 := by
    refine (List.pairwise_map.1 (horder.sublist n.references_sublist)).imp fun hlt hsame => ?_
    rw [hsame] at hlt
    exact Nat.lt_irrefl _ hlt
  have : Std.Symm fun ref ref' : Lexeme × Symbol => ref.1 ≠ ref'.1 := ⟨fun _ _ h => h.symm⟩
  by_contra hne
  exact hdistinct.forall href href' hne heq

section
variable {limit : Nat} {lines : List String}

open Analysis

/-- The name in which a position lies is found there. -/
theorem referenceAt?_of_contains {line : Nat} {n : Node}
    (hn : (analyzeLines limit lines).nodeAt? line = some n) {ref : Lexeme × Symbol}
    (href : ref ∈ n.references) {p : Position} (hp : ref.1.contains p = true) :
    (analyzeLines limit lines).referenceAt? p = some ref := by
  obtain ⟨raw, -, hstands, -⟩ := standsOn_name hn (Node.mem_words href)
  obtain rfl := line_of_contains hn (Node.mem_words href) hp
  have hwords := hstands.words
  rw [Node.words_bare] at hwords
  rw [Document.referenceAt?, hn, Option.bind_some]
  cases hfound : n.referenceAt? p with
  | none => exact absurd hp (List.find?_eq_none.1 hfound _ href)
  | some found =>
    have hmem := List.mem_of_find?_eq_some hfound
    have hcontains := List.find?_some (p := fun ref : Lexeme × Symbol => ref.1.contains p) hfound
    have hsame := (hwords _ (Node.mem_words hmem)).eq_of_contains (hwords _ (Node.mem_words href))
      hcontains hp
    rw [hstands.eq_of_reference hmem href hsame]

theorem exists_of_referenceAt? {p : Position} {ref : Lexeme × Symbol}
    (h : (analyzeLines limit lines).referenceAt? p = some ref) :
    ∃ n, (analyzeLines limit lines).nodeAt? p.line = some n ∧ ref ∈ n.references ∧
      ref.1.contains p = true := by
  obtain ⟨n, hn, hfound⟩ := Option.bind_eq_some_iff.1 h
  exact ⟨n, hn, List.mem_of_find?_eq_some hfound,
    List.find?_some (p := fun ref : Lexeme × Symbol => ref.1.contains p) hfound⟩

/-- Every definition of a symbol that is written stands where the symbol is written. -/
theorem definitionSpans_subset {s : Symbol} (hkind : s.kind.isWritten = true) :
    (analyzeLines limit lines).definitionSpans s ⊆ (analyzeLines limit lines).occurrences s := by
  intro span hspan
  obtain ⟨d, hd, rfl⟩ := List.mem_map.1 hspan
  have hrecords := ((accounted_run limit lines).conclude.books.records.congr
    (Index.buckets_clearPending _)).definitionsOf s
  change d ∈ (run limit lines).conclude.index.clearPending.definitionsOf s at hd
  rw [hrecords] at hd
  obtain ⟨hdefined, hsymbol⟩ := List.mem_filter.1 hd
  obtain ⟨n, hn, hdefines⟩ := List.mem_flatMap.1 hdefined
  obtain rfl := of_decide_eq_true hsymbol
  obtain ⟨l, hl, hspan⟩ := n.reference_of_definition hdefines hkind
  exact Document.mem_occurrences.2 ⟨n, hn, l, hl, hspan⟩

/-- Two names of one symbol are the same text. -/
theorem text_eq_of_references {n n' : Node} (hn : n ∈ (analyzeLines limit lines).nodeList)
    (hn' : n' ∈ (analyzeLines limit lines).nodeList) {t t' : Lexeme} {s : Symbol}
    (href : (t, s) ∈ n.references) (href' : (t', s) ∈ n'.references) : t.text = t'.text := by
  obtain ⟨line, hline⟩ := Document.mem_nodeList.1 hn
  obtain ⟨line', hline'⟩ := Document.mem_nodeList.1 hn'
  obtain ⟨raw, -, -, hword⟩ := standsOn_name hline (Node.mem_words href)
  obtain ⟨raw', -, -, hword'⟩ := standsOn_name hline' (Node.mem_words href')
  exact (Node.isWritten_reference href).unique (Node.isWritten_reference href') hword.not_colon
    hword'.not_colon

end

/-- What is found from a position in the name `t`. -/
structure Document.AgreesAt (d : Document) (lines : List String) (p : Position) (t : Lexeme) : Prop where
  only : ∀ n ∈ d.nodeList, ∀ ref ∈ n.references, ref.1.contains p = true → ref.1 = t
  increasing : (d.occurrencesAt p).Pairwise (· < ·)
  here : t.span ∈ d.occurrencesAt p
  defined : d.definitionsAt p ⊆ d.occurrencesAt p
  written : ∀ span ∈ d.occurrencesAt p ++ d.definitionsAt p, span.Covers lines t.text.toList
  closed : ∀ span ∈ d.occurrencesAt p, ∀ q, span.contains q = true →
    d.occurrencesAt q = d.occurrencesAt p ∧ d.definitionsAt q = d.definitionsAt p

open Analysis in
/-- The look-up of a name, its definitions and its occurrences agree at every position. -/
theorem navigation_agrees (limit : Nat) (text : String) (p : Position) (t : Lexeme) (s : Symbol)
    (h : (analyze limit text).referenceAt? p = some (t, s)) :
    (analyze limit text).AgreesAt (Text.lines text) p t := by
  rw [analyze] at *
  generalize Text.lines text = lines at *
  obtain ⟨n, hn, href, hp⟩ := exists_of_referenceAt? h
  have hmem : n ∈ (analyzeLines limit lines).nodeList := Document.mem_nodeList.2 ⟨_, hn⟩
  have hoccurrences : (analyzeLines limit lines).occurrencesAt p =
      (analyzeLines limit lines).occurrences s := by rw [Document.occurrencesAt, h]
  have hdefinitions : (analyzeLines limit lines).definitionsAt p =
      (analyzeLines limit lines).definitionSpans s := by rw [Document.definitionsAt, h]
  have hsubset : (analyzeLines limit lines).definitionSpans s ⊆
      (analyzeLines limit lines).occurrences s :=
    definitionSpans_subset (Node.isWritten_reference href).1
  constructor
  case only =>
    intro m hm ref href' hcontains
    obtain ⟨line, hline⟩ := Document.mem_nodeList.1 hm
    have hfound := referenceAt?_of_contains hline href' hcontains
    exact congrArg Prod.fst (Option.some.inj (hfound.symm.trans h))
  case increasing => exact hoccurrences ▸ Document.pairwise_occurrences _ s
  case here => exact hoccurrences ▸ Document.mem_occurrences.2 ⟨n, hmem, t, href, rfl⟩
  case defined => rwa [hoccurrences, hdefinitions]
  case written =>
    rw [hoccurrences, hdefinitions]
    intro span hspan
    have hspan : span ∈ (analyzeLines limit lines).occurrences s :=
      (List.mem_append.1 hspan).elim id fun hspan => hsubset hspan
    obtain ⟨m, hm, l, hl, rfl⟩ := Document.mem_occurrences.1 hspan
    obtain ⟨line, hline⟩ := Document.mem_nodeList.1 hm
    obtain ⟨raw, hraw, -, hword⟩ := standsOn_name hline (Node.mem_words hl)
    rw [text_eq_of_references hmem hm href hl]
    exact covers_of_holds hraw hword.holds
  case closed =>
    rw [hoccurrences, hdefinitions]
    intro span hspan q hq
    obtain ⟨m, hm, l, hl, rfl⟩ := Document.mem_occurrences.1 hspan
    obtain ⟨line, hline⟩ := Document.mem_nodeList.1 hm
    obtain ⟨raw, -, -, hword⟩ := standsOn_name hline (Node.mem_words hl)
    have hfound := referenceAt?_of_contains hline hl ((hword.contains_span q).1 hq)
    rw [Document.occurrencesAt, Document.definitionsAt, hfound]
    exact ⟨rfl, rfl⟩

/-- A function that is declared and then implemented. -/
theorem navigation_agrees_function :
    (analyze 25 "%walkers W;\n%function r f() -> T;\nr := r\n@W::f\n%\x7b\n%\x7d").referenceAt?
        ⟨3, 5⟩ = some (⟨"f", .onLine 3 4 5⟩, .function "r::W::f") ∧
      (analyze 25 "%walkers W;\n%function r f() -> T;\nr := r\n@W::f\n%\x7b\n%\x7d").AgreesAt
        (Text.lines "%walkers W;\n%function r f() -> T;\nr := r\n@W::f\n%\x7b\n%\x7d") ⟨3, 5⟩
        ⟨"f", .onLine 3 4 5⟩ :=
  have hfound : (analyze 25
      "%walkers W;\n%function r f() -> T;\nr := r\n@W::f\n%\x7b\n%\x7d").referenceAt? ⟨3, 5⟩ =
        some (⟨"f", .onLine 3 4 5⟩, .function "r::W::f") := by decide +kernel
  ⟨hfound, navigation_agrees 25 _ ⟨3, 5⟩ _ _ hfound⟩

end LineGrammar
