import LineGrammar.Completion
import LineGrammar.Proofs.Blanks
import LineGrammar.Proofs.Consistency
import LineGrammar.Proofs.IndexRefinement

/-! Completion answers for three shapes of the text before the cursor and for no others. The shapes
are told as concatenations here; the cursor finds them again by scanning back over a word, a
qualifier and another word. -/

namespace LineGrammar

namespace Completion

/-- The marks that a context is recognised by are no part of a word. -/
structure Delimits (isWord : Char → Bool) : Prop where
  percent : isWord '%' = false
  at_sign : isWord '@' = false
  colon : isWord ':' = false

theorem delimits_isWordChar : Delimits isWordChar where
  percent := by decide +kernel
  at_sign := by decide +kernel
  colon := by decide +kernel

/-- What a text before the cursor asks for. -/
inductive Asks (isWord : Char → Bool) : List Char → CompletionContext → Prop
  | pragma {blanks typed : List Char} (hblanks : ∀ c ∈ blanks, isBlank c = true)
      (htyped : ∀ c ∈ typed, isWord c = true) :
      Asks isWord (blanks ++ '%' :: typed) (.pragma typed)
  | walker {blanks typed : List Char} (hblanks : ∀ c ∈ blanks, isBlank c = true)
      (htyped : ∀ c ∈ typed, isWord c = true) :
      Asks isWord (blanks ++ '@' :: typed) (.walker typed)
  | function {blanks walker typed : List Char} (hblanks : ∀ c ∈ blanks, isBlank c = true)
      (hwalker : ∀ c ∈ walker, isWord c = true) (hne : walker ≠ [])
      (htyped : ∀ c ∈ typed, isWord c = true) :
      Asks isWord (blanks ++ '@' :: (walker ++ ':' :: ':' :: typed)) (.function walker typed)

section
variable {isWord : Char → Bool}

theorem splitWord_append {front word : List Char} {mark : Char} (hmark : isWord mark = false)
    (hword : ∀ c ∈ word, isWord c = true) :
    splitWord isWord (front ++ mark :: word) = (front ++ [mark], word) := by
  have hreverse : (front ++ mark :: word).reverse = word.reverse ++ mark :: front.reverse := by
    simp
  have hword' : ∀ c ∈ word.reverse, isWord c = true := fun c hc => hword c (List.mem_reverse.1 hc)
  rw [splitWord, hreverse, List.dropWhile_append_of_pos hword', List.takeWhile_append_of_pos hword']
  simp [hmark]

theorem append_splitWord (cs : List Char) :
    (splitWord isWord cs).1 ++ (splitWord isWord cs).2 = cs := by
  rw [splitWord, ← List.reverse_append, List.takeWhile_append_dropWhile, List.reverse_reverse]

theorem mem_word_splitWord {cs : List Char} {c : Char} (hc : c ∈ (splitWord isWord cs).2) :
    isWord c = true :=
  List.all_eq_true.1 List.all_takeWhile c (List.mem_reverse.1 hc)

end

theorem dropQualifier?_append (rest : List Char) :
    dropQualifier? (rest ++ [':', ':']) = some rest := by
  simp [dropQualifier?]

theorem dropQualifier?_eq_some {cs rest : List Char} (h : dropQualifier? cs = some rest) :
    cs = rest ++ [':', ':'] := by
  rw [dropQualifier?] at h
  split at h
  · next tail hcs =>
    cases h
    rw [← List.reverse_reverse cs, hcs]
    simp
  · cases h

theorem dropQualifier?_concat {front : List Char} {mark : Char} (h : mark ≠ ':') :
    dropQualifier? (front ++ [mark]) = none := by
  rw [dropQualifier?, List.reverse_append]
  split
  · next hcs => simp_all
  · rfl

theorem trimStart_eq_singleton {cs : List Char} {mark : Char} (hmark : isBlank mark = false) :
    Text.trimStart cs = [mark] ↔ ∃ blanks, (∀ c ∈ blanks, isBlank c = true) ∧
      cs = blanks ++ [mark] := by
  constructor
  · intro h
    obtain ⟨blanks, hblanks, hcs⟩ := Text.exists_blanks_trimStart cs
    exact ⟨blanks, hblanks, by rw [hcs, h]⟩
  · rintro ⟨blanks, hblanks, rfl⟩
    rw [Text.trimStart_append_blanks hblanks, Text.trimStart_cons hmark]

variable {isWord : Char → Bool}

theorem context?_of_asks (hd : Delimits isWord) {before : List Char} {context : CompletionContext}
    (h : Asks isWord before context) : context? isWord before = some context := by
  have hpercent : isBlank '%' = false := by decide
  have hat : isBlank '@' = false := by decide
  cases h with
  | pragma hblanks htyped =>
    rw [context?, splitWord_append hd.percent htyped]
    simp only [dropQualifier?_concat (by decide : '%' ≠ ':'),
      (trimStart_eq_singleton hpercent).2 ⟨_, hblanks, rfl⟩]
  | walker hblanks htyped =>
    rw [context?, splitWord_append hd.at_sign htyped]
    simp only [dropQualifier?_concat (by decide : '@' ≠ ':'),
      (trimStart_eq_singleton hat).2 ⟨_, hblanks, rfl⟩]
  | @function blanks walker typed hblanks hwalker hne htyped =>
    have hbefore : blanks ++ '@' :: (walker ++ ':' :: ':' :: typed) =
        (blanks ++ '@' :: walker ++ [':']) ++ ':' :: typed := by simp
    have hrest : blanks ++ '@' :: walker ++ [':'] ++ [':'] =
        (blanks ++ '@' :: walker) ++ [':', ':'] := by simp
    rw [context?, hbefore, splitWord_append hd.colon htyped]
    simp only [hrest, dropQualifier?_append, splitWord_append hd.at_sign hwalker,
      (trimStart_eq_singleton hat).2 ⟨_, hblanks, rfl⟩]
    simp [hne]

theorem asks_of_context? {before : List Char} {context : CompletionContext}
    (h : context? isWord before = some context) : Asks isWord before context := by
  have hpercent : isBlank '%' = false := by decide
  have hat : isBlank '@' = false := by decide
  have hbefore := @append_splitWord isWord before
  have htyped : ∀ c ∈ (splitWord isWord before).2, isWord c = true := fun c => mem_word_splitWord
  rw [context?] at h
  generalize splitWord isWord before = parts at h hbefore htyped
  obtain ⟨front, typed⟩ := parts
  dsimp only at h hbefore htyped
  subst hbefore
  split at h
  · next rest hrest =>
    have hsplit := @append_splitWord isWord rest
    have hwalker : ∀ c ∈ (splitWord isWord rest).2, isWord c = true := fun c => mem_word_splitWord
    generalize splitWord isWord rest = parts at h hsplit hwalker
    obtain ⟨start, walker⟩ := parts
    dsimp only at h hsplit hwalker
    split at h
    · next hguard =>
      cases h
      obtain ⟨hne, hstart⟩ := Bool.and_eq_true_iff.1 hguard
      obtain ⟨blanks, hblanks, rfl⟩ := (trimStart_eq_singleton hat).1 (eq_of_beq hstart)
      rw [dropQualifier?_eq_some hrest, ← hsplit]
      have hshape := Asks.function hblanks hwalker (by simpa using hne) htyped
      simpa using hshape
    · cases h
  · split at h
    · next hfront =>
      cases h
      obtain ⟨blanks, hblanks, rfl⟩ := (trimStart_eq_singleton hpercent).1 hfront
      simpa using Asks.pragma hblanks htyped
    · next hfront =>
      cases h
      obtain ⟨blanks, hblanks, rfl⟩ := (trimStart_eq_singleton hat).1 hfront
      simpa using Asks.walker hblanks htyped
    · cases h

/-- The function that a definition declares for a walker. -/
def functionFor? (walker : String) (d : Definition) : Option String :=
  match d.detail with
  | .function _ owner function _ => if owner = walker then some function else none
  | _ => none

/-- The functions that a log declares for a walker, each once. -/
def functionsIn (log : List Definition) (walker : String) : List String :=
  (log.filterMap (functionFor? walker)).eraseDups

/-- All that fits a context, whatever has been typed: the keywords of the catalogue, the walkers of a
log, or the implicit function and then those that are declared for the walker. -/
def candidates (log : List Definition) : CompletionContext → List String
  | .pragma _ => Keyword.all.map Keyword.word
  | .walker _ => ((log.filter (·.symbol.kind = .walker)).map (·.symbol.name)).eraseDups
  | .function walker _ =>
    implicitFunction ::
      (functionsIn (Index.byName .function log) (String.ofList walker)).filter (· ≠ implicitFunction)

/-- The part of the name that is there. -/
def typed : CompletionContext → List Char
  | .pragma typed | .walker typed | .function _ typed => typed

variable {ix : Index} {log : List Definition}

theorem labels_pragmas (typed : List Char) :
    (pragmas typed).map CompletionItem.label =
      (Keyword.all.map Keyword.word).filter (extends? typed) := by
  have hlabels : ∀ ks : List Keyword,
      ks.zipIdx.map (Keyword.word ∘ Prod.fst) = ks.map Keyword.word := fun ks => by
    rw [← List.map_map, List.zipIdx_map_fst]
  rw [pragmas, List.map_map, List.filter_map]
  exact hlabels _

theorem labels_walkers (h : ix.Records log) (typed : List Char) :
    (walkers ix typed).map CompletionItem.label =
      (candidates log (.walker typed)).filter (extends? typed) := by
  rw [walkers, List.map_map, candidates, ← h.names]
  exact List.map_id _

theorem labels_functions (h : ix.Records log) (walker typed : List Char) :
    (functions ix (String.ofList walker) typed).map CompletionItem.label =
      (candidates log (.function walker typed)).filter (extends? typed) := by
  have hdeclared : functionsOf ix (String.ofList walker) =
      (Index.byName .function log).filterMap (functionFor? (String.ofList walker)) := by
    rw [functionsOf, h.definitionsOfKind_byName]
    rfl
  have hlabels : (functions ix (String.ofList walker) typed).map CompletionItem.label =
      (implicitFunction :: functionsOf ix (String.ofList walker)).eraseDups.filter
        (extends? typed) := by
    rw [functions, List.map_map]
    exact List.map_id _
  rw [hlabels, hdeclared, List.eraseDups_cons, candidates, functionsIn, filter_eraseDups]
  simp only [beq_eq_decide, decide_not]

theorem labels_items (h : ix.Records log) (context : CompletionContext) :
    (items ix context).map CompletionItem.label =
      (candidates log context).filter (extends? (typed context)) := by
  cases context with
  | pragma typed => exact labels_pragmas typed
  | walker typed => exact labels_walkers h typed
  | function walker typed => exact labels_functions h walker typed

/-- At every column the completions are the candidates of what the text before it asks for that
continue what has been typed, and there are none where it asks for nothing. Functions come in the
order of the definitions grouped by key, which is that of the log as long as the definitions of a key
declare one function. -/
theorem labels_completeWith (hd : Delimits isWord) (h : ix.Records log) (line : String)
    (column : Nat) :
    (∀ context, Asks isWord (line.toList.take column) context →
      (ix.completeWith isWord line column).map CompletionItem.label =
        (candidates log context).filter (extends? (typed context))) ∧
    ((∀ context, ¬Asks isWord (line.toList.take column) context) →
      ix.completeWith isWord line column = []) ∧
    ∀ walker, (∀ d ∈ log, ∀ e ∈ log, d.symbol = e.symbol →
        functionFor? walker d = functionFor? walker e) →
      functionsIn (Index.byName .function log) walker =
        functionsIn (log.filter (·.symbol.kind = .function)) walker := by
  refine ⟨fun context hasks => ?_, fun hnone => ?_, fun walker hagree => ?_⟩
  · rw [Index.completeWith, context?_of_asks hd hasks]
    exact labels_items h context
  · rw [Index.completeWith, Option.eq_none_iff_forall_ne_some.2 fun context hcontext =>
      hnone context (asks_of_context? hcontext)]
  · exact Index.eraseDups_filterMap_byName hagree

/-- Functions of two walkers. -/
def sampleLog : List Definition :=
  let declared (rule walker function : String) : Definition :=
    { symbol := .function (functionKey rule walker function)
      span := .onLine 0 0 0
      fullSpan := .onLine 0 0 0
      detail := .function rule walker function "() -> int" }
  [declared "expr" "Eval" "value", declared "expr" "Print" "vary", declared "term" "Eval" "vast",
    declared "term" "Eval" "value", declared "term" "Eval" "run"]

/-- A qualifier in an indented line, with the cursor before the end of the line, and the same
qualifier after something else. -/
theorem labels_after_qualifier :
    ((({} : Index).enterAll sampleLog).complete "  @Eval::va;" 11).map CompletionItem.label =
      ["value", "vast"] ∧
    (({} : Index).enterAll sampleLog).complete "r @Eval::va;" 11 = [] ∧
    functionsIn (Index.byName .function sampleLog) "Eval" = ["value", "vast", "run"] := by
  have hrecords : (({} : Index).enterAll sampleLog).Records sampleLog :=
    Index.buckets_enterAll _ _
  have hcompletions := fun line => labels_completeWith delimits_isWordChar hrecords line 11
  have hblanks : "  ".toList.all isBlank = true := by decide
  have hwalker : "Eval".toList.all isWordChar = true := by decide +kernel
  have htyped : "va".toList.all isWordChar = true := by decide +kernel
  have hasks : Asks isWordChar ("  @Eval::va;".toList.take 11)
      (.function "Eval".toList "va".toList) :=
    Asks.function (List.all_eq_true.1 hblanks) (List.all_eq_true.1 hwalker) (by decide)
      (List.all_eq_true.1 htyped)
  have hnone : context? isWordChar ("r @Eval::va;".toList.take 11) = none := by decide +kernel
  refine ⟨((hcompletions _).1 _ hasks).trans (by decide +kernel), (hcompletions _).2.1 ?_,
    ((hcompletions "").2.2 "Eval" (by decide +kernel)).trans (by decide +kernel)⟩
  intro context hcontext
  rw [context?_of_asks delimits_isWordChar hcontext] at hnone
  cases hnone

/-- In the index of a text no key is declared twice, and functions come in source order. -/
theorem byName_function_analyze (limit : Nat) (text : String) :
    Index.byName .function (analyze limit text).definitions =
      (analyze limit text).definitions.filter (·.symbol.kind = .function) := by
  have hrecords := records_analyze limit text
  rw [← hrecords.definitionsOfKind_byName]
  exact hrecords.definitionsOfKind (accounted_analyze limit text).books.sound.distinct

end Completion

end LineGrammar
