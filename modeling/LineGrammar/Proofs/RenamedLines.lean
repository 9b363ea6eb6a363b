import LineGrammar.Proofs.Occurrences
import LineGrammar.Proofs.RenamedNodes
import LineGrammar.Proofs.RewrittenParts

/-! A line whose names are renamed. The line is rewritten where a reference stands for the renamed symbol,
so each name on it becomes what its symbol asks for. -/

namespace LineGrammar

namespace Renaming

/-- The line is written anew at those references that stand for the renamed symbol. -/
structure Renames (ρ : Renaming) (w : Rewriting) (refs : List (Lexeme × Symbol)) (line line' : Line) :
    Prop where
  old : w.old = ρ.old.toList
  new : w.new = ρ.new.toList
  columns : ∀ start, start ∈ w.columns ↔ ∃ ref ∈ refs, ref.2 = ρ.source ∧ ref.1.start = start
  number : line'.number = line.number
  raw : line'.raw.toList = w.text 0 line.raw.toList
  words : ∀ ref ∈ refs, line.HoldsWord ref.1
  written : ∀ ref ∈ refs, ref.2.IsWritten ref.1.text
  distinct : ∀ ref ∈ refs, ∀ ref' ∈ refs, ref.1 = ref'.1 → ref = ref'
  fresh : ∀ ref ∈ refs, ref.2 ≠ ρ.target

theorem text_lexeme (line : Line) (s : Slice) : (line.lexeme s).text = String.ofList s.chars := rfl

theorem isPlain_of_word {cs : List Char} {line : Line} {s : Slice} (h : s.IsWord cs) :
    IsPlain (line.lexeme s).text :=
  isPlain_of_isNameText (by rw [text_lexeme, String.toList_ofList]; exact h.text)

/-- The name is how the symbol is written. -/
theorem isWritten_symbol {subject : Subject} (h : subject.IsSimple) (name : String) :
    (subject.symbol name).IsWritten name := by
  cases subject with
  | named kind =>
    cases kind with
    | rule | token | walker | lexerMode => exact ⟨rfl, rfl⟩
    | _ => cases h
  | function rule walker => exact ⟨rfl, rule ++ "::" ++ walker, rfl⟩

variable {ρ : Renaming} {w : Rewriting} {refs : List (Lexeme × Symbol)} {line line' : Line}

/-- The renamed symbol is written by its old name. -/
theorem Valid.old_eq (hρ : ρ.Valid) {text : String} (h : ρ.source.IsWritten text) (hplain : IsPlain text) :
    ρ.old = text :=
  (isWritten_symbol hρ.subject ρ.old).unique h (isPlain_of_isNameText hρ.old) hplain

section
variable (h : ρ.Renames w refs line line') (hρ : ρ.Valid)
include h

/-- The line is written anew at a name just if the name stands for the renamed symbol. -/
theorem Renames.mem_columns {s : Slice} (hs : s.IsWord line.raw.toList) {x : Symbol}
    (href : (line.lexeme s, x) ∈ refs) : s.column ∈ w.columns ↔ x = ρ.source := by
  rw [h.columns]
  constructor
  · rintro ⟨ref, hmem, hsource, hstart⟩
    obtain ⟨t, ht, hlexeme⟩ := h.words ref hmem
    rw [hlexeme, Line.start_lexeme] at hstart
    have hspos := hs.pos
    have htpos := ht.pos
    obtain rfl : t = s := ht.eq_of_touch hs (p := s.column) (by omega) (by omega)
    exact (congrArg Prod.snd (h.distinct _ href ref hmem hlexeme.symm)).trans hsource
  · exact fun hsource => ⟨_, href, hsource, rfl⟩

include hρ

theorem Renames.fits : w.Fits line.raw.toList where
  old := h.old ▸ hρ.old
  new := h.new ▸ hρ.new
  words := by
    intro start hstart
    obtain ⟨ref, hmem, hsource, rfl⟩ := (h.columns start).1 hstart
    obtain ⟨s, hs, hlexeme⟩ := h.words ref hmem
    have hwritten := h.written ref hmem
    rw [hsource, hlexeme] at hwritten
    have hchars : w.old = s.chars := by
      rw [h.old, hρ.old_eq hwritten (isPlain_of_word hs), text_lexeme, String.toList_ofList]
    rw [hlexeme, hchars]
    exact hs

/-- The body of the renamed line. -/
theorem Renames.body_eq : line'.body = w.slice line.body := by
  rw [Line.body, Line.body, ← Rewriting.trim_slice (h.fits hρ) (Slice.whole_self _), h.raw]
  rfl

section
variable {s : Slice} (hs : s.IsWord line.raw.toList)
include hs

/-- A name in front of all references stays. -/
theorem Renames.chars_of_before (hbefore : ∀ ref ∈ refs, s.column < ref.1.start) :
    (w.slice s).chars = s.chars := by
  rw [Rewriting.chars_slice, Rewriting.text_of_word (h.fits hρ) hs, if_neg]
  intro hmem
  obtain ⟨ref, href, -, hstart⟩ := (h.columns _).1 hmem
  have hlt := hbefore ref href
  omega

theorem Renames.isPlain : IsPlain (line'.lexeme (w.slice s)).text :=
  isPlain_of_isNameText (by
    rw [text_lexeme, String.toList_ofList]
    exact Rewriting.isNameText_of_word (h.fits hρ) hs)

theorem Renames.sendsName {subject : Subject} (hsubject : subject.IsSimple)
    (href : (line.lexeme s, subject.symbol (line.lexeme s).text) ∈ refs) :
    ρ.SendsName subject (line.lexeme s).text (line'.lexeme (w.slice s)).text where
  fresh := h.fresh _ href
  eq := by
    have hsource : s.column ∈ w.columns ↔ ρ.subject = subject ∧ (line.lexeme s).text = ρ.old := by
      rw [h.mem_columns hs href]
      refine ⟨fun heq => ?_, fun hboth => by rw [source, hboth.1, hboth.2]⟩
      obtain ⟨rfl, htext⟩ := Subject.symbol_inj hsubject hρ.subject heq
      exact ⟨rfl, htext⟩
    rw [text_lexeme, Rewriting.chars_slice, Rewriting.text_of_word (h.fits hρ) hs, h.new, apply]
    simp only [hsource]
    split
    · exact String.ofList_toList
    · rfl

variable {k : SymbolKind} (hk : k.isSimple = true)
  (href : (line.lexeme s, ⟨k, (line.lexeme s).text⟩) ∈ refs)
include hk href

theorem Renames.sendsPart : ρ.SendsPart k (line.lexeme s).text (line'.lexeme (w.slice s)).text where
  name := h.sendsName hρ hs (show (Subject.named k).IsSimple from hk) href
  plain := isPlain_of_word hs
  plain' := h.isPlain hρ hs

theorem Renames.sendsLexeme : ρ.SendsLexeme k (line.lexeme s) (line'.lexeme (w.slice s)) :=
  (h.sendsPart hρ hs hk href).sends hk

end

/-- Several names of one kind. -/
theorem Renames.sendsLexemes {k : SymbolKind} (hk : k.isSimple = true) {names : List Slice}
    (hwords : ∀ s ∈ names, s.IsWord line.raw.toList)
    (hmem : ∀ s ∈ names, (line.lexeme s, ⟨k, (line.lexeme s).text⟩) ∈ refs) :
    List.Forall₂ (ρ.SendsLexeme k) (names.map line.lexeme) ((names.map w.slice).map line'.lexeme) := by
  rw [List.map_map]
  exact forall₂_map_same fun s hs => h.sendsLexeme hρ (hwords s hs) hk (hmem s hs)

end

end Renaming

end LineGrammar
