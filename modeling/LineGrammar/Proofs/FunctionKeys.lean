import LineGrammar.Proofs.ExternalWalkers
import LineGrammar.Proofs.OutlineNesting

/-! Keys and the names they are made of. No name has a colon, so a key is cut at its colons in one way only
and begins with the name of one rule only. The index knows the functions of a rule by the fronts of their
keys; these are the functions declared for the rule, also where one rule's name begins with another's. -/

namespace LineGrammar

/-- A name that may be a part of a key. -/
abbrev PlainName := { name : String // IsPlain name }

/-- The rule that a function was declared for. -/
def Definition.functionRule? (d : Definition) : Option String :=
  match d.detail with
  | .function rule _ _ _ => some rule
  | _ => none

/-- The functions that are declared for a rule, in the order of their lines. -/
def Document.functionsFor (d : Document) (rule : String) : List Definition :=
  d.definitions.filter fun f => f.symbol.kind = .function ∧ f.functionRule? = some rule

variable (limit : Nat) (text : String)

theorem soundLog_analyze : SoundLog (analyze limit text).definitions :=
  (accounted_analyze limit text).books.sound

/-- The front of a key tells the rule that its function was declared for. -/
theorem functionsOfRule_analyze {rule : String} (hrule : IsPlain rule) :
    (analyze limit text).index.functionsOfRule rule = (analyze limit text).functionsFor rule := by
  have hsound := soundLog_analyze limit text
  rw [(records_analyze limit text).functionsOfRule hsound hrule, Document.functionsFor]
  refine List.filter_congr fun f hf => ?_
  have hfits := hsound.fits f hf
  cases hdetail : f.detail with
  | function rule' walker function signature =>
    rw [Definition.Fits, hdetail] at hfits
    simp [Definition.functionRule?, hdetail, hfits.1, Symbol.function]
  | _ => simp [Definition.functionRule?, hdetail]

theorem pairwise_functionsFor (rule : String) :
    ((analyze limit text).functionsFor rule).Pairwise fun f g => f.span.start < g.span.start := by
  refine (Analysis.pairwise_ownDefinitions limit (Text.lines text)).sublist ?_
  refine List.monotone_filter_right _ fun f hf => ?_
  simp_all

/-- Keys of plain names are told apart: those of functions by their three parts, those of parts of walkers by
their two, and the former from the latter. In every document the functions of a rule are the definitions
recorded for it, in source order. -/
theorem keys_unambiguous :
    (∀ rule rule' walker walker' function function' : PlainName,
      functionKey rule walker function = functionKey rule' walker' function' →
        rule = rule' ∧ walker = walker' ∧ function = function') ∧
    (∀ walker walker' function function' : PlainName,
      blockKey none walker function = blockKey none walker' function' →
        walker = walker' ∧ function = function') ∧
    (∀ rule walker walker' function function' : PlainName,
      blockKey none walker function ≠ blockKey (some rule.1) walker' function') ∧
    ∀ rule : PlainName,
      (analyze limit text).index.functionsOfRule rule = (analyze limit text).functionsFor rule ∧
      ((analyze limit text).functionsFor rule).Pairwise fun f g => f.span.start < g.span.start := by
  refine ⟨?_, ?_, ?_, fun rule => ?_⟩
  · intro rule rule' walker walker' function function' h
    obtain ⟨hr, hw, hf⟩ := functionKey_inj rule.2 rule'.2 walker.2 walker'.2 h
    exact ⟨Subtype.ext hr, Subtype.ext hw, Subtype.ext hf⟩
  · intro walker walker' function function' h
    obtain ⟨-, hw, hf⟩ := blockKey_inj (by simp) (by simp) walker.2 walker'.2 function.2 function'.2 h
    exact ⟨Subtype.ext hw, Subtype.ext hf⟩
  · intro rule walker walker' function function' h
    obtain ⟨hnone, -⟩ := blockKey_inj (by simp) (by simpa using rule.2) walker.2 walker'.2 function.2
      function'.2 h
    cases hnone
  · exact ⟨functionsOfRule_analyze limit text rule.2, pairwise_functionsFor limit text rule⟩

/-- The name of one rule begins with that of the other. -/
def sharedFrontText : String :=
  "%walkers W;\n%function e f() -> int;\n%function ex f() -> int;\n%function e g() -> int;"

/-- The function of the longer name stands between those of the shorter one and is none of them. -/
theorem keys_unambiguous_shared_front :
    functionKey "e" "W" "f" ≠ functionKey "ex" "W" "f" ∧
      ((analyze defaultErrorLimit sharedFrontText).index.functionsOfRule "e").map
        (fun f => f.symbol.name) = ["e::W::f", "e::W::g"] := by
  have h := keys_unambiguous defaultErrorLimit sharedFrontText
  constructor
  · intro heq
    have hrule := (h.1 ⟨"e", by decide⟩ ⟨"ex", by decide⟩ ⟨"W", by decide⟩ ⟨"W", by decide⟩
      ⟨"f", by decide⟩ ⟨"f", by decide⟩ heq).1
    exact absurd (congrArg Subtype.val hrule) (by decide)
  · rw [(h.2.2.2 ⟨"e", by decide⟩).1]
    decide +kernel

end LineGrammar
