import LineGrammar.Analysis
import LineGrammar.Completion
import LineGrammar.Layout
import LineGrammar.Navigation
import LineGrammar.Outline

/-! An editing session: one document that is analysed again and again, with the options that
hold for it. Before the first analysis there is nothing to ask about. -/

namespace LineGrammar

inductive SessionStatus
  | idle
  | ready
deriving DecidableEq

structure Session where
  errorLimit : Nat := defaultErrorLimit
  indentation : Indentation := {}
  document : Document := {}
  status : SessionStatus := .idle

namespace Session

/-- Analyses a text in place of the one before. -/
def update (text : String) (s : Session) : Session :=
  { s with document := analyze s.errorLimit text, status := .ready }

/-- What a question about the document gives; nothing before there is one. -/
def ask {α : Type} (s : Session) (question : Document → List α) : List α :=
  match s.status with
  | .ready => question s.document
  | .idle => []

def definitionsAt (s : Session) (p : Position) : List Span := s.ask (·.definitionsAt p)

def occurrencesAt (s : Session) (p : Position) : List Span := s.ask (·.occurrencesAt p)

def renameAt (s : Session) (p : Position) (newName : String) : List TextEdit :=
  s.ask (·.renameAt p newName)

def completionsAt (s : Session) (line : String) (column : Nat) : List CompletionItem :=
  s.ask (·.index.complete line column)

def outline (s : Session) : List OutlineGroup := s.ask (·.index.outline)

def highlights (s : Session) : List Highlight := s.ask Document.highlights

def layout (s : Session) : List String := s.ask (LineGrammar.layout s.indentation)

def diagnostics (s : Session) : List Diagnostic := s.ask Document.diagnostics

def folds (s : Session) : List (Nat × Nat) := s.ask Document.folds

def hoverAt? (s : Session) (p : Position) : Option Hover :=
  (s.ask fun d => (d.hoverAt? p).toList).head?

end Session

end LineGrammar
