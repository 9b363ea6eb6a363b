import LineGrammar.Index
import LineGrammar.Keyword
import LineGrammar.Text.Blank
import LineGrammar.Text.WordChar

/-! Completion. After `%` come the pragma keywords, after `@` the walkers, and after
`@Walker::` the functions of the walker; nothing is completed anywhere else. -/

namespace LineGrammar

inductive CompletionKind
  | pragma
  | walker
  | function
deriving DecidableEq

/-- The number of a kind on the language server's scale. -/
def CompletionKind.code : CompletionKind → Nat
  | pragma => 14
  | walker => 7
  | function => 3

structure CompletionItem where
  label : String
  kind : CompletionKind
  detail : String
  /-- Items are shown by increasing priority. -/
  priority : Nat := 100
deriving DecidableEq

/-- What is being written before the cursor; `typed` is the part of the name that is there. -/
inductive CompletionContext
  | pragma (typed : List Char)
  | walker (typed : List Char)
  | function (walker typed : List Char)
deriving DecidableEq

namespace Completion

/-- Splits off the longest word at the end. -/
def splitWord (isWord : Char → Bool) (cs : List Char) : List Char × List Char :=
  ((cs.reverse.dropWhile isWord).reverse, (cs.reverse.takeWhile isWord).reverse)

/-- What comes before a qualifier at the end. -/
def dropQualifier? (cs : List Char) : Option (List Char) :=
  match cs.reverse with
  | ':' :: ':' :: rest => some rest.reverse
  | _ => none

def context? (isWord : Char → Bool) (before : List Char) : Option CompletionContext :=
  let (rest, typed) := splitWord isWord before
  match dropQualifier? rest with
  | some rest =>
    let (rest, walker) := splitWord isWord rest
    if !walker.isEmpty && Text.trimStart rest == ['@'] then some (.function walker typed)
    else none
  | none =>
    match Text.trimStart rest with
    | ['%'] => some (.pragma typed)
    | ['@'] => some (.walker typed)
    | _ => none

def extends? (typed : List Char) (name : String) : Bool := typed.isPrefixOf name.toList

def pragmas (typed : List Char) : List CompletionItem :=
  (Keyword.all.filter fun k => extends? typed k.word).zipIdx.map fun (k, n) =>
    { label := k.word
      kind := .pragma
      detail := "%" ++ k.word ++ " " ++ k.usage
      priority := n }

def walkers (ix : Index) (typed : List Char) : List CompletionItem :=
  ((ix.names .walker).filter fun name => extends? typed name).map fun name =>
    { label := name
      kind := .walker
      detail := match ix.interfaceOf name with
        | some interface => "walker implemented by " ++ interface
        | none => "walker" }

/-- The functions that are declared for a walker, whatever their rules. -/
def functionsOf (ix : Index) (walker : String) : List String :=
  (ix.definitionsOfKind .function).filterMap fun d =>
    match d.detail with
    | .function _ owner function _ => if owner = walker then some function else none
    | _ => none

/-- The implicit function and then the declared ones, each once. -/
def functions (ix : Index) (walker : String) (typed : List Char) : List CompletionItem :=
  ((implicitFunction :: functionsOf ix walker).eraseDups.filter fun name =>
    extends? typed name).map fun name =>
      { label := name, kind := .function, detail := walker ++ "::" ++ name }

def items (ix : Index) : CompletionContext → List CompletionItem
  | .pragma typed => pragmas typed
  | .walker typed => walkers ix typed
  | .function walker typed => functions ix (String.ofList walker) typed

end Completion

/-- The completions at a column of a line; a column past the end means the end. Which characters
make up a word is left open. -/
def Index.completeWith (isWord : Char → Bool) (ix : Index) (line : String) (column : Nat) :
    List CompletionItem :=
  match Completion.context? isWord (line.toList.take column) with
  | some context => Completion.items ix context
  | none => []

def Index.complete (ix : Index) (line : String) (column : Nat) : List CompletionItem :=
  ix.completeWith isWordChar line column

end LineGrammar
