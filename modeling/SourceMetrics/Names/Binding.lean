import SourceMetrics.Names.Token
import SourceMetrics.Sequence

/-! # Names that a text binds

Variables are the names that stand behind `const`, `let` or `var`.

An import statement is `import`, a clause, `from` and a quoted module, with blank characters
between them. The clause holds no quote and no semicolon. Its names stand between commas; braces
and the words `* as` are no part of them. An alias such as `a as b` is kept as one entry.

A name counts as unused when its token occurs at most once in the whole text, which is usually its
declaration. Scopes, strings and comments make no difference. -/

namespace SourceMetrics.Names

set_option autoImplicit false

open Text Phrase.Part

/-! ## Variables -/

def variableKeywords : List String :=
  ["const", "let", "var"]

/-- Reads a keyword with the name it declares, and answers with the name. -/
def variableReader : Reader (List Char) := fun before text => do
  let keyword ← variableKeywords.findSome? fun keyword =>
    Phrase.front? before text [edge, exact keyword, gap]
  let name ← name? (text.drop keyword.length)
  return (name, keyword.length + name.length)

/-- The variables a text declares, each once, by first declaration. -/
def declared (text : List Char) : List (List Char) :=
  (variableReader.scan text).eraseDups

/-! ## Imports -/

def isQuote (c : Char) : Bool :=
  c == '\x27' || c == '"'

/-- The text behind `word`, if the text begins with it. -/
def behind? (word : String) (text : List Char) : Option (List Char) :=
  if word.toList.isPrefixOf text then some (text.drop word.length) else none

/-- The clause in what stands between `import` and the first quote, if that has the right form:
blank characters, a clause, and `from` with blank characters on both sides. The clause ends before
the last blank character in front of `from`. A clause may itself be blank, but then three blank
characters are needed in front of `from`. -/
def clause? (text : List Char) : Option (List Char) := do
  let behindFrom ← Phrase.run? isBlank text.reverse
  let rest ← behind? "morf" (text.reverse.drop behindFrom.length)
  let front := rest.reverse
  let lead ← Phrase.run? isBlank front
  match front.drop lead.length with
  | [] => if 3 ≤ lead.length then some [] else none
  | clause => if clause.getLast?.any isBlank then some clause.dropLast else none

/-- The number of characters of a quoted module name at the front of a text, with its quotes. -/
def quotedLength? : List Char → Option Nat
  | [] => none
  | opening :: rest =>
    if isQuote opening then do
      let name ← Phrase.run? (fun c => !isQuote c) rest
      if (rest.drop name.length).isEmpty then none else some (name.length + 2)
    else none

/-- Reads an import statement and answers with its clause. -/
def importReader : Reader (List Char) := fun _ text => do
  let rest ← behind? "import" text
  let body := rest.takeWhile fun c => !isQuote c && c != ';'
  let clause ← clause? body
  let quoted ← quotedLength? (rest.drop body.length)
  return (clause, 6 + body.length + quoted)

/-- The clause without braces and without the words `* as`. -/
def bareClause : List Char → List Char
  | [] => []
  | '*' :: ' ' :: 'a' :: 's' :: rest => bareClause rest
  | c :: rest => if c == '{' || c == '}' then bareClause rest else c :: bareClause rest

def clauseNames (clause : List Char) : List (List Char) :=
  ((split ',' (bareClause clause)).map (trimEnds isBlank)).filter fun name => !name.isEmpty

/-- The names a text imports, statement by statement. -/
def imported (text : List Char) : List (List Char) :=
  (importReader.scan text).flatMap clauseNames

/-! ## Unused names -/

/-- Whether the token of a name occurs at most once among `tokens`. -/
def isUnused (tokens : List (List Char)) (name : List Char) : Bool :=
  tokens.count name ≤ 1

def unusedVariables (text : List Char) : List (List Char) :=
  (declared text).filter (isUnused (tokens text))

def unusedImports (text : List Char) : List (List Char) :=
  (imported text).filter (isUnused (tokens text))

end SourceMetrics.Names
