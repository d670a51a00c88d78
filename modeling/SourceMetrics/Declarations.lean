import SourceMetrics.Phrase.Scan
import SourceMetrics.Sequence

/-! # Functions and classes

Counts of function and class declarations by their outward form. The forms of a function overlap
(a named function followed by its block is found twice), and what only looks like one, such as an
`if` with its condition and block, is counted as well. -/

namespace SourceMetrics.Declarations

set_option autoImplicit false

open Phrase.Part

/-- A parenthesised stretch without a closing parenthesis inside. -/
def parenthesised : Phrase :=
  [exact "(", upTo ')', exact ")"]

/-- An arrow function bound to a name by the given keyword. -/
def arrowFunction (keyword : String) : Phrase :=
  [exact keyword, gap, word, blanks, exact "=", blanks] ++ parenthesised ++ [blanks, exact "=>"]

/-- The forms of a function: named, arrow function bound by `const` or `let`, and any name with
parentheses before a block. -/
def functionForms : List Phrase :=
  [ [edge, exact "function", gap, word, blanks, exact "("],
    arrowFunction "const",
    arrowFunction "let",
    [word, blanks] ++ parenthesised ++ [blanks, exact "\x7b"] ]

def classForm : Phrase :=
  [edge, exact "class", gap, word]

def functions (text : List Char) : Nat :=
  total (fun phrase => phrase.count text) functionForms

def classes (text : List Char) : Nat :=
  classForm.count text

end SourceMetrics.Declarations
