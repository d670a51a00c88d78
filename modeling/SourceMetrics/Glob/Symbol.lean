/-! # Symbols of globs

The text of a glob as a row of symbols: escapes are undone, character classes are read, and the
marks of groups are told from plain characters. Whether two stars in a row cross directories is not
decided here; each is a symbol of its own. A text that cannot be read so has a fault. -/

namespace SourceMetrics.Glob

set_option autoImplicit false

/-- Why a text is no glob. -/
inductive Fault where
  | unclosedClass
  /-- A range of characters ends before it begins. -/
  | reversedRange (low high : Char)
  | unopenedGroup
  | unclosedGroup
  /-- A backslash stands at the end. -/
  | danglingEscape
deriving DecidableEq, Repr

def Fault.message : Fault → String
  | .unclosedClass => "unclosed character class; missing ']'"
  | .reversedRange low high => s!"invalid range; '{low}' > '{high}'"
  | .unopenedGroup =>
    "unopened alternate group; missing '\x7b' (maybe escape '\x7d' with '[\x7d]'?)"
  | .unclosedGroup =>
    "unclosed alternate group; missing '\x7d' (maybe escape '\x7b' with '[\x7b]'?)"
  | .danglingEscape => "dangling '\\'"

/-- A part of a glob that matches by itself. -/
inductive Atom where
  | literal (c : Char)
  /-- One byte other than a slash. -/
  | any
  /-- Any bytes other than slashes. -/
  | star
  /-- One byte of the given ranges, or with `negated` one byte outside them. -/
  | set (negated : Bool) (ranges : List (Char × Char))
  /-- Nothing, or a directory part from the start of the path: anything that ends in a slash. -/
  | leading
  /-- A slash, or anything between two slashes. -/
  | between
  /-- A slash and anything behind it. -/
  | trailing
  /-- Anything. -/
  | anything
deriving Repr

inductive Symbol where
  | atom (atom : Atom)
  /-- A slash that was not escaped. -/
  | slash
  | openGroup
  /-- The mark between two branches of a group. -/
  | comma
  | closeGroup
deriving Repr

namespace Symbol

/-- A character class of which the closing bracket has not been read. -/
structure OpenClass where
  negated : Bool
  /-- The ranges so far, the last one first. -/
  ranges : List (Char × Char)
  /-- Whether a hyphen has been read that may make a range of the last character. -/
  extending : Bool
deriving DecidableEq, Repr

/-- Reads a character inside a class: the class goes on, or it is closed. A bracket or a hyphen
that comes first stands for itself. -/
def OpenClass.read (c : Char) (opened : OpenClass) : Except Fault (OpenClass ⊕ Symbol) :=
  match opened with
  | ⟨negated, [], _⟩ => .ok (.inl ⟨negated, [(c, c)], false⟩)
  | ⟨negated, (low, high) :: ranges, extending⟩ =>
    if c = ']' then
      let hyphen := if extending then [('-', '-')] else []
      .ok (.inr (.atom (.set negated (hyphen ++ (low, high) :: ranges).reverse)))
    else if extending then
      if c < low then .error (.reversedRange low c)
      else .ok (.inl ⟨negated, (low, c) :: ranges, false⟩)
    else if c = '-' then .ok (.inl ⟨negated, (low, high) :: ranges, true⟩)
    else .ok (.inl ⟨negated, (c, c) :: (low, high) :: ranges, false⟩)

/-- The symbols of a text inside `depth` groups and perhaps inside a class. -/
def readFrom : (depth : Nat) → (opened : Option OpenClass) → List Char → Except Fault (List Symbol)
  | depth, none, [] => if depth = 0 then .ok [] else .error .unclosedGroup
  | _, some _, [] => .error .unclosedClass
  | depth, some opened, c :: rest => do
    match ← opened.read c with
    | .inl opened => readFrom depth (some opened) rest
    | .inr symbol => return symbol :: (← readFrom depth none rest)
  | _, none, ['\\'] => .error .danglingEscape
  | depth, none, '\\' :: c :: rest => return .atom (.literal c) :: (← readFrom depth none rest)
  | depth, none, '[' :: '!' :: rest => readFrom depth (some ⟨true, [], false⟩) rest
  | depth, none, '[' :: '^' :: rest => readFrom depth (some ⟨true, [], false⟩) rest
  | depth, none, '[' :: rest => readFrom depth (some ⟨false, [], false⟩) rest
  | depth, none, '{' :: rest => return .openGroup :: (← readFrom (depth + 1) none rest)
  | 0, none, '}' :: _ => .error .unopenedGroup
  | depth + 1, none, '}' :: rest => return .closeGroup :: (← readFrom depth none rest)
  | 0, none, ',' :: rest => return .atom (.literal ',') :: (← readFrom 0 none rest)
  | depth + 1, none, ',' :: rest => return .comma :: (← readFrom (depth + 1) none rest)
  | depth, none, '?' :: rest => return .atom .any :: (← readFrom depth none rest)
  | depth, none, '*' :: rest => return .atom .star :: (← readFrom depth none rest)
  | depth, none, '/' :: rest => return .slash :: (← readFrom depth none rest)
  | depth, none, c :: rest => return .atom (.literal c) :: (← readFrom depth none rest)

def read (text : List Char) : Except Fault (List Symbol) :=
  readFrom 0 none text

end Symbol

end SourceMetrics.Glob
