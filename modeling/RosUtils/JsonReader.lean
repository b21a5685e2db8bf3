/-
A reader of JSON texts.

The readers take characters off the front of a text and fail with an error code.
There are two ways to read a value: `ignoreValue` checks it against the grammar
and keeps nothing, so that `rawValue` can hand out its text; and a reader of a
type, such as `string`, gives what it stands for.  The first accepts every escape
of a code unit, the second wants the code units of a string to make characters.

A reader that goes round a loop, or down into a value, takes a number of steps it
may take; `fromStr` gives it more than there are characters.

That there is a reader shows that a text is spelled in one way only.  It is not the
reader of the crate, which is `serde_json`: what is asked of that is in `SerdeJson`,
and this one shows that it can be had.
-/
import RosUtils.ExceptState
import RosUtils.JsonText

open ExceptState JsonText

namespace JsonReader

/-- Why a text is refused. -/
inductive ErrorCode where
  | eofWhileParsingList
  | eofWhileParsingObject
  | eofWhileParsingString
  | eofWhileParsingValue
  | expectedColon
  | expectedListCommaOrEnd
  | expectedObjectCommaOrEnd
  | expectedSomeIdent
  | expectedSomeValue
  | invalidEscape
  | invalidNumber
  | numberOutOfRange
  | controlCharacterWhileParsingString
  | keyMustBeAString
  | loneLeadingSurrogateInHexEscape
  | recursionLimitExceeded
  | trailingCharacters
  /-- A value of another type than the one that is read. -/
  | invalidType
  deriving DecidableEq, Repr

/-- How an error reads, without the line and the column. -/
def ErrorCode.display : ErrorCode → String
  | .eofWhileParsingList => "EOF while parsing a list"
  | .eofWhileParsingObject => "EOF while parsing an object"
  | .eofWhileParsingString => "EOF while parsing a string"
  | .eofWhileParsingValue => "EOF while parsing a value"
  | .expectedColon => "expected `:`"
  | .expectedListCommaOrEnd => "expected `,` or `]`"
  | .expectedObjectCommaOrEnd => "expected `,` or `\x7d`"
  | .expectedSomeIdent => "expected ident"
  | .expectedSomeValue => "expected value"
  | .invalidEscape => "invalid escape"
  | .invalidNumber => "invalid number"
  | .numberOutOfRange => "number out of range"
  | .controlCharacterWhileParsingString =>
    "control character (\\u0000-\\u001F) found while parsing a string"
  | .keyMustBeAString => "key must be a string"
  | .loneLeadingSurrogateInHexEscape => "lone leading surrogate in hex escape"
  | .recursionLimitExceeded => "recursion limit exceeded"
  | .trailingCharacters => "trailing characters"
  | .invalidType => "invalid type"

abbrev Parser (α : Type) := Reader Char ErrorCode α

/-! ### Characters -/

def skipWs : Parser Unit := fun s => .ok ((), s.dropWhile isWs)

/-- The next character, if there is one. -/
def peek : Parser (Option Char) := fun s => .ok (s.head?, s)

def eat : Parser Unit := fun s => .ok ((), s.tail)

/-- The next character, which has to be there. -/
def next (eof : ErrorCode) : Parser Char
  | [] => .error eof
  | c :: s => .ok (c, s)

/-- The character `c`. -/
def expect (c : Char) (eof other : ErrorCode) : Parser Unit := do
  let x ← next eof
  if x = c then pure () else throw other

/-- The characters of a word. -/
def ident : Text → Parser Unit
  | [] => pure ()
  | c :: cs => do
    expect c .eofWhileParsingValue .expectedSomeIdent
    ident cs

/-! ### Strings -/

/-- What stands behind a backslash. -/
def escape : Parser Piece := do
  let x ← next .eofWhileParsingString
  if x = 'u' then
    let a ← next .eofWhileParsingString
    let b ← next .eofWhileParsingString
    let c ← next .eofWhileParsingString
    let d ← next .eofWhileParsingString
    match hex4 a b c d with
    | some u => pure (.unit u)
    | none => throw .invalidEscape
  else
    match escapes.lookup x with
    | some c => pure (.char c)
    | none => throw .invalidEscape

/-- One piece of a string, or its closing quote. -/
def piece : Parser (Option Piece) := do
  let c ← next .eofWhileParsingString
  if c = '"' then pure none
  else if c = '\\' then some <$> escape
  else if c.toNat < 0x20 then throw .controlCharacterWhileParsingString
  else pure (some (.char c))

/-- The pieces of a string up to its closing quote. -/
def pieces : ℕ → Parser (List Piece)
  | 0 => throw .eofWhileParsingString
  | n + 1 => do
    match ← piece with
    | none => pure []
    | some p => (p :: ·) <$> pieces n

/-- What the pieces stand for. -/
def decoded (ps : List Piece) : Parser String :=
  match assemble ps with
  | some cs => pure (String.ofList cs)
  | none => throw .loneLeadingSurrogateInHexEscape

/-- A string, from behind its opening quote on. -/
def str (n : ℕ) : Parser String := do
  let ps ← pieces n
  decoded ps

/-! ### Numbers -/

def digits : Parser Text := do
  let ds : Text ← fun s => .ok (s.takeWhile Char.isDigit, s.dropWhile Char.isDigit)
  if ds = [] then throw .invalidNumber else pure ds

def integer : Parser Text := do
  let ds ← digits
  if ds.head? = some '0' ∧ ds ≠ ['0'] then throw .invalidNumber else pure ds

/-- The sign, if the next character is one of `signs`. -/
def sign (signs : Text) : Parser Text := fun s =>
  match s with
  | c :: s => if c ∈ signs then .ok ([c], s) else .ok ([], c :: s)
  | [] => .ok ([], [])

def fraction : Parser Text := do
  let point ← sign ['.']
  if point = [] then pure [] else (point ++ ·) <$> digits

def exponent : Parser Text := do
  let e ← sign ['e', 'E']
  if e = [] then pure []
  else
    let pm ← sign ['+', '-']
    (fun ds => e ++ (pm ++ ds)) <$> digits

def number : Parser NumberText := do
  let minus ← sign ['-']
  let int ← integer
  let frac ← fraction
  let exp ← exponent
  pure ⟨minus ≠ [], int, frac, exp⟩

/-! ### Values -/

section Lists

variable {α : Type} (item : Parser α) (close : Char) (eof sep : ErrorCode)

/-- Items with commas between them, up to the closing delimiter. -/
def items : ℕ → Parser (List α)
  | 0 => throw eof
  | n + 1 => do
    skipWs
    let a ← item
    skipWs
    let c ← next eof
    if c = ',' then (a :: ·) <$> items n
    else if c = close then pure [a]
    else throw sep

/-- Items from behind the opening delimiter on. -/
def list (n : ℕ) : Parser (List α) := do
  skipWs
  if (← peek) = some close then
    eat
    pure []
  else items item close eof sep n

end Lists

def listOf {α : Type} (item : Parser α) : ℕ → Parser (List α) :=
  list item ']' .eofWhileParsingList .expectedListCommaOrEnd

def objectOf {α : Type} (item : Parser α) : ℕ → Parser (List α) :=
  list item '}' .eofWhileParsingObject .expectedObjectCommaOrEnd

/-- A name, a colon and a value. -/
def member {α β : Type} (name : Parser α) (val : Parser β) : Parser (α × β) := do
  expect '"' .eofWhileParsingObject .keyMustBeAString
  let k ← name
  skipWs
  expect ':' .eofWhileParsingObject .expectedColon
  skipWs
  let v ← val
  pure (k, v)

/-- Check a value against the grammar. -/
def ignoreValue : ℕ → Parser Unit
  | 0 => throw .eofWhileParsingValue
  | n + 1 => do
    match ← peek with
    | none => throw .eofWhileParsingValue
    | some c =>
      if c = 'n' then ident "null".toList
      else if c = 't' then ident "true".toList
      else if c = 'f' then ident "false".toList
      else if c = '"' then do
        eat
        discard (pieces n)
      else if c = '[' then do
        eat
        discard (listOf (ignoreValue n) n)
      else if c = '{' then do
        eat
        discard (objectOf (member (pieces n) (ignoreValue n)) n)
      else if c = '-' ∨ c.isDigit then discard number
      else throw .expectedSomeValue

/-- The text of a value. -/
def rawValue (n : ℕ) : Parser Text := do
  let (_, text) ← span (ignoreValue n)
  pure text

/-- Read the whole text, with whitespace around the value. -/
def fromStr {α : Type} (p : ℕ → Parser α) (text : Text) : Except ErrorCode α := do
  let (a, rest) ← (do skipWs; let a ← p (text.length + 1); skipWs; pure a : Parser α).run text
  if rest = [] then .ok a else .error .trailingCharacters

/-- An array, as the texts of its elements. -/
def rawArray (n : ℕ) : Parser (List Text) := do
  expect '[' .eofWhileParsingValue .invalidType
  listOf (rawValue n) n

/-- An object, as its members in their order, with their names decoded. -/
def rawObject (n : ℕ) : Parser (List (String × Text)) := do
  expect '{' .eofWhileParsingValue .invalidType
  objectOf (member (str n) (rawValue n)) n

/-- A string. -/
def string (n : ℕ) : Parser String := do
  expect '"' .eofWhileParsingValue .invalidType
  str n

end JsonReader
