import Mathlib.Data.List.Basic

/-! What stays of a finding when the values in its message, and the place it was found at, are left out. A message
is read as pieces: links kept as they stand, and the backticked names and the numbers standing alone, which are its
slots. Its template has a hole for each slot, and its shape one hole for each list of holes. -/

namespace Mainboard.Findings

/-- The character classes of the patterns: digits, word characters, which the digits are among, and blanks. -/
structure Classes where
  digit : Char → Bool
  word : Char → Bool
  space : Char → Bool

/-- One piece of a message. -/
inductive Piece
  | plain (char : Char)
  | link (text : List Char)
  | named (text : List Char)
  | number (text : List Char)
  deriving DecidableEq

variable (classes : Classes)

/-- A link at a text's start, and what follows it. -/
def linkAt (text : List Char) : Option (List Char × List Char) :=
  let scheme := if "https://".toList <+: text then some 8 else if "http://".toList <+: text then some 7 else none
  scheme.bind fun length =>
    let kept := (text.drop length).takeWhile fun c => !classes.space c && c != '\x60'
    if kept = [] then none else some (text.take (length + kept.length), text.drop (length + kept.length))

/-- A backticked name at a text's start, and what follows its closing backtick. -/
def nameAt : List Char → Option (List Char × List Char)
  | '\x60' :: rest =>
      let name := rest.takeWhile (· != '\x60')
      if rest.length = name.length then none else some (name, rest.drop (name.length + 1))
  | _ => none

/-- A number standing alone at a text's start, and what follows it: digits, with digits behind a dot or without, and
neither a word character nor a dot on either side. -/
def numberAt (before : Option Char) (text : List Char) : Option (List Char × List Char) :=
  let joins := fun c : Char => classes.word c || c == '.'
  let whole := text.takeWhile classes.digit
  let rest := text.drop whole.length
  let fraction := match rest with
    | '.' :: behind => if behind.takeWhile classes.digit = [] then [] else '.' :: behind.takeWhile classes.digit
    | _ => []
  let behind := rest.drop fraction.length
  if whole = [] ∨ before.any joins ∨ behind.head?.any joins then none else some (whole ++ fraction, behind)

/-- The pieces of a text of at most `fuel` characters, behind the character before it. -/
def piecesFrom : ℕ → Option Char → List Char → List Piece
  | 0, _, _ => []
  | _, _, [] => []
  | fuel + 1, before, c :: rest =>
      match linkAt classes (c :: rest), nameAt (c :: rest), numberAt classes before (c :: rest) with
      | some (link, behind), _, _ => .link link :: piecesFrom fuel link.getLast? behind
      | none, some (name, behind), _ => .named name :: piecesFrom fuel (some '\x60') behind
      | none, none, some (number, behind) => .number number :: piecesFrom fuel number.getLast? behind
      | none, none, none => .plain c :: piecesFrom fuel (some c) rest

/-- The pieces of a message. -/
def pieces (message : String) : List Piece := piecesFrom classes message.length none message.toList

/-- What a piece leaves in the template: itself, or a hole. -/
def Piece.template : Piece → List Char
  | plain c => [c]
  | link text => text
  | named _ => ['_']
  | number _ => ['_']

/-- The names a message quotes in backticks, in order. -/
def quoted (message : String) : List String :=
  (pieces classes message).filterMap fun piece => match piece with
    | .named text => if text = [] then none else some (String.ofList text)
    | _ => none

/-- What follows the next hole of a list of holes, where one stands behind a separator. -/
def behindSeparator : List Char → Option (List Char)
  | ',' :: ' ' :: '_' :: rest => some rest
  | ',' :: ' ' :: 'a' :: 'n' :: 'd' :: ' ' :: '_' :: rest => some rest
  | ' ' :: 'a' :: 'n' :: 'd' :: ' ' :: '_' :: rest => some rest
  | '|' :: '_' :: rest => some rest
  | _ => none

/-- What follows a list's last hole. -/
def behindList : ℕ → List Char → List Char
  | 0, text => text
  | fuel + 1, text => match behindSeparator text with
    | none => text
    | some rest => behindList fuel rest

/-- A template with each list of holes as one hole. -/
def listed : ℕ → List Char → List Char
  | 0, text => text
  | _, [] => []
  | fuel + 1, '_' :: rest => '_' :: listed fuel (behindList rest.length rest)
  | fuel + 1, c :: rest => c :: listed fuel rest

/-- The shape of a message. -/
def shape (message : String) : String :=
  let template := (pieces classes message).flatMap Piece.template
  String.ofList (listed template.length template)

example : shape ⟨Char.isDigit, fun c => c.isAlphanum || c == '_', (· == ' ')⟩
    "\x60a\x60, \x60b\x60 and \x60c\x60 hold 41 rows; see http://x.y/1" = "_ hold _ rows; see http://x.y/1" := by
  decide +kernel

/-! Where a finding is found -/

/-- The last name of a path. -/
def baseName (path : String) : String :=
  String.ofList (((path.toList.splitOn '/').filter fun name => !(name == [] || name == ['.'])).getLast?.getD [])

/-- What a path's name ends in from its last dot, the dots it opens with left aside. -/
def suffix (path : String) : List Char :=
  let name := (baseName path).toList.dropWhile (· == '.')
  let behind := (name.reverse.takeWhile (· != '.')).reverse
  if behind.length = name.length then [] else '.' :: behind

/-- A text without the blanks around it. -/
def strip (text : String) : String :=
  String.ofList ((text.toList.dropWhile classes.space).reverse.dropWhile classes.space).reverse

/-- One finding: its path, its line (0 for none), its column and its message. -/
structure Row where
  path : String
  line : ℕ
  column : ℕ
  message : String
  deriving DecidableEq

/-- What places a finding in its file, its path aside: the stripped text of its line; the file's name, where it is on
no line or its path cannot be read; in prose, which is rewrapped, the names its message quotes. -/
def anchor (lines : String → Option (List String)) (row : Row) : String :=
  if suffix row.path = ".md".toList ∨ suffix row.path = ".tex".toList then "|".intercalate (quoted classes row.message)
  else match lines row.path with
    | none => baseName row.path
    | some texts => if row.line < 1 then baseName row.path else (texts[row.line - 1]?.map (strip classes)).getD ""

end Mainboard.Findings
