/-! The smallest parts of a TOML document: blanks, comments, line ends, strings and keys.
A reader takes characters from the front and hands back what it read with the rest.
Documents are read after each CR LF has been made a newline, so a CR that is left is
nowhere allowed. -/
namespace UiLint.Toml

/-- A reader of the front of some characters. -/
abbrev Reader (α : Type) := List Char → Option (α × List Char)

/-- The characters with each CR LF made a newline. -/
def joinLineEnds : List Char → List Char
  | '\r' :: '\n' :: rest => '\n' :: joinLineEnds rest
  | c :: rest => c :: joinLineEnds rest
  | [] => []

/-- A blank inside a line. -/
def isGap (c : Char) : Bool :=
  c == ' ' || c == '\t'

/-- A blank or a newline. -/
def isGapOrNewline (c : Char) : Bool :=
  isGap c || c == '\n'

/-- The characters that comments and single-line strings may hold: all but controls other
than the tab. -/
def isInLine (c : Char) : Bool :=
  c == '\t' || (0x20 ≤ c.toNat && c.toNat != 0x7F)

/-- What follows the blanks. -/
def skipGaps (cs : List Char) : List Char :=
  cs.dropWhile isGap

/-- What follows a comment, if there is one. -/
def skipComment : List Char → List Char
  | '#' :: rest => rest.dropWhile isInLine
  | cs => cs

/-- What follows the end of a line, at which a comment may stand. -/
def skipLineEnd? (cs : List Char) : Option (List Char) :=
  match skipComment (skipGaps cs) with
  | [] => some []
  | '\n' :: rest => some rest
  | _ => none

/-- What follows blanks, newlines and comments that end with a newline. -/
def skipFiller? (inComment : Bool) : List Char → Option (List Char)
  | [] => if inComment then none else some []
  | c :: cs =>
    if c == '\n' then skipFiller? false cs
    else if inComment then if isInLine c then skipFiller? true cs else none
    else if isGap c then skipFiller? false cs
    else if c == '#' then skipFiller? true cs
    else some (c :: cs)

/-- The value of a digit in a base of at most sixteen. -/
def digit? (base : Nat) (c : Char) : Option Nat :=
  let n := c.toNat
  let value :=
    if 0x30 ≤ n && n ≤ 0x39 then n - 0x30
    else if 0x41 ≤ n && n ≤ 0x46 then n - 0x41 + 10
    else if 0x61 ≤ n && n ≤ 0x66 then n - 0x61 + 10
    else base
  if value < base then some value else none

/-- The number that digits of a base spell. -/
def numeral? (base : Nat) (cs : List Char) : Option Nat :=
  (cs.mapM (digit? base)).map fun digits => digits.foldl (fun n d => n * base + d) 0

/-- The character with the number that `count` hexadecimal digits spell; surrogates have
none. -/
def hexChar? (count : Nat) (cs : List Char) : Option Char :=
  let digits := cs.take count
  if digits.length = count then
    (numeral? 16 digits).bind fun n => if n.isValidChar then some (Char.ofNat n) else none
  else none

/-- The character that an escape stands for, and how many characters it takes after the
backslash. -/
def escape? : List Char → Option (Char × Nat)
  | 'b' :: _ => some ('\x08', 1)
  | 't' :: _ => some ('\t', 1)
  | 'n' :: _ => some ('\n', 1)
  | 'f' :: _ => some ('\x0C', 1)
  | 'r' :: _ => some ('\r', 1)
  | '"' :: _ => some ('"', 1)
  | '\\' :: _ => some ('\\', 1)
  | 'u' :: cs => (hexChar? 4 cs).map (·, 5)
  | 'U' :: cs => (hexChar? 8 cs).map (·, 9)
  | _ => none

/-- The characters up to the closing double quote, with escapes read. -/
def basicString : Reader (List Char)
  | [] => none
  | '"' :: rest => some ([], rest)
  | '\\' :: rest =>
    match escape? rest with
    | none => none
    | some (c, count) => (basicString (rest.drop count)).map fun read => (c :: read.1, read.2)
  | c :: rest =>
    if isInLine c then (basicString rest).map fun read => (c :: read.1, read.2) else none
termination_by cs => cs.length

/-- The characters up to the closing single quote, as they stand. -/
def literalString : Reader (List Char)
  | [] => none
  | '\'' :: rest => some ([], rest)
  | c :: rest =>
    if isInLine c then (literalString rest).map fun read => (c :: read.1, read.2) else none

/-- Whether a backslash before these characters joins lines. -/
def joinsLines (cs : List Char) : Bool :=
  (skipGaps cs).head? == some '\n'

/-- The characters up to three closing double quotes. One or two quotes right before
those belong to the string, and a backslash at the end of a line joins it with the next
line that is not blank. -/
def multiLineBasic (cs : List Char) : Option (List Char × List Char) :=
  match cs with
  | [] => none
  | '"' :: '"' :: '"' :: '"' :: '"' :: rest => some (['"', '"'], rest)
  | '"' :: '"' :: '"' :: '"' :: rest => some (['"'], rest)
  | '"' :: '"' :: '"' :: rest => some ([], rest)
  | '\\' :: rest =>
    if joinsLines rest then
      have : (rest.dropWhile isGapOrNewline).length ≤ rest.length :=
        (List.dropWhile_sublist _).length_le
      multiLineBasic (rest.dropWhile isGapOrNewline)
    else
      match escape? rest with
      | none => none
      | some (c, count) => (multiLineBasic (rest.drop count)).map fun read => (c :: read.1, read.2)
  | c :: rest =>
    if isInLine c || c == '\n' then
      (multiLineBasic rest).map fun read => (c :: read.1, read.2)
    else none
termination_by cs.length

/-- The characters up to three closing single quotes. One or two quotes right before those
belong to the string. -/
def multiLineLiteral : Reader (List Char)
  | [] => none
  | '\'' :: '\'' :: '\'' :: '\'' :: '\'' :: rest => some (['\'', '\''], rest)
  | '\'' :: '\'' :: '\'' :: '\'' :: rest => some (['\''], rest)
  | '\'' :: '\'' :: '\'' :: rest => some ([], rest)
  | c :: rest =>
    if isInLine c || c == '\n' then
      (multiLineLiteral rest).map fun read => (c :: read.1, read.2)
    else none

/-- The characters without a newline at their front. -/
def dropNewline : List Char → List Char
  | '\n' :: rest => rest
  | cs => cs

/-- A string in any of the four forms. -/
def string? (cs : List Char) : Option (String × List Char) :=
  let read := match cs with
    | '"' :: '"' :: '"' :: rest => multiLineBasic (dropNewline rest)
    | '"' :: rest => basicString rest
    | '\'' :: '\'' :: '\'' :: rest => multiLineLiteral (dropNewline rest)
    | '\'' :: rest => literalString rest
    | _ => none
  read.map fun read => (String.ofList read.1, read.2)

/-- The characters of a key without quotes. -/
def isBareKey (c : Char) : Bool :=
  c.isAlphanum || c == '_' || c == '-'

/-- One part of a key. -/
def simpleKey? (cs : List Char) : Option (String × List Char) :=
  let read := match cs with
    | '"' :: rest => basicString rest
    | '\'' :: rest => literalString rest
    | _ =>
      let name := cs.takeWhile isBareKey
      if name.isEmpty then none else some (name, cs.dropWhile isBareKey)
  read.map fun read => (String.ofList read.1, read.2)

/-- The parts of a dotted key, of which there are at most `count`. -/
def keyParts? (count : Nat) (cs : List Char) : Option (List String × List Char) :=
  match count with
  | 0 => none
  | count + 1 =>
    match simpleKey? (skipGaps cs) with
    | none => none
    | some (name, rest) =>
      match skipGaps rest with
      | '.' :: rest => (keyParts? count rest).map fun read => (name :: read.1, read.2)
      | rest => some ([name], rest)

/-- Keys have fewer parts, and values are nested less deeply, than this. -/
def nestingBound : Nat := 80

/-- A key. -/
def key? (cs : List Char) : Option (List String × List Char) :=
  keyParts? (nestingBound - 1) cs

end UiLint.Toml
