import UiLint.Toml.Scalar
import UiLint.Toml.Table

/-! Reading TOML documents. Every step of a reader uses up a character, so the length of
the document bounds the number of steps. -/
namespace UiLint.Toml

mutual

/-- A value at a depth of nesting. -/
def value? (steps depth : Nat) (cs : List Char) : Option (Datum × List Char) :=
  match steps with
  | 0 => none
  | steps + 1 =>
    match cs with
    | '"' :: _ => (string? cs).map fun read => (.text read.1, read.2)
    | '\'' :: _ => (string? cs).map fun read => (.text read.1, read.2)
    | '[' :: rest =>
      if depth + 1 < nestingBound then
        match skipFiller? false rest with
        | some (']' :: rest) => some (.list [], rest)
        | some rest => (items? steps (depth + 1) rest).map fun read => (.list read.1, read.2)
        | none => none
      else none
    | '\x7b' :: rest =>
      if depth + 1 < nestingBound then
        match skipGaps rest with
        | '\x7d' :: rest => some (.table [], rest)
        | rest =>
          (pairs? steps (depth + 1) .fresh rest).map fun read => (read.1.toDatum, read.2)
      else none
    | _ => scalar? cs

/-- The items of a list up to its end. A comma may follow the last. -/
def items? (steps depth : Nat) (cs : List Char) : Option (List Datum × List Char) :=
  match steps with
  | 0 => none
  | steps + 1 =>
    match value? steps depth cs with
    | none => none
    | some (item, rest) =>
      match skipFiller? false rest with
      | some (']' :: rest) => some ([item], rest)
      | some (',' :: rest) =>
        match skipFiller? false rest with
        | some (']' :: rest) => some ([item], rest)
        | some rest => (items? steps depth rest).map fun read => (item :: read.1, read.2)
        | none => none
      | _ => none

/-- The pairs of a table in braces up to its end. No comma follows the last, and no newline
stands between them. -/
def pairs? (steps depth : Nat) (table : Table) (cs : List Char) : Option (Table × List Char) :=
  match steps with
  | 0 => none
  | steps + 1 =>
    match key? cs with
    | some (key, '=' :: rest) =>
      match value? steps depth (skipGaps rest) with
      | none => none
      | some (value, rest) =>
        match table.assign key value, skipGaps rest with
        | some table, '\x7d' :: rest => some (table, rest)
        | some table, ',' :: rest => pairs? steps depth table rest
        | _, _ => none
    | _ => none

end

/-- Read lines into a document. `header` leads to the table that key and value pairs
belong to. -/
def lines? (steps : Nat) (document : Table) (header : List String) (cs : List Char) :
    Option Table :=
  match steps with
  | 0 => none
  | steps + 1 =>
    match skipGaps cs with
    | [] => some document
    | '\n' :: rest => lines? steps document header rest
    | '#' :: rest =>
      match skipLineEnd? ('#' :: rest) with
      | some rest => lines? steps document header rest
      | none => none
    | '[' :: '[' :: rest =>
      match key? rest with
      | some (key, ']' :: ']' :: rest) =>
        match document.append key, skipLineEnd? rest with
        | some document, some rest => lines? steps document key rest
        | _, _ => none
      | _ => none
    | '[' :: rest =>
      match key? rest with
      | some (key, ']' :: rest) =>
        match document.define key, skipLineEnd? rest with
        | some document, some rest => lines? steps document key rest
        | _, _ => none
      | _ => none
    | cs =>
      match key? cs with
      | some (key, '=' :: rest) =>
        match value? (2 * rest.length + 2) 0 (skipGaps rest) with
        | some (value, rest) =>
          match document.alter false (·.assign key value) header, skipLineEnd? rest with
          | some document, some rest => lines? steps document header rest
          | _, _ => none
        | none => none
      | _ => none

/-- The characters without a byte order mark at their front. -/
def dropByteOrderMark : List Char → List Char
  | '\uFEFF' :: rest => rest
  | cs => cs

/-- The data of a TOML document, if it is one. -/
def read? (document : String) : Option Datum :=
  let cs := joinLineEnds (dropByteOrderMark document.toList)
  (lines? (cs.length + 1) .fresh [] cs).map Table.toDatum

end UiLint.Toml
