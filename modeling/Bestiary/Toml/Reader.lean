import Bestiary.Toml.Draft
import Bestiary.Toml.Key
import Bestiary.Toml.Moment
import Bestiary.Toml.Numeral

/-!
# Reading documents

A document is a list of declarations, one a line: a key with its value, the header of a table, or
the header of one more table of a series. Values are texts, numbers, truth values, moments, arrays
and inline tables; arrays and inline tables may run over several lines.

* `readValue` reads one value; `readDocument` reads a document from its first character on.
-/

namespace Bestiary.Toml

/-- How deep arrays and inline tables may stand inside each other. -/
def nestingLimit : Nat := 1000

/-! ## Values -/

/-- The characters after an expected word. -/
def readWord (word : String) (d : Loose) (cs : List Char) : Except Stop (WithRest Loose) :=
  if cs.take word.length = word.toList then .ok (d, cs.drop word.length)
  else .error ⟨.invalidValue, cs⟩

/-- A number or a moment. -/
def readScalar (closing : Option Char) (cs : List Char) : Except Stop (WithRest Loose) :=
  match cs with
  | '+' :: _ => readNumeral closing cs
  | '-' :: _ => readNumeral closing cs
  | _ =>
    if looksLikeDate cs then
      if digitsFirst 4 cs then readDate cs else readNumeral closing cs
    else if looksLikeTime cs then
      if digitsFirst 2 cs then readTime cs else readNumeral closing cs
    else readNumeral closing cs

mutual

/-- A value. `depth` more structures may be opened; `closing` is the bracket that ends the
structure around it. -/
def readValue : (fuel depth : Nat) → (closing : Option Char) → List Char →
    Except Stop (WithRest Loose)
  | 0, _, _, cs => .error ⟨.invalidValue, cs⟩
  | fuel + 1, depth, closing, cs =>
    match cs with
    | '[' :: rest =>
      if depth = 0 then .error ⟨.nesting, cs⟩
      else do
        let (items, rest) ← readArray fuel (depth - 1) cs rest
        pure (.list items, rest)
    | '{' :: rest =>
      if depth = 0 then .error ⟨.nesting, cs⟩
      else do
        let (entries, rest) ← readInline fuel (depth - 1) cs [] rest
        pure (.table (Draft.finishEntries entries), rest)
    | '"' :: _ => (readQuoted '"' cs).map fun (s, rest) => (.text s, rest)
    | '\'' :: _ => (readQuoted '\'' cs).map fun (s, rest) => (.text s, rest)
    | 't' :: _ => readWord "true" (.flag true) cs
    | 'f' :: _ => readWord "false" (.flag false) cs
    | _ => readScalar closing cs

/-- The items of an array up to its closing bracket. `start` is the text from its opening bracket
on. -/
def readArray : (fuel depth : Nat) → (start : List Char) → List Char →
    Except Stop (WithRest (List Loose))
  | 0, _, start, _ => .error ⟨.unfinishedArray, start⟩
  | _ + 1, _, start, [] => .error ⟨.unfinishedArray, start⟩
  | fuel + 1, depth, start, cs => do
    match ← skipVoid false cs with
    | ']' :: rest => pure ([], rest)
    | cs =>
      let (item, rest) ← readValue fuel depth (some ']') cs
      match ← skipVoid false rest with
      | ',' :: rest =>
        let (items, rest) ← readArray fuel depth start rest
        pure (item :: items, rest)
      | ']' :: rest => pure ([item], rest)
      | rest => .error ⟨.separator, rest⟩

/-- The entries of an inline table up to its closing brace, after those in `entries`. -/
def readInline : (fuel depth : Nat) → (start : List Char) → Table Draft → List Char →
    Except Stop (WithRest (Table Draft))
  | 0, _, start, _, _ => .error ⟨.unfinishedTable, start⟩
  | _ + 1, _, start, _, [] => .error ⟨.unfinishedTable, start⟩
  | fuel + 1, depth, start, entries, cs => do
    match ← skipVoid false cs with
    | '}' :: rest => pure (entries, rest)
    | cs =>
      let (key, rest) ← readKey '=' cs
      if !Draft.admits entries key then .error ⟨.redefinedValue, cs⟩
      else
        let (d, rest) ← readValue fuel depth (some '}') (skipBlanks rest)
        let entries := (Draft.assign? entries key d).getD entries
        match ← skipVoid false rest with
        | ',' :: rest => readInline fuel depth start entries rest
        | '}' :: rest => pure (entries, rest)
        | rest => .error ⟨.separator, rest⟩

end

/-! ## Documents -/

/-- A document as read so far, and the key of the table that declarations go to. -/
structure Progress where
  entries : Table Draft := []
  current : List String := []

/-- The header of a table, after its bracket. -/
def readHeader (p : Progress) (cs : List Char) : Except Stop (WithRest Progress) := do
  let (key, rest) ← readKey ']' cs
  match Draft.openTable? p.entries key with
  | some entries => pure ({ entries, current := key }, rest)
  | none => .error ⟨.redefinedEntry, cs⟩

/-- The second closing bracket of a header in double brackets. -/
def readSecondBracket : List Char → Except Stop (List Char)
  | ']' :: rest => .ok rest
  | rest => .error ⟨.tableArrayEnd, rest⟩

/-- The header of one more table of a series, after its brackets. -/
def readElementHeader (p : Progress) (cs : List Char) : Except Stop (WithRest Progress) := do
  let (key, rest) ← readKey ']' cs
  let rest ← readSecondBracket rest
  match Draft.openElement? p.entries key with
  | some entries => pure ({ entries, current := key }, rest)
  | none => .error ⟨.redefinedEntry, cs⟩

/-- A key with its value. -/
def readPair (p : Progress) (cs : List Char) : Except Stop (WithRest Progress) := do
  let (key, rest) ← readKey '=' cs
  let change (d : Loose) := Draft.changeAt? p.entries p.current (Draft.assign? · key d)
  if (change (.flag true)).isNone then .error ⟨.redefinedEntry, cs⟩
  else
    let (d, rest) ← readValue (2 * rest.length + 2) nestingLimit none (skipBlanks rest)
    pure ({ p with entries := (change d).getD p.entries }, rest)

/-- One declaration. -/
def readDeclaration (p : Progress) (cs : List Char) : Except Stop (WithRest Progress) :=
  match cs with
  | '[' :: '[' :: rest => readElementHeader p rest
  | '[' :: rest => readHeader p rest
  | _ => readPair p cs

/-- The rest of the line after a declaration, which may hold a comment. -/
def readLineEnd (cs : List Char) : Except Stop (List Char) := do
  match ← skipTrail cs with
  | [] => pure []
  | c :: rest =>
    if c = '\n' || endsLine c rest then pure (c :: rest) else .error ⟨.lineEnd, c :: rest⟩

/-- The declarations from `cs` on, after those in `p`. -/
def readDeclarations : (fuel : Nat) → Progress → List Char → Except Stop Progress
  | 0, p, _ => .ok p
  | fuel + 1, p, cs => do
    match ← skipVoid false cs with
    | [] => pure p
    | cs =>
      let (p, rest) ← readDeclaration p cs
      let rest ← readLineEnd rest
      readDeclarations fuel p rest

/-- A document; one byte order mark in front is dropped. -/
def readDocument (cs : List Char) : Except Stop (Table Loose) := do
  let body := match cs with
    | '\uFEFF' :: rest => rest
    | _ => cs
  let p ← readDeclarations (body.length + 1) {} body
  pure (Draft.finishEntries p.entries)

end Bestiary.Toml
