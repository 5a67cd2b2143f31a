import Bestiary.Text.Digits
import Bestiary.Toml.Fault

/-!
# Quoted texts

Basic texts stand between double quotes and know escapes, literal texts between single quotes
know none. Three quotes open a text of several lines: a line end right after them is dropped, and
up to two quotes in front of the closing three belong to the text.

* `readQuoted` reads a text from its opening quote on.
-/

namespace Bestiary.Toml

/-! ## Escapes -/

/-- The character that a letter after a backslash stands for. -/
def escaped? : Char → Option Char
  | 'b' => some '\x08'
  | 't' => some '\t'
  | 'n' => some '\n'
  | 'f' => some '\x0c'
  | 'r' => some '\r'
  | 'e' => some '\x1b'
  | '"' => some '"'
  | '\\' => some '\\'
  | _ => none

/-- The number of hexadecimal digits after an escape letter that takes some. -/
def hexWidth? : Char → Option Nat
  | 'x' => some 2
  | 'u' => some 4
  | 'U' => some 8
  | _ => none

/-- The character with a number; none for a surrogate or a number past U+10FFFF. -/
def scalar? (n : Nat) : Option Char :=
  if h : n.isValidChar then some (Char.ofNatAux n h) else none

/-- What is wrong with `width` hexadecimal digits at the front of `cs`, or their character.
`escape` is the text from the backslash on. -/
def hexEscape (escape cs : List Char) (width : Nat) : Except Stop Char :=
  let digits := cs.take width
  let good := digits.takeWhile fun c => (Text.hexValue? c).isSome
  if good.length < width then .error ⟨.hexDigit, cs.drop good.length⟩
  else
    match scalar? (Text.numeral 16 digits) with
    | some c => .ok c
    | none => .error ⟨.unicodeEscape, escape⟩

/-- The check that a line end comes after the blanks in front. `escape` is the text from the
backslash on, `start` that from the opening quote on. -/
def checkLineEnd (start escape cs : List Char) : Except Stop Unit :=
  match skipBlanks cs with
  | [] => .error ⟨.unfinishedText, start⟩
  | c :: rest =>
    if c = '\n' || endsLine c rest then .ok ()
    else if isControl c then .error ⟨.textCharacter, c :: rest⟩
    else .error ⟨.escapedBlank, escape⟩

/-- Whether a character is dropped after a backslash at the end of a line: a blank or a part of a
line end. -/
def isTrimmed (c : Char) (rest : List Char) : Bool := isBlank c || c = '\n' || endsLine c rest

/-! ## Bodies -/

/-- What follows the quotes at the front of `cs`, if they close a text of several lines: the quotes
that still belong to the text, and the rest. -/
def closing? (quote : Char) (cs : List Char) : Option (List Char × List Char) :=
  let run := (cs.take 5).takeWhile (· = quote)
  if run.length < 3 then none else some (run.drop 3, cs.drop run.length)

/-- Whether a character may not stand in a text. -/
def refusedInText (multi : Bool) (c : Char) (rest : List Char) : Bool :=
  isControl c && !(multi && (c = '\n' || endsLine c rest))

/-- The characters of a basic text up to its end. `start` is the text from its opening quote on;
`trimming` says that a backslash at a line end came before. `skip` characters at the front have
been read already. -/
def readBasic (start : List Char) (multi : Bool) :
    (trimming : Bool) → (skip : Nat) → List Char → Except Stop (WithRest (List Char))
  | _, _, [] => .error ⟨.unfinishedText, start⟩
  | trimming, skip + 1, _ :: rest => readBasic start multi trimming skip rest
  | trimming, 0, c :: rest =>
    if trimming && isTrimmed c rest then readBasic start multi true 0 rest
    else if c = '"' then
      if multi then
        match closing? '"' (c :: rest) with
        | some end_ => .ok end_
        | none => (readBasic start multi false 0 rest).map fun (cs, rest) => (c :: cs, rest)
      else .ok ([], rest)
    else if c = '\\' then
      match rest with
      | [] => .error ⟨.unfinishedText, start⟩
      | letter :: digits =>
        if refusedInText multi letter digits then .error ⟨.textCharacter, rest⟩
        else if multi && isTrimmed letter digits then do
          checkLineEnd start (c :: rest) rest
          readBasic start multi true 0 rest
        else
          match hexWidth? letter with
          | some width => do
            let e ← hexEscape (c :: rest) digits width
            let (cs, rest) ← readBasic start multi false (width + 1) rest
            pure (e :: cs, rest)
          | none =>
            match escaped? letter with
            | some e => (readBasic start multi false 1 rest).map fun (cs, rest) => (e :: cs, rest)
            | none => .error ⟨.unknownEscape, rest⟩
    else if refusedInText multi c rest then .error ⟨.textCharacter, c :: rest⟩
    else (readBasic start multi false 0 rest).map fun (cs, rest) => (c :: cs, rest)

/-- The characters of a literal text up to its end. -/
def readLiteral (start : List Char) (multi : Bool) : List Char → Except Stop (WithRest (List Char))
  | [] => .error ⟨.unfinishedText, start⟩
  | c :: rest =>
    if c = '\'' then
      if multi then
        match closing? '\'' (c :: rest) with
        | some end_ => .ok end_
        | none => (readLiteral start multi rest).map fun (cs, rest) => (c :: cs, rest)
      else .ok ([], rest)
    else if refusedInText multi c rest then .error ⟨.textCharacter, c :: rest⟩
    else (readLiteral start multi rest).map fun (cs, rest) => (c :: cs, rest)

/-- The characters after a line end in front. -/
def dropLineEnd : List Char → List Char
  | '\n' :: rest => rest
  | '\r' :: '\n' :: rest => rest
  | cs => cs

/-- Whether three quotes stand in front. -/
def opensLines (quote : Char) (cs : List Char) : Bool := cs.take 3 = List.replicate 3 quote

/-- A text from its opening quote on. -/
def readQuoted (quote : Char) (cs : List Char) : Except Stop (WithRest String) :=
  let multi := opensLines quote cs
  let body := if multi then dropLineEnd (cs.drop 3) else cs.drop 1
  let read := if quote = '"' then readBasic cs multi false 0 body else readLiteral cs multi body
  read.map fun (text, rest) => (String.ofList text, rest)

end Bestiary.Toml
