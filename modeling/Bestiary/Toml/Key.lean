import Bestiary.Toml.QuotedText

/-!
# Keys

A key is one or more parts joined by dots, each bare or quoted, with blanks allowed around them.
It reaches up to an end character, `=` or `]`.
-/

namespace Bestiary.Toml

/-- Whether a character may stand in a bare key. -/
def isBare (c : Char) : Bool :=
  ('a' ≤ c && c ≤ 'z') || ('A' ≤ c && c ≤ 'Z') || Text.isDigit c || c = '-' || c = '_'

/-- One part of a key. -/
def readKeyPart (start : List Char) (stop : Char) (cs : List Char) :
    Except Stop (WithRest String) :=
  match cs with
  | [] => .error ⟨.unfinishedKey, start⟩
  | c :: _ =>
    if c = '\x00' then .error ⟨.unfinishedKey, start⟩
    else if c = stop then .error ⟨.endOfKey, cs⟩
    else if c = '.' then .error ⟨.emptyBareKey, cs⟩
    else if c = '"' || c = '\'' then
      if opensLines c cs then .error ⟨.multilineKey, cs⟩ else readQuoted c cs
    else if isBare c then .ok (String.ofList (cs.takeWhile isBare), cs.dropWhile isBare)
    else .error ⟨.keyCharacter, cs⟩

/-- The parts of a key up to its end character, which is read too. `start` is the text from the
key on. -/
def readKeyParts (start : List Char) (stop : Char) :
    Nat → List Char → Except Stop (WithRest (List String))
  | 0, cs => .error ⟨.unfinishedKey, cs⟩
  | fuel + 1, cs => do
    let (part, rest) ← readKeyPart start stop (skipBlanks cs)
    match skipBlanks rest with
    | [] => .error ⟨.unfinishedKey, start⟩
    | c :: rest =>
      if c = '.' then
        let (parts, rest) ← readKeyParts start stop fuel rest
        pure (part :: parts, rest)
      else if c = stop then pure ([part], rest)
      else if c = '\x00' then .error ⟨.unfinishedKey, start⟩
      else .error ⟨.keyCharacter, c :: rest⟩

/-- A key up to its end character, which is read too. -/
def readKey (stop : Char) (cs : List Char) : Except Stop (WithRest (List String)) :=
  readKeyParts cs stop (cs.length + 1) cs

end Bestiary.Toml
