import Bestiary.Data.Narrow
import Bestiary.Text.Utf8
import Bestiary.Toml.Reader

/-!
# Documents as values

A document text is read and narrowed to a table of values. What goes wrong is a `ParseError`, which
knows the source and, for a fault of the text, the line.

* `Toml.parse` reads a text, `Toml.parseBytes` bytes, `Toml.Content.parse` either.
* `Loose.toValue` only narrows.
-/

namespace Bestiary

/-- Why data from a source could not be taken as a value. -/
inductive ParseCause where
  | malformed (fault : Toml.Fault) (line : Nat)
  | outside (error : NarrowError)

/-- A refusal of data from a source. -/
structure ParseError where
  cause : ParseCause
  source : Option String

namespace ParseError

/-- The line of a fault in a text. -/
def line? (e : ParseError) : Option Nat :=
  match e.cause with
  | .malformed _ line => some line
  | .outside _ => none

/-- What is wrong, without the place. -/
def detail (e : ParseError) : String :=
  match e.cause with
  | .malformed fault _ => s!"Invalid TOML document: {fault.message}"
  | .outside error => error.message

/-- The place as messages name it: the source and the line, as far as they are known. -/
def place (e : ParseError) : String :=
  ", ".intercalate <| e.source.toList ++ e.line?.toList.map fun n => s!"line {n}"

/-- The whole message. -/
def message (e : ParseError) : String :=
  if e.place = "" then s!"Parse error: {e.detail}" else s!"Parse error ({e.place}): {e.detail}"

end ParseError

/-- The value that data from a source is. -/
def Loose.toValue (d : Loose) (source : Option String) : Except ParseError Value :=
  match d.narrow with
  | .ok v => .ok v
  | .error e => .error ⟨.outside e, source⟩

namespace Toml

/-- The table of a document text. -/
def parse (text : String) (source : Option String) : Except ParseError (Table Value) :=
  match readDocument text.toList with
  | .error stop => .error ⟨.malformed stop.fault (stop.line text.toList), source⟩
  | .ok entries =>
    match Loose.narrowEntries [] entries with
    | .ok table => .ok table
    | .error e => .error ⟨.outside e, source⟩

/-- The table of a document given as bytes; one byte order mark is dropped before it is read. -/
def parseBytes (bytes : List UInt8) (source : Option String) : Except ParseError (Table Value) :=
  parse (Text.decode bytes) source

/-- The content of a document: a text, or the bytes that it is encoded in. -/
inductive Content where
  | text (s : String)
  | bytes (bs : List UInt8)

/-- The table of a document. -/
def Content.parse (c : Content) (source : Option String) : Except ParseError (Table Value) :=
  match c with
  | .text s => Toml.parse s source
  | .bytes bs => parseBytes bs source

end Toml

end Bestiary
