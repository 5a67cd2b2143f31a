/-!
# UTF-8

Decoding of bytes to text, one byte at a time. Bytes that no character can hold do not stop the
decoder: each longest run that starts a character and cannot be finished becomes one U+FFFD, and
so does each byte that cannot start a character. A byte order mark at the start can be dropped.

* `decode` is total; `decodeMarked` keeps a byte order mark, `decode` drops one.
* `encode` gives the bytes of a text.
-/

namespace Bestiary.Text

/-- The character put in place of bytes that encode nothing. -/
def replacement : Char := '\uFFFD'

/-- The mark that may stand in front of a document. -/
def byteOrderMark : Char := '\uFEFF'

/-- A character under way: how many bytes are owed, the range that the next one must lie in, and
the number that the bytes so far stand for. -/
structure Pending where
  owed : Nat
  low : Nat
  high : Nat
  code : Nat

/-- What a first byte means: a whole character, the start of a longer one, or nothing. -/
inductive FirstByte where
  | whole (c : Char)
  | starts (p : Pending)
  | invalid

/-- The meaning of a byte that stands between characters. The ranges leave out overlong forms,
surrogates and numbers above U+10FFFF. -/
def firstByte (b : Nat) : FirstByte :=
  if b < 0x80 then .whole (Char.ofNat b)
  else if b < 0xC2 then .invalid
  else if b < 0xE0 then .starts ⟨1, 0x80, 0xBF, b - 0xC0⟩
  else if b = 0xE0 then .starts ⟨2, 0xA0, 0xBF, 0⟩
  else if b = 0xED then .starts ⟨2, 0x80, 0x9F, 0xD⟩
  else if b < 0xF0 then .starts ⟨2, 0x80, 0xBF, b - 0xE0⟩
  else if b = 0xF0 then .starts ⟨3, 0x90, 0xBF, 0⟩
  else if b < 0xF4 then .starts ⟨3, 0x80, 0xBF, b - 0xF0⟩
  else if b = 0xF4 then .starts ⟨3, 0x80, 0x8F, 4⟩
  else .invalid

/-- The characters that the bytes stand for, with `pending` read so far. -/
def decodeFrom : Option Pending → List UInt8 → List Char
  | none, [] => []
  | some _, [] => [replacement]
  | none, b :: bs => start b.toNat bs
  | some p, b :: bs =>
    if p.low ≤ b.toNat ∧ b.toNat ≤ p.high then
      let code := p.code * 0x40 + (b.toNat - 0x80)
      if p.owed ≤ 1 then Char.ofNat code :: decodeFrom none bs
      else decodeFrom (some ⟨p.owed - 1, 0x80, 0xBF, code⟩) bs
    else replacement :: start b.toNat bs
where
  /-- Reads on from byte `b`, which stands between characters. -/
  start (b : Nat) (bs : List UInt8) : List Char :=
    match firstByte b with
    | .whole c => c :: decodeFrom none bs
    | .starts p => decodeFrom (some p) bs
    | .invalid => replacement :: decodeFrom none bs

/-- The text of the bytes, a byte order mark kept. -/
def decodeMarked (bytes : List UInt8) : String := String.ofList (decodeFrom none bytes)

/-- The text of the bytes; one byte order mark at the start is dropped. -/
def decode (bytes : List UInt8) : String :=
  match decodeFrom none bytes with
  | c :: cs => if c = byteOrderMark then String.ofList cs else String.ofList (c :: cs)
  | [] => ""

/-- The bytes of a text. -/
def encode (s : String) : List UInt8 := s.toUTF8.toList

end Bestiary.Text
