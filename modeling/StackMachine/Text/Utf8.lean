-- SUMMARY: UTF-8: encoding, scanning bytes into characters and malformed stretches, strict and lossy decoding.
import StackMachine.Bytes
import StackMachine.Text.Decimal

/-!
# UTF-8

`Utf8.scan` reads a byte string one byte at a time and cuts it into characters
and malformed stretches. A malformed stretch is as long as some well-formed
character could have begun that way, and the byte that breaks it off is read
again as the start of what follows. Strict decoding refuses the first malformed
stretch and says where it is; lossy decoding puts `U+FFFD` in place of each.
-/

namespace StackMachine.Utf8

/-- The bytes that encode a text. -/
def encode (t : Text) : Bytes :=
  t.flatMap String.utf8EncodeChar

/-! ## Scanning -/

/-- What a stretch of bytes is. -/
inductive Piece where
  | char (c : Char)
  /-- Bytes that begin a character and are followed by one that cannot go on. -/
  | malformed (length : Nat)
  /-- Bytes that begin a character at the end of the input. -/
  | truncated
  deriving DecidableEq, Repr

/-- A character that has begun: the bytes read, the value they carry, the
    number of bytes still missing and the range of the next one. -/
structure Partial where
  read : Nat
  value : Nat
  missing : Nat
  low : UInt8
  high : UInt8
  deriving DecidableEq, Repr

/-- The character that `lead` begins with `missing` bytes to come. The more of
    them, the fewer low bits of `lead` belong to the value. -/
def Partial.ofLead (lead : UInt8) (missing : Nat) (low high : UInt8) : Partial :=
  ⟨1, lead.toNat % (64 >>> missing), missing, low, high⟩

/-- Read a byte between characters: what it completes, and what it begins. The
    range of the second byte keeps out overlong forms, surrogates and values
    above `U+10FFFF`. -/
def start (b : UInt8) : List Piece × Option Partial :=
  if b < 0x80 then ([.char (Char.ofNat b.toNat)], none)
  else if b < 0xC2 then ([.malformed 1], none)
  else if b < 0xE0 then ([], some (.ofLead b 1 0x80 0xBF))
  else if b = 0xE0 then ([], some (.ofLead b 2 0xA0 0xBF))
  else if b = 0xED then ([], some (.ofLead b 2 0x80 0x9F))
  else if b < 0xF0 then ([], some (.ofLead b 2 0x80 0xBF))
  else if b = 0xF0 then ([], some (.ofLead b 3 0x90 0xBF))
  else if b < 0xF4 then ([], some (.ofLead b 3 0x80 0xBF))
  else if b = 0xF4 then ([], some (.ofLead b 3 0x80 0x8F))
  else ([.malformed 1], none)

/-- Read a byte inside a character, or break the character off and read the
    byte as a new start. -/
def Partial.next (p : Partial) (b : UInt8) : List Piece × Option Partial :=
  if p.low ≤ b ∧ b ≤ p.high then
    let value := p.value * 64 + b.toNat % 64
    if p.missing = 1 then ([.char (Char.ofNat value)], none)
    else ([], some ⟨p.read + 1, value, p.missing - 1, 0x80, 0xBF⟩)
  else
    let (pieces, rest) := start b
    (.malformed p.read :: pieces, rest)

/-- The pieces of the bytes that follow an unfinished character, if any. -/
def scanFrom : Option Partial → Bytes → List Piece
  | none, [] => []
  | some _, [] => [.truncated]
  | none, b :: bytes =>
    let (pieces, rest) := start b
    pieces ++ scanFrom rest bytes
  | some p, b :: bytes =>
    let (pieces, rest) := p.next b
    pieces ++ scanFrom rest bytes

/-- Cut a byte string into characters and malformed stretches. -/
def scan (bytes : Bytes) : List Piece :=
  scanFrom none bytes

/-! ## Lossy decoding -/

/-- The character that stands for a piece. -/
def Piece.toChar : Piece → Char
  | .char c => c
  | .malformed _ => '\uFFFD'
  | .truncated => '\uFFFD'

/-- Decode with a replacement character for each malformed stretch. -/
def decodeLossy (bytes : Bytes) : Text :=
  (scan bytes).map Piece.toChar

/-! ## Strict decoding -/

/-- Why bytes are no UTF-8, and after how many well-formed bytes. -/
inductive Error where
  | malformed (index length : Nat)
  | truncated (index : Nat)
  deriving DecidableEq, Repr

def Error.message : Error → Text
  | .malformed index length =>
    "invalid utf-8 sequence of ".toList ++ Decimal.ofNat length
      ++ " bytes from index ".toList ++ Decimal.ofNat index
  | .truncated index =>
    "incomplete utf-8 byte sequence from index ".toList ++ Decimal.ofNat index

/-- The text of the pieces, the first of which begins at `index`. -/
def join? (index : Nat) : List Piece → Except Error Text
  | [] => .ok []
  | .char c :: pieces => (join? (index + c.utf8Size) pieces).map (c :: ·)
  | .malformed length :: _ => .error (.malformed index length)
  | .truncated :: _ => .error (.truncated index)

/-- Decode well-formed bytes, or say where the first malformed stretch is. -/
def decode? (bytes : Bytes) : Except Error Text :=
  join? 0 (scan bytes)

end StackMachine.Utf8
