import Logline.Text.Utf8

/-!
Byte sequences made visible as text: characters stay as they are, and each run of bytes that start
no character stands as hexadecimal digits between `«x` and `»`.

Escaped that text is the inside of a JSON string. What is not ASCII text is either a `\u` escape
(controls up to U+009F, and in two halves what lies beyond U+FFFF) or stands as it is. The escaped
text is produced in the chunks it is handed on in, and no chunk ends inside a character or an escape.
-/

namespace Logline.Text

/-! ### Bytes made visible -/

/-- An upper-case hexadecimal digit. -/
def hexLetter (n : Nat) : Char := Char.ofNat (if n < 10 then 0x30 + n else 0x37 + n)

/-- `within` holds inside a run of bytes that start no character. -/
def visibleSegments : Bool → List Segment → List Char
  | within, [] => if within then ['»'] else []
  | within, .char c :: rest => (if within then ['»', c] else [c]) ++ visibleSegments false rest
  | within, .bad b :: rest =>
    (if within then [] else ['«', 'x']) ++
      hexLetter (b.toNat / 16) :: hexLetter (b.toNat % 16) :: visibleSegments true rest

def visible (s : Bytes) : String := String.ofList (visibleSegments false (segments s))

/-! ### Escaping -/

/-- Characters that need no escape: printable ASCII but the quote and the backslash. -/
def isPlain (c : Char) : Bool :=
  0x20 ≤ c.toNat && c.toNat < 0x7F && c ≠ '"' && c ≠ '\\'

def hexDigit (n : Nat) : UInt8 := UInt8.ofNat (if n < 10 then 0x30 + n else 0x37 + n)

/-- `\uXXXX` for a 16-bit unit. -/
def unitEscape (n : Nat) : Bytes :=
  bytes "\\u" ++ [hexDigit (n / 0x1000 % 16), hexDigit (n / 0x100 % 16), hexDigit (n / 16 % 16),
    hexDigit (n % 16)]

/-- The letter of a two-character escape. -/
def namedEscape? (c : Char) : Option Char :=
  match c.toNat with
  | 0x22 => some '"'
  | 0x5C => some '\\'
  | 0x08 => some 'b'
  | 0x0C => some 'f'
  | 0x0A => some 'n'
  | 0x0D => some 'r'
  | 0x09 => some 't'
  | _ => none

/-- The chunks of a character that is not plain. -/
def charChunks (c : Char) : List Bytes :=
  let n := c.toNat
  match namedEscape? c with
  | some letter => [encode ['\\', letter]]
  | none =>
    if n < 0xA0 then [unitEscape n]
    else if n < 0x10000 then [encodeChar c]
    else [unitEscape (0xD800 + (n - 0x10000) / 0x400), unitEscape (0xDC00 + (n - 0x10000) % 0x400)]

def hexByte (b : UInt8) : Bytes := [hexDigit (b.toNat / 16), hexDigit (b.toNat % 16)]

namespace Segment

def isPlain : Segment → Bool
  | .char c => Text.isPlain c
  | .bad _ => false

def isBad : Segment → Bool
  | .char _ => false
  | .bad _ => true

/-- Whether two neighbours belong to one run: of plain characters, or of bad bytes. -/
def joins (a b : Segment) : Bool := (a.isPlain && b.isPlain) || (a.isBad && b.isBad)

def plainBytes : Segment → Bytes
  | .char c => encodeChar c
  | .bad b => [b]

/-- The chunks of a segment within its run. -/
def chunks : Segment → List Bytes
  | .char c => charChunks c
  | .bad b => [hexByte b]

end Segment

/-- A run of plain characters is one chunk; a run of bad bytes stands between `«x` and `»`. -/
def runChunks (run : List Segment) : List Bytes :=
  if run.any Segment.isBad then bytes "«x" :: run.flatMap Segment.chunks ++ [bytes "»"]
  else if run.all Segment.isPlain then [run.flatMap Segment.plainBytes]
  else run.flatMap Segment.chunks

def escapeSegments (s : List Segment) : List Bytes :=
  (s.splitBy Segment.joins).flatMap runChunks

/-- The escaped form of any byte sequence. -/
def escapeBytes (s : Bytes) : List Bytes := escapeSegments (segments s)

/-- The escaped form of a text. -/
def escapeText (s : String) : List Bytes := escapeSegments (s.toList.map .char)

end Logline.Text
