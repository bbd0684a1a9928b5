/-!
UTF-8 as byte sequences. `encode` writes characters, `first?` reads the character a sequence
starts with, and `segments` cuts any sequence into characters and bytes that start none.
What `encode` writes is cut into its characters (`Utf8/RoundTrip`).
-/

namespace Logline.Text

abbrev Bytes := List UInt8

/-- A continuation byte carrying the low six bits of `n`. -/
def continuation (n : Nat) : UInt8 := UInt8.ofNat (0x80 + n % 0x40)

def encodeChar (c : Char) : Bytes :=
  let n := c.toNat
  if n < 0x80 then [UInt8.ofNat n]
  else if n < 0x800 then [UInt8.ofNat (0xC0 + n / 0x40), continuation n]
  else if n < 0x10000 then
    [UInt8.ofNat (0xE0 + n / 0x1000), continuation (n / 0x40), continuation n]
  else
    [UInt8.ofNat (0xF0 + n / 0x40000), continuation (n / 0x1000), continuation (n / 0x40),
      continuation n]

def encode (cs : List Char) : Bytes := cs.flatMap encodeChar

/-- The bytes of a text. -/
def bytes (s : String) : Bytes := encode s.toList

def isContinuation (b : UInt8) : Bool := 0x80 ≤ b.toNat && b.toNat < 0xC0

/-- What a byte from 0xC2 to 0xF4 announces: how many bytes follow it, which range the first of
them lies in, and the high bits it carries itself. -/
structure Lead where
  more : Nat
  low : Nat
  high : Nat
  bits : Nat

/-- The ranges leave out overlong forms, surrogates and what lies beyond U+10FFFF. -/
def Lead.of? (b : UInt8) : Option Lead :=
  let n := b.toNat
  if n < 0xC2 then none
  else if n < 0xE0 then some ⟨1, 0x80, 0xBF, n - 0xC0⟩
  else if n = 0xE0 then some ⟨2, 0xA0, 0xBF, 0⟩
  else if n = 0xED then some ⟨2, 0x80, 0x9F, 0xD⟩
  else if n < 0xF0 then some ⟨2, 0x80, 0xBF, n - 0xE0⟩
  else if n = 0xF0 then some ⟨3, 0x90, 0xBF, 0⟩
  else if n < 0xF4 then some ⟨3, 0x80, 0xBF, n - 0xF0⟩
  else if n = 0xF4 then some ⟨3, 0x80, 0x8F, 4⟩
  else none

/-- How many of the following bytes go on with the character, at most `more`. -/
def Lead.goesOn (l : Lead) : Bytes → Nat
  | [] => 0
  | b :: rest =>
    if l.low ≤ b.toNat && b.toNat ≤ l.high then
      1 + ((rest.take (l.more - 1)).takeWhile isContinuation).length
    else 0

def Lead.char (l : Lead) (rest : Bytes) : Char :=
  Char.ofNat ((rest.take l.more).foldl (fun n b => n * 0x40 + b.toNat % 0x40) l.bits)

/-- The character at the start of a byte sequence, with the number of bytes it takes. -/
def first? : Bytes → Option (Char × Nat)
  | [] => none
  | b :: rest =>
    if b.toNat < 0x80 then some (Char.ofNat b.toNat, 1)
    else match Lead.of? b with
      | none => none
      | some l => if l.goesOn rest = l.more then some (l.char rest, l.more + 1) else none

/-- How long the longest start of a character is that opens a sequence which `first?` refuses. -/
def badLength : Bytes → Nat
  | [] => 0
  | b :: rest => match Lead.of? b with
    | none => 1
    | some l => 1 + l.goesOn rest

/-- A part of a byte sequence: a character, or a byte at which none starts. -/
inductive Segment where
  | char (c : Char)
  | bad (b : UInt8)
deriving Repr, DecidableEq

/-- Cuts a sequence whose first `skip` bytes belong to a character already read. -/
def segmentsFrom : Nat → Bytes → List Segment
  | _, [] => []
  | skip + 1, _ :: rest => segmentsFrom skip rest
  | 0, b :: rest => match first? (b :: rest) with
    | some (c, n) => .char c :: segmentsFrom (n - 1) rest
    | none => .bad b :: segmentsFrom 0 rest

def segments (s : Bytes) : List Segment := segmentsFrom 0 s

def lossyFrom : Nat → Bytes → List Char
  | _, [] => []
  | skip + 1, _ :: rest => lossyFrom skip rest
  | 0, b :: rest => match first? (b :: rest) with
    | some (c, n) => c :: lossyFrom (n - 1) rest
    | none => '\ufffd' :: lossyFrom (badLength (b :: rest) - 1) rest

/-- The text of a byte sequence, each longest start of a character that goes no further, and each
byte that starts none, read as U+FFFD. -/
def lossy (s : Bytes) : String := String.ofList (lossyFrom 0 s)

/-- The text of a well-formed byte sequence. -/
def decode? (s : Bytes) : Option String :=
  let cut := segments s
  if cut.all (fun | .char _ => true | .bad _ => false) then
    some (String.ofList (cut.filterMap (fun | .char c => some c | .bad _ => none)))
  else none

end Logline.Text
