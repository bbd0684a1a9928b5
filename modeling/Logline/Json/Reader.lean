import Logline.Json.Document

/-!
Reading JSON. The reader takes every text the grammar of JSON allows and no other, keeps members
in order with repeated keys, and keeps the spelling of numbers. Half a surrogate pair alone is
refused, since it stands for no character.
-/

namespace Logline.Json

def isBlank (c : Char) : Bool := c = ' ' || c = '\n' || c = '\r' || c = '\t'

def skipBlanks (s : List Char) : List Char := s.dropWhile isBlank

def hexValue? (c : Char) : Option Nat :=
  if '0' ≤ c && c ≤ '9' then some (c.toNat - 0x30)
  else if 'a' ≤ c && c ≤ 'f' then some (c.toNat - 0x57)
  else if 'A' ≤ c && c ≤ 'F' then some (c.toNat - 0x37)
  else none

def unit? (a b c d : Char) : Option Nat := do
  return (((← hexValue? a) * 16 + (← hexValue? b)) * 16 + (← hexValue? c)) * 16 + (← hexValue? d)

/-- The character a single 16-bit unit stands for; none for half a pair. -/
def unitChar? (n : Nat) : Option Char :=
  if 0xD800 ≤ n && n < 0xE000 then none else some (Char.ofNat n)

/-- The character two 16-bit units stand for together. -/
def pairChar? (high low : Nat) : Option Char :=
  if 0xD800 ≤ high && high < 0xDC00 && 0xDC00 ≤ low && low < 0xE000 then
    some (Char.ofNat (0x10000 + (high - 0xD800) * 0x400 + (low - 0xDC00)))
  else none

def unescape? : Char → Option Char
  | '"' => some '"'
  | '\\' => some '\\'
  | '/' => some '/'
  | 'b' => some '\x08'
  | 'f' => some '\x0c'
  | 'n' => some '\n'
  | 'r' => some '\r'
  | 't' => some '\t'
  | _ => none

/-- The rest of a string, after its opening quote, and what follows the closing one. -/
def readString : List Char → Option (List Char × List Char)
  | '"' :: rest => some ([], rest)
  | '\\' :: 'u' :: a :: b :: c :: d :: '\\' :: 'u' :: e :: f :: g :: h :: rest => do
    let n ← unit? a b c d
    match unitChar? n with
    | some x =>
      let (cs, rest) ← readString ('\\' :: 'u' :: e :: f :: g :: h :: rest)
      return (x :: cs, rest)
    | none =>
      let x ← pairChar? n (← unit? e f g h)
      let (cs, rest) ← readString rest
      return (x :: cs, rest)
  | '\\' :: 'u' :: a :: b :: c :: d :: rest => do
    let x ← unitChar? (← unit? a b c d)
    let (cs, rest) ← readString rest
    return (x :: cs, rest)
  | '\\' :: c :: rest => do
    let x ← unescape? c
    let (cs, rest) ← readString rest
    return (x :: cs, rest)
  | c :: rest => do
    if c.toNat < 0x20 || c = '\\' then none
    let (cs, rest) ← readString rest
    return (c :: cs, rest)
  | [] => none
termination_by structural s => s

/-- One digit at least. -/
def readDigits (s : List Char) : Option (List Char × List Char) :=
  match s.takeWhile Char.isDigit with
  | [] => none
  | ds => some (ds, s.dropWhile Char.isDigit)

def readSign : List Char → List Char × List Char
  | '-' :: rest => (['-'], rest)
  | s => ([], s)

def readExponentSign : List Char → List Char × List Char
  | '-' :: rest => (['-'], rest)
  | '+' :: rest => (['+'], rest)
  | s => ([], s)

/-- Only a lone zero may be a leading zero. -/
def readWhole (s : List Char) : Option (List Char × List Char) :=
  match s with
  | '0' :: rest => some (['0'], rest)
  | _ => readDigits s

def readFraction : List Char → Option (List Char × List Char)
  | '.' :: rest => (readDigits rest).map fun (ds, rest) => ('.' :: ds, rest)
  | s => some ([], s)

def readExponent (s : List Char) : Option (List Char × List Char) :=
  match s with
  | c :: rest =>
    if c = 'e' || c = 'E' then
      let (sign, rest) := readExponentSign rest
      (readDigits rest).map fun (ds, rest) => (c :: sign ++ ds, rest)
    else some ([], s)
  | [] => some ([], [])

def readNumber (s : List Char) : Option (List Char × List Char) := do
  let (sign, s) := readSign s
  let (whole, s) ← readWhole s
  let (fraction, s) ← readFraction s
  let (exponent, s) ← readExponent s
  return (sign ++ whole ++ fraction ++ exponent, s)

mutual

/-- A document at the start of a text, read to the given depth, and the rest of the text. -/
def readValue : Nat → List Char → Option (Json × List Char)
  | 0, _ => none
  | fuel + 1, s => match skipBlanks s with
    | 'n' :: 'u' :: 'l' :: 'l' :: rest => some (.null, rest)
    | 't' :: 'r' :: 'u' :: 'e' :: rest => some (.bool true, rest)
    | 'f' :: 'a' :: 'l' :: 's' :: 'e' :: rest => some (.bool false, rest)
    | '"' :: rest => do
      let (cs, rest) ← readString rest
      return (.string (String.ofList cs), rest)
    | '[' :: rest => match skipBlanks rest with
      | ']' :: rest => some (.array [], rest)
      | rest => do
        let (items, rest) ← readItems fuel rest
        return (.array items, rest)
    | '\x7b' :: rest => match skipBlanks rest with
      | '\x7d' :: rest => some (.object [], rest)
      | rest => do
        let (members, rest) ← readMembers fuel rest
        return (.object members, rest)
    | rest => do
      let (text, rest) ← readNumber rest
      return (.number (String.ofList text), rest)
termination_by structural fuel => fuel

/-- Items up to the closing bracket, one at least. -/
def readItems : Nat → List Char → Option (List Json × List Char)
  | 0, _ => none
  | fuel + 1, s => do
    let (item, s) ← readValue fuel s
    match skipBlanks s with
    | ']' :: rest => return ([item], rest)
    | ',' :: rest =>
      let (items, rest) ← readItems fuel rest
      return (item :: items, rest)
    | _ => none
termination_by structural fuel => fuel

/-- Members up to the closing brace, one at least. -/
def readMembers : Nat → List Char → Option (List (String × Json) × List Char)
  | 0, _ => none
  | fuel + 1, s => match skipBlanks s with
    | '"' :: rest => do
      let (key, rest) ← readString rest
      match skipBlanks rest with
      | ':' :: rest =>
        let (value, rest) ← readValue fuel rest
        match skipBlanks rest with
        | '\x7d' :: rest => return ([(String.ofList key, value)], rest)
        | ',' :: rest =>
          let (members, rest) ← readMembers fuel rest
          return ((String.ofList key, value) :: members, rest)
        | _ => none
      | _ => none
    | _ => none
termination_by structural fuel => fuel

end

/-- The document a text holds, blanks around it allowed. Every step of the reader takes at least
one character, so the length of the text bounds its depth. -/
def read? (s : String) : Option Json := do
  let cs := s.toList
  let (v, rest) ← readValue (2 * cs.length + 2) cs
  if (skipBlanks rest).isEmpty then some v else none

end Logline.Json
