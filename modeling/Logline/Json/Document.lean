import Logline.Text.Quoted

/-!
JSON documents. Members keep their order and repeated keys are kept apart, numbers keep their
spelling: a document is exactly what a text of JSON says.
-/

namespace Logline

inductive Json where
  | null
  | bool (b : Bool)
  | number (text : String)
  | string (text : String)
  | array (items : List Json)
  | object (members : List (String × Json))

namespace Json

/-- Lower-case hexadecimal, at least two digits. -/
def hexPair (n : Nat) : String :=
  (if n < 16 then "0" else "") ++ Text.hexText n

/-- Only the quote, the backslash and what is below U+0020 is escaped. -/
def compactChar (c : Char) : String :=
  match c.toNat with
  | 0x22 => "\\\""
  | 0x5C => "\\\\"
  | 0x08 => "\\b"
  | 0x0C => "\\f"
  | 0x0A => "\\n"
  | 0x0D => "\\r"
  | 0x09 => "\\t"
  | n => if n < 0x20 then "\\u00" ++ hexPair n else c.toString

def compactString (s : String) : String :=
  "\"" ++ String.join (s.toList.map compactChar) ++ "\""

mutual

/-- The text of a document without any blanks. -/
def compact : Json → String
  | .null => "null"
  | .bool b => if b then "true" else "false"
  | .number text => text
  | .string text => compactString text
  | .array items => "[" ++ ",".intercalate (compactItems items) ++ "]"
  | .object members => "\x7b" ++ ",".intercalate (compactMembers members) ++ "\x7d"
termination_by structural v => v

def compactItems : List Json → List String
  | [] => []
  | v :: rest => v.compact :: compactItems rest
termination_by structural vs => vs

def compactMembers : List (String × Json) → List String
  | [] => []
  | (key, v) :: rest => (compactString key ++ ":" ++ v.compact) :: compactMembers rest
termination_by structural ms => ms

end

mutual

/-- A document as it is shown to a programmer. -/
def shown : Json → String
  | .null => "Null"
  | .bool b => "Bool(" ++ (if b then "true" else "false") ++ ")"
  | .number text => "Number(" ++ text ++ ")"
  | .string text => "String(" ++ Text.quoted text ++ ")"
  | .array items => "Array [" ++ ", ".intercalate (shownItems items) ++ "]"
  | .object members => "Object \x7b" ++ ", ".intercalate (shownMembers members) ++ "\x7d"
termination_by structural v => v

def shownItems : List Json → List String
  | [] => []
  | v :: rest => v.shown :: shownItems rest
termination_by structural vs => vs

def shownMembers : List (String × Json) → List String
  | [] => []
  | (key, v) :: rest => (Text.quoted key ++ ": " ++ v.shown) :: shownMembers rest
termination_by structural ms => ms

end

end Json

end Logline
