import Logline.Json.Document
import Logline.Value.Failure
import Logline.Value.Text

/-!
Things that turn themselves into JSON when a line asks for it: documents, numbers, texts, maps
with integer keys. Maps come in the order of their keys, of equal keys the last one counts. Keys
that are no text cannot be turned into JSON.
-/

namespace Logline

namespace Decimal

/-- Numbers as they stand in marshalled JSON; ties go to the even digit, a whole number ends in
`.0`, and every exponent has a sign. What is no number is null. -/
def Spelling.marshalled (least greatest : Int) : Spelling :=
  ⟨.even, fun _ d => least ≤ d.order && d.order ≤ greatest, true, true, "null", "null", "null"⟩

def Spelling.marshalledDouble : Spelling := .marshalled (-5) 15

def Spelling.marshalledSingle : Spelling := .marshalled (-6) 12

end Decimal

namespace Json

/-- Puts a member where its key belongs, in the place of an equal key. -/
def insertMember (key : String) (v : Json) : List (String × Json) → List (String × Json)
  | [] => [(key, v)]
  | (k, w) :: rest =>
    if k = key then (key, v) :: rest
    else if key < k then (key, v) :: (k, w) :: rest
    else (k, w) :: insertMember key v rest

mutual

/-- The document with the members of every object in the order of their keys. -/
def ordered : Json → Json
  | .array items => .array (orderedItems items)
  | .object members =>
    .object ((orderedMembers members).foldl (fun ms m => insertMember m.1 m.2 ms) [])
  | v => v
termination_by structural v => v

def orderedItems : List Json → List Json
  | [] => []
  | v :: rest => v.ordered :: orderedItems rest
termination_by structural vs => vs

def orderedMembers : List (String × Json) → List (String × Json)
  | [] => []
  | (key, v) :: rest => (key, v.ordered) :: orderedMembers rest
termination_by structural ms => ms

end

end Json

namespace Value

def marshalled (json shown : String) : Value := .marshal .prompt (.ok (Text.bytes json)) shown

/-- What cannot be turned into JSON, with the text of its own error. -/
def failing (text shown : String) : Value :=
  .marshal .prompt (.error (String.ofList (Failure.ofText text.toList).text)) shown

def ofJson (doc : Json) : Value := marshalled doc.ordered.compact doc.ordered.shown

def ofDouble (bits : UInt64) : Value :=
  let x := Decimal.Format.double.read bits.toNat
  marshalled (Decimal.Spelling.marshalledDouble.text x) (Decimal.Spelling.shown.text x)

def ofSingle (bits : UInt32) : Value :=
  let x := Decimal.Format.single.read bits.toNat
  marshalled (Decimal.Spelling.marshalledSingle.text x) (Decimal.Spelling.shown.text x)

def ofInteger (n : Int) : Value := marshalled (Decimal.intText n) (Decimal.intText n)

def ofTexts (texts : List String) : Value :=
  marshalled (Json.array (texts.map .string)).compact (bracketed (texts.map Text.quoted))

def byteTexts (bs : Text.Bytes) : List String := bs.map fun b => Decimal.intText b.toNat

def ofByteNumbers (bs : Text.Bytes) : Value :=
  marshalled (Json.array ((byteTexts bs).map .number)).compact (bracketed (byteTexts bs))

/-- Entries in the order `before` says, the last of equal ones. -/
def sortedEntries {κ : Type} [DecidableEq κ] (before : κ → κ → Bool) (entries : List (κ × String)) :
    List (κ × String) :=
  (entries.foldl (fun es e => es.filter (·.1 ≠ e.1) ++ [e]) []).mergeSort
    fun a b => before a.1 b.1

def ofIntKeys (entries : List (Int × String)) : Value :=
  let es := sortedEntries (fun a b => a ≤ b) entries
  marshalled (Json.object (es.map fun e => (Decimal.intText e.1, .string e.2))).compact
    ("\x7b" ++ ", ".intercalate (es.map fun e => Decimal.intText e.1 ++ ": " ++ Text.quoted e.2) ++
      "\x7d")

def bytesBefore : Text.Bytes → Text.Bytes → Bool
  | [], _ => true
  | _ :: _, [] => false
  | a :: as, b :: bs => a < b || (a == b && bytesBefore as bs)

def ofByteKeys (entries : List (Text.Bytes × String)) : Value :=
  let es := sortedEntries bytesBefore entries
  let shown := "\x7b" ++
    ", ".intercalate (es.map fun e => bracketed (byteTexts e.1) ++ ": " ++ Text.quoted e.2) ++ "\x7d"
  if es.isEmpty then marshalled "\x7b\x7d" shown
  else failing "key must be a string" shown

end Value

end Logline
