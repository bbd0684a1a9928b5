import Logline.Decimal.Notation
import Logline.Text.Quoted
import Logline.Value.Basic

/-!
Values as text: as they are shown to a programmer, and as the text they have in the place of a
key. Neither looks into a deferred value, except that one standing as a key is asked for its
result.
-/

namespace Logline.Value

def binary? : Value → Option Decimal.Binary
  | .single bits => some (Decimal.Format.single.read bits.toNat)
  | .double bits => some (Decimal.Format.double.read bits.toNat)
  | _ => none

def spelled (s : Decimal.Spelling) (v : Value) : String :=
  match v.binary? with
  | some x => s.text x
  | none => ""

def boolText (b : Bool) : String := if b then "true" else "false"

def Marker.shown : Marker → String
  | .skip => "Skip"
  | .inline => "Inline"

def bracketed (items : List String) : String := "[" ++ ", ".intercalate items ++ "]"

def braced (entries : List (String × String)) : String :=
  "\x7b" ++ ", ".intercalate (entries.map fun e => Text.quoted e.1 ++ ": " ++ e.2) ++ "\x7d"

mutual

/-- A value as it is shown to a programmer. -/
def shown : Value → String
  | .null => "null"
  | .str text => Text.quoted text
  | .bytes bs => "b" ++ Text.quoted (Text.lossy bs)
  | .int n => Decimal.intText n.val
  | .single bits => spelled .shown (.single bits)
  | .double bits => spelled .shown (.double bits)
  | .bool b => boolText b
  | .strs texts => bracketed (texts.map Text.quoted)
  | .list items => bracketed (shownItems items)
  | .map pairs => shownPairs pairs
  | .raw tokens => "RawMap(" ++ bracketed (shownItems tokens) ++ ")"
  | .object members => braced (shownEntries members)
  | .error _ text => "Error(" ++ text ++ ")"
  | .display _ text => "Display(" ++ text ++ ")"
  | .marshal _ _ thing => thing.text
  | .lazy _ _ => "Lazy(..)"
  | .marker m => Marker.shown m
termination_by structural v => v

def shownItems : List Value → List String
  | [] => []
  | v :: rest => v.shown :: shownItems rest
termination_by structural vs => vs

def shownEntries : List (String × Value) → List (String × String)
  | [] => []
  | (key, v) :: rest => (key, v.shown) :: shownEntries rest
termination_by structural es => es

def shownPairs : Pairs Value → String
  | ⟨_, entries⟩ => braced (shownEntries entries)
termination_by structural p => p

end

/-- A value in the place of a key. Texts stand as they are. -/
def keyText : Value → String
  | .null => "null"
  | .str text => text
  | .bytes bs => Text.lossy bs
  | .int n => Decimal.intText n.val
  | .single bits => spelled .plain (.single bits)
  | .double bits => spelled .plain (.double bits)
  | .bool b => boolText b
  | .error _ text => text
  | .display _ text => text
  | .lazy _ result => result.keyText
  | v => v.shown
termination_by structural v => v

end Logline.Value
