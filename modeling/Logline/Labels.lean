import Logline.Text.Quoted
import Logline.Text.Split

/-!
The six member labels of lines written as JSON objects. A blank `message` label puts the message
into the list of arguments, a blank `context` label puts the context pairs among the members; the
other four must not be blank.
-/

namespace Logline

structure Labels where
  time : String
  level : String
  message : String
  arguments : String
  context : String
  module : String
deriving DecidableEq, Repr

inductive LabelsError where
  | arity (found : Nat) (text : String)
  | blank (text : String)
deriving DecidableEq, Repr

def LabelsError.message : LabelsError → String
  | .arity found text =>
    "expected 6 comma-separated labels, found " ++ String.ofList (Nat.toDigits 10 found) ++ " in " ++
      Text.quoted text
  | .blank text =>
    "only keys for msg and ctx can be blank, not in " ++ Text.quoted text

namespace Labels

def toList (l : Labels) : List String :=
  [l.time, l.level, l.message, l.arguments, l.context, l.module]

def text (l : Labels) : String := ",".intercalate l.toList

def valid (l : Labels) : Bool :=
  l.time ≠ "" && l.level ≠ "" && l.arguments ≠ "" && l.module ≠ ""

def check (l : Labels) : Except LabelsError Labels :=
  if l.valid then .ok l else .error (.blank l.text)

/-- Six labels separated by commas. -/
def parse (s : String) : Except LabelsError Labels :=
  match Text.splitText ',' s with
  | [time, level, message, arguments, context, module] =>
    check ⟨time, level, message, arguments, context, module⟩
  | parts => .error (.arity parts.length s)

/-- What cloud logging understands. -/
def cloud : Labels := ⟨"time", "severity", "message", "data", "", "module"⟩

end Labels

end Logline
