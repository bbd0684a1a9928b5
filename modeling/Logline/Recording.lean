import Logline.Value.Basic

/-!
The fields of spans and events. A field called `message` that is a text, or something shown, is
the message and is kept apart; of several the last one is. All other fields are pairs in the order
they were recorded.
-/

namespace Logline

inductive FieldValue where
  | text (s : String)
  /-- How something is shown to a programmer. -/
  | shown (s : String)
  | error (text : String)
  | value (v : Value)

structure Recording where
  message : Option String
  tokens : List Value

namespace Recording

def empty : Recording := ⟨none, []⟩

def messageName : String := "message"

def pair (r : Recording) (name : String) (v : Value) : Recording :=
  { r with tokens := r.tokens ++ [.str name, v] }

def visit (r : Recording) (name : String) : FieldValue → Recording
  | .text s => if name = messageName then { r with message := some s } else r.pair name (.str s)
  | .shown s => if name = messageName then { r with message := some s } else r.pair name (.str s)
  | .error s => r.pair name (.str s)
  | .value v => r.pair name v

def ofFields (fields : List (String × FieldValue)) : Recording :=
  fields.foldl (fun r f => r.visit f.1 f.2) .empty

/-- With the message as the first of the pairs. -/
def allTokens (r : Recording) : List Value :=
  match r.message with
  | some m => .str messageName :: .str m :: r.tokens
  | none => r.tokens

end Recording

end Logline
