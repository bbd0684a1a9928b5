import Logline.Settings
import Logline.Value.Pairs
import Logline.Text.Utf8

/-!
Values, and the code of callers that values can bring along. A deferred value, an error, a
displayed or a marshalled thing is computed by its owner's code only when a line needs it; such
code may take its time, write lines of its own, or panic before it comes to its result. It is
described here by what it does, so that writing a line stays a function.
-/

namespace Logline

/-- What a token list takes in the place of a key: drop the value that follows, or take its pairs
as if they stood here. -/
inductive Marker where
  | skip
  | inline
deriving DecidableEq, Repr

/-- An integer of at most 128 bits, signed or unsigned. -/
structure Integer where
  val : Int
  range : -0x80000000000000000000000000000000 ≤ val ∧ val < 0x100000000000000000000000000000000
deriving DecidableEq

/-- A count; beyond 128 bits there are none. -/
def Integer.ofNat (n : Nat) : Integer :=
  if h : n < 0x100000000000000000000000000000000 then ⟨n, by omega⟩
  else ⟨0xFFFFFFFFFFFFFFFFFFFFFFFFFFFFFFFF, by omega⟩

def Integer.ofInt? (n : Int) : Option Integer :=
  if h : -0x80000000000000000000000000000000 ≤ n ∧ n < 0x100000000000000000000000000000000 then
    some ⟨n, h⟩
  else none

/-- What is handed to a line, besides the handle's own: values one after the other, or alternating
keys and values, with a message or without. -/
inductive Form (α : Type) where
  | list (args : List α)
  | messageList (message : String) (args : List α)
  | map (tokens : List α)
  | messageMap (message : String) (tokens : List α)

/-- A handle that writes: its severity, the pairs it adds to each line, the module it names. -/
structure Writer (α : Type) where
  stamp : Nat
  severity : Severity
  context : Pairs α
  module : Option String
  settings : Settings

/-- Handles of levels that are switched off are all one, and do nothing. -/
inductive Handle (α : Type) where
  | disabled
  | enabled (w : Writer α)

/-- What the code of a caller does on its way. -/
inductive Effect (α : Type) where
  /-- Runs for longer than a line that holds the output lock waits. -/
  | slow
  | log (handle : Handle α) (form : Form α)

/-- Code of a caller: its effects in order, and the message if it panics in the end. The label is
the caller's own, to tell codes apart. -/
structure Code (α : Type) where
  label : Nat
  effects : List (Effect α)
  panics : Option String

/-- How a thing is shown to a programmer: by code of its owner, which comes to a text. -/
structure Showing (α : Type) where
  code : Code α
  text : String

inductive Value where
  | null
  | str (text : String)
  | bytes (raw : Text.Bytes)
  | int (n : Integer)
  | single (bits : UInt32)
  | double (bits : UInt64)
  | bool (b : Bool)
  | strs (texts : List String)
  | list (items : List Value)
  | map (pairs : Pairs Value)
  /-- Alternating keys and values, as they come. -/
  | raw (tokens : List Value)
  /-- Members in no particular order, with keys all different. -/
  | object (members : List (String × Value))
  | error (code : Code Value) (text : String)
  | display (code : Code Value) (text : String)
  /-- Yields JSON or the text of an error; where it is an error, and where the thing is a key, the
  thing itself is shown. -/
  | marshal (code : Code Value) (result : Except String Text.Bytes) (thing : Showing Value)
  | lazy (code : Code Value) (result : Value)
  | marker (m : Marker)

namespace Code

variable {α : Type}

/-- Code that does nothing but come to its result. -/
def prompt : Code α := ⟨0, [], none⟩

end Code

/-- A text that is at hand. -/
instance : Coe String (Showing Value) := ⟨fun text => ⟨.prompt, text⟩⟩

namespace Value

def isEmptyMap : Value → Bool
  | .map p => p.isEmpty
  | _ => false

def isNull : Value → Bool
  | .null => true
  | _ => false

def marker? : Value → Option Marker
  | .marker m => some m
  | _ => none

/-- The key `label`, or a marker that drops the pair if the condition holds. -/
def unlessKey (condition : Bool) (label : String) : Value :=
  if condition then .marker .skip else .str label

end Value

namespace Form

variable {α : Type}

def args : Form α → List α
  | .list args => args
  | .messageList _ args => args
  | .map tokens => tokens
  | .messageMap _ tokens => tokens

end Form

end Logline
