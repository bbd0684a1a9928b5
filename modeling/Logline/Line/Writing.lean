import Logline.Line.Script
import Logline.Text.Escaped
import Logline.Value.Text

/-!
The ways a value is written: as an item of a list, as the value of a member, or with its pairs
spliced into an object around it. Values that vanish, which are empty maps, leave no trace as an
item or a member, not even a key.
-/

namespace Logline

namespace Script

def text (s : String) : Instr := .chunk (Text.bytes s)

/-- A script that is made when the line comes to it. -/
def later (made : Unit → Script) : Instr := .later fun _ => .block (made ())

/-- A separator between items. -/
def itemMark : Instr := .separate (Text.bytes ", ")

/-- A separator between members. -/
def memberMark : Instr := .separate (Text.bytes ",")

/-- A quoted text, given in escaped chunks. -/
def quoteChunks (chunks : List Text.Bytes) : Script :=
  itemMark :: text "\"" :: chunks.map .chunk ++ [text "\"", .owe true]

def quote (s : String) : Script := quoteChunks (Text.escapeText s)

def quoteBytes (s : Text.Bytes) : Script := quoteChunks (Text.escapeBytes s)

def opening (bracket : String) : Script := [itemMark, text bracket, .owe false]

def closing (bracket : String) : Script := [text bracket, .owe true]

def key (label : String) : Script :=
  memberMark :: .owe false :: quote label ++ [text ":", .owe false]

/-- An item of any kind: room for a number is asked for before it is known what it is. -/
def framed (body : Script) : Script :=
  [itemMark, .owe false, .reserve 64, .block body, .owe true]

/-- Stands for a value whose code did not answer in time. -/
def lateText : String :=
  "func call took more than 10ms while lager lock held (log line was already over 16KiB)"

def lateItem : Script := framed (quote lateText)

end Script

open Script

structure Writing where
  item : Script
  /-- Takes the script of the key. -/
  member : Script → Script
  /-- The pairs alone, or a member that tells that there are none. -/
  splice : Script
  /-- What the codes do that are run for its text as a key. A deferred value is not looked into before
  it stands as one. -/
  keyActs : Unit → List Act
  /-- What the codes do that are run for showing it. -/
  shownActs : List Act

namespace Writing

/-- The key under which a value without pairs is spliced in. -/
def cannotInline : Script := key "cannot-inline"

/-- A value that is neither deferred nor has pairs. -/
def plain (body : Script) (acts : List Act) : Writing where
  item := framed body
  member k := k ++ framed body
  splice := cannotInline ++ framed body
  keyActs _ := acts
  shownActs := acts

/-- A value that has pairs. They are made only where they are spliced in, since their keys may be
long texts. -/
def paired (body : Script) (pairs : Unit → Script) (acts : List Act) : Writing :=
  { plain body acts with splice := [later pairs] }

/-- The empty map. -/
def nothing : Writing where
  item := []
  member _ := []
  splice := []
  keyActs _ := []
  shownActs := []

/-- A deferred value is asked before anything of its member is written; the result then stands as
an item after the key, unless it is the empty map. -/
def deferred (acts : List Act) (isEmptyMap : Bool) (result : Unit → Writing) : Writing :=
  let item := later fun _ => (result ()).item
  { item := [.guarded acts [item] lateItem]
    member := fun k => [.guarded acts (if isEmptyMap then [] else k ++ [item]) (k ++ lateItem)]
    splice := [.guarded acts [later fun _ => (result ()).splice] (cannotInline ++ lateItem)]
    keyActs := fun _ => acts ++ (result ()).keyActs ()
    shownActs := [] }

def null : Writing := plain [text "null"] []

end Writing

namespace Script

def items (ws : List Writing) : Script := ws.flatMap Writing.item

def listed (ws : List Writing) : Script := opening "[" ++ items ws ++ closing "]"

def members (es : List (String × Writing)) : Script := es.flatMap fun e => e.2.member (key e.1)

/-- Alternating keys and values. A key that comes last has no value, which counts as null. -/
def tokens : List (Value × Writing) → Script
  | [] => []
  | [(k, kw)] => match k.marker? with
    | some _ => []
    | none => .direct (kw.keyActs ()) :: Writing.null.member (key k.keyText)
  | (k, kw) :: (_, vw) :: rest =>
    (match k.marker? with
      | some .skip => []
      | some .inline => vw.splice
      | none => .direct (kw.keyActs ()) :: vw.member (key k.keyText)) ++ tokens rest

def bracedScript (body : Script) : Script := opening "\x7b" ++ body ++ closing "\x7d"

/-- A message and the items after it in one list. -/
def messageListed (message : String) (ws : List Writing) : Script :=
  opening "[" ++ quote message ++ items ws ++ closing "]"

end Script

end Logline
