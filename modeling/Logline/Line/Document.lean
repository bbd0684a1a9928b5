import Logline.Settings
import Logline.Value.Meaning

/-!
The document a line holds: an array of time, level, what is said, context and module, or an object
with these as members.
-/

namespace Logline.Document

/-- Items of an array that say what a line says. -/
def items {α : Type} (form : Form α) (args : List (Value × Meaning)) : List Json :=
  let ms := args.map Prod.snd
  match form with
  | .list _ => match ms with
    | [m] => m.item.toList
    | ms => [.array (Meaning.items ms)]
  | .messageList message _ =>
    if ms.isEmpty then [.string message] else [.array (.string message :: Meaning.items ms)]
  | .map _ => [.object (Meaning.tokens args)]
  | .messageMap message _ =>
    .string message :: if args.isEmpty then [] else [.object (Meaning.tokens args)]

/-- The member that keeps an object with nothing but a message from becoming plain text. -/
def cloudMember (s : Settings) (alone : Bool) : List (String × Json) :=
  if s.inCloud && alone then [("json", .number "1")] else []

/-- Members of an object that say what a line says. `bare` holds if there is no context. -/
def members {α : Type} (s : Settings) (l : Labels) (bare : Bool) (form : Form α)
    (args : List (Value × Meaning)) : List (String × Json) :=
  let ms := args.map Prod.snd
  match form with
  | .list _ => match ms with
    | [m] =>
      if l.message = "" then [(l.arguments, .array m.item.toList)]
      else Meaning.members [(l.message, m)] ++ cloudMember s bare
    | ms => [(l.arguments, .array (Meaning.items ms))]
  | .messageList message _ =>
    if l.message = "" then [(l.arguments, .array (.string message :: Meaning.items ms))]
    else if ms.isEmpty then (l.message, .string message) :: cloudMember s bare
    else [(l.message, .string message), (l.arguments, .array (Meaning.items ms))]
  | .map _ => Meaning.tokens args
  | .messageMap message _ =>
    (if l.message = "" then "msg" else l.message, .string message) :: Meaning.tokens args ++
      cloudMember s (bare && args.isEmpty)

/-- The document of a line, at a given time. -/
def ofLine (now : Clock → Moment) (w : Writer Value) (form : Form Value) : Json :=
  let s := w.settings
  let args := Value.meanings form.args
  let context := Meaning.members (Value.entryMeanings w.context)
  let level : Json := .string (s.levelText w.severity.name)
  match s.labels with
  | none =>
    .array <| .string ((now s.clock).text " ") :: level :: items form args ++
      (if w.context.isEmpty then [] else [.object context]) ++
        (w.module.map fun name => .string ("mod=" ++ name)).toList
  | some l =>
    .object <| (l.time, .string ((now s.clock).text "T")) :: (l.level, level) ::
      members s l w.context.isEmpty form args ++
        (if w.context.isEmpty then []
          else if l.context = "" then context else [(l.context, .object context)]) ++
            (w.module.map fun name => (l.module, .string name)).toList

end Logline.Document
