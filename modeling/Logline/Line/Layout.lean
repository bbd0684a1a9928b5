import Logline.Line.Writing

/-!
How the parts of a line follow each other. Without labels a line is an array: time, level, what is
said, context, module. With labels it is an object with these as members, where a blank message
label puts the message into the arguments and a blank context label lifts the context pairs up to
the members.
-/

namespace Logline.Layout

open Script

/-- A timestamp in quotes. Date and time are parted by a blank in an array and by a `T` in an
object. -/
def timestamp (s : Settings) (now : Clock → Moment) : Script :=
  itemMark :: text "\"" ::
    ((now s.clock).pieces (if s.labels.isNone then " " else "T")).map text ++
      [text "Z\"", .owe true]

def head (s : Settings) (now : Clock → Moment) (severity : Severity) : Script :=
  match s.labels with
  | none => opening "[" ++ timestamp s now ++ quote (s.levelText severity.name)
  | some l =>
    opening "\x7b" ++ key l.time ++ timestamp s now ++ key l.level ++
      quote (s.levelText severity.name)

/-- Cloud logging turns an object with nothing but a message into plain text; one member more keeps
it an object. -/
def cloudMember (s : Settings) (alone : Bool) : Script :=
  if s.inCloud && alone then
    (Writing.plain [text "1"] []).member (key "json")
  else []

/-- What a line says. `bare` holds if the handle adds no context. -/
def body {α : Type} (s : Settings) (bare : Bool) (form : Form α) (args : List (Value × Writing)) :
    Script :=
  let ws := args.map Prod.snd
  match s.labels, form with
  | none, .list _ => match ws with
    | [w] => w.item
    | ws => listed ws
  | none, .messageList message _ =>
    if ws.isEmpty then quote message else messageListed message ws
  | none, .map _ => bracedScript (tokens args)
  | none, .messageMap message _ =>
    quote message ++ if args.isEmpty then [] else bracedScript (tokens args)
  | some l, .list _ => match ws with
    | [w] =>
      if l.message = "" then key l.arguments ++ listed ws
      else w.member (key l.message) ++ cloudMember s bare
    | ws => key l.arguments ++ listed ws
  | some l, .messageList message _ =>
    if l.message = "" then key l.arguments ++ messageListed message ws
    else
      key l.message ++ quote message ++
        if ws.isEmpty then cloudMember s bare else key l.arguments ++ listed ws
  | some _, .map _ => tokens args
  | some l, .messageMap message _ =>
    key (if l.message = "" then "msg" else l.message) ++ quote message ++ tokens args ++
      cloudMember s (bare && args.isEmpty)

def contextPart (s : Settings) (context : List (String × Writing)) : Script :=
  if context.isEmpty then []
  else match s.labels with
    | none => bracedScript (members context)
    | some l =>
      if l.context = "" then members context else key l.context ++ bracedScript (members context)

def modulePart (s : Settings) (module : Option String) : Script :=
  match module, s.labels with
  | none, _ => []
  | some name, none => quote ("mod=" ++ name)
  | some name, some l => key l.module ++ quote name

def tail (s : Settings) (context : List (String × Writing)) (module : Option String) : Script :=
  contextPart s context ++ modulePart s module ++
    [text (if s.labels.isSome then "\x7d\n" else "]\n"), .owe false]

/-- A whole line. -/
def line {α : Type} (now : Clock → Moment) (w : Writer α) (form : Form α)
    (args : List (Value × Writing)) (context : List (String × Writing)) : Script :=
  head w.settings now w.severity ++ body w.settings context.isEmpty form args ++
    tail w.settings context w.module

def route {α : Type} (w : Writer α) : Route :=
  ⟨w.settings.outputFor w.severity, w.settings.reportErrors, w.severity⟩

end Logline.Layout
