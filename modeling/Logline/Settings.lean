import Logline.Labels
import Logline.Levels
import Logline.Moment
import Logline.Text.Split

/-!
How lines get written. Settings are values: a change makes new ones, and who holds the old ones
keeps writing by them.

The first settings come from the environment. A process gets its variables as entries `name=value`
and looks a name up as what an entry has before an equals sign. So a name may hold such signs itself,
and then matches entries whose own name ends earlier.
-/

namespace Logline

/-- Looks up an environment variable. -/
abbrev Environment := String → Option String

namespace Environment

/-- Entries stand in the order of the names they were made of; the first that matches counts. -/
def entries (vars : List (String × String)) : List (List Char) :=
  (vars.mergeSort fun a b => a.1 ≤ b.1).map fun v => v.1.toList ++ '=' :: v.2.toList

/-- The environment of a process that is given these variables. -/
def ofVariables (vars : List (String × String)) : Environment := fun name =>
  ((entries vars).findSome? (Text.after? (name.toList ++ ['=']))).map String.ofList

end Environment

/-- Where lines go. -/
inductive Destination where
  | stdout
  | stderr
  | sink (name : String)
deriving DecidableEq, Repr

structure Settings where
  levels : Levels
  labels : Option Labels
  /-- Takes lines in place of standard output. -/
  output : Option Destination
  /-- Takes the lines that end the program, or try to. -/
  errorOutput : Destination
  /-- How many last parts of a source path are kept, 0 for all. -/
  pathParts : Nat
  levelText : String → String
  inCloud : Bool
  spanLabel : String
  clock : Clock
  reportErrors : Bool

namespace Settings

/-- The part of a program's path after its last slash, of either kind. -/
def programName (path : String) : String :=
  String.ofList (path.toList.reverse.takeWhile fun c => c ≠ '/' && c ≠ '\\').reverse

/-- What holds for a program, called by the path given, before anything is set. -/
def initial (program : Option String) : Settings where
  levels := .ofText Levels.default
  labels := none
  output := none
  errorOutput := .stderr
  pathParts := 3
  levelText := id
  inCloud := false
  spanLabel := (program.map programName).getD ""
  clock := .system
  reportErrors := false

/-- A text without letters of levels switches all of them off, but the empty text stands for the
default. -/
def setLevels (s : Settings) (text : String) : Settings :=
  { s with levels := .ofText (if text = "" then Levels.default else text) }

/-- None goes back to lines that are JSON arrays. -/
def setLabels (s : Settings) (labels : Option Labels) : Settings := { s with labels }

def setOutput (s : Settings) (output : Option Destination) : Settings := { s with output }

def setErrorOutput (s : Settings) (errorOutput : Destination) : Settings := { s with errorOutput }

def setPathParts (s : Settings) (pathParts : Nat) : Settings := { s with pathParts }

/-- None goes back to the plain names. -/
def setLevelText (s : Settings) (f : Option (String → String)) : Settings :=
  { s with levelText := f.getD id }

/-- Going to the cloud brings its level numbers and, unless labels were chosen before, its labels.
Leaving it takes neither back. -/
def setInCloud (s : Settings) (inCloud : Bool) : Settings :=
  if inCloud then
    { s with inCloud := true, levelText := cloudLevel, labels := s.labels.or (some .cloud) }
  else { s with inCloud := false }

def setSpanLabel (s : Settings) (spanLabel : String) : Settings := { s with spanLabel }

def setClock (s : Settings) (clock : Clock) : Settings := { s with clock }

def setReportErrors (s : Settings) (reportErrors : Bool) : Settings := { s with reportErrors }

def outputFor (s : Settings) (severity : Severity) : Destination :=
  if severity.alwaysOn then s.errorOutput else s.output.getD .stdout

/-- A variable that is set to the empty text counts as not set. -/
def given? (env : Environment) (name : String) : Option String :=
  (env name).filter (· ≠ "")

/-- Levels, span label, cloud and labels are read in this order. Labels that are refused change
nothing; the error stands beside the settings. -/
def ofEnvironment (program : Option String) (env : Environment) : Settings × Option LabelsError :=
  let s := (initial program).setLevels ((given? env "LAGER_LEVELS").getD "")
  let s := match given? env "LAGER_SPAN_PREFIX" with
    | some label => s.setSpanLabel label
    | none => s
  let s := if (given? env "LAGER_GCP").isSome then s.setInCloud true else s
  match given? env "LAGER_KEYS" with
  | none => (s, none)
  | some text => match Labels.parse text with
    | .ok labels => (s.setLabels (some labels), none)
    | .error e => (s, some e)

end Settings

end Logline
