import Logline.Text.Split
import Logline.Value.Text

/-!
Paths of source files, cut to their last parts. Doubled and trailing slashes and a dot between
slashes are no parts; a leading slash is one, and so is a dot at the very start.

Handles, through which lines are written. A handle is never changed; adding context, a module or
the place of a call gives another one, except that a handle to which nothing is added is returned
itself. The handle of a level that is switched off stays what it is whatever is added.
-/

namespace Logline.SourcePath

/-- Parts after the first slash, or all if there is none. -/
def names (parts : List String) : List String := parts.filter fun p => p ≠ "" && p ≠ "."

def components (path : String) : List String :=
  match Text.splitText '/' path with
  | [] => []
  | first :: rest =>
    if first = "" then
      if rest.isEmpty then [] else "/" :: names rest
    else first :: names rest

/-- The last `n` components, or all of a path that has no more; with 0 the path stays as it is. -/
def shorten (n : Nat) (path : String) : String :=
  let cs := components path
  if n = 0 || cs.length ≤ n then path
  else "/".intercalate (cs.drop (cs.length - n))

end Logline.SourcePath

namespace Logline

/-- A place in source code. -/
structure Site where
  file : String
  line : Nat

namespace Handle

variable {α : Type}

def isEnabled : Handle α → Bool
  | .disabled => false
  | .enabled _ => true

def severity? : Handle α → Option Severity
  | .disabled => none
  | .enabled w => some w.severity

def context : Handle α → Pairs α
  | .disabled => .empty
  | .enabled w => w.context

/-- Whether both are one instance. Handles made at once differ in their severities. -/
def same : Handle α → Handle α → Bool
  | .disabled, .disabled => true
  | .enabled v, .enabled w => v.stamp = w.stamp && v.severity = w.severity
  | _, _ => false

/-- Merges maps into the context, from left to right. -/
def withContext (stamp : Nat) (h : Handle α) (maps : List (Pairs α)) : Handle α :=
  match h with
  | .disabled => h
  | .enabled w =>
    let context := maps.foldl (Pairs.merge stamp) w.context
    if context.same w.context then h else .enabled { w with stamp, context }

/-- The empty name takes the module away. -/
def withModule (stamp : Nat) (h : Handle α) (name : String) : Handle α :=
  match h with
  | .disabled => h
  | .enabled w => .enabled { w with stamp, module := if name = "" then none else some name }

/-- Adds the place of a call, its path shortened as the settings say. -/
def withSite (stamp : Nat) (h : Handle Value) (site : Site) : Handle Value :=
  match h with
  | .disabled => h
  | .enabled w =>
    let file := SourcePath.shorten w.settings.pathParts site.file
    let context := w.context.add stamp
      [("_file", .str file), ("_line", .int (.ofNat site.line))]
    .enabled { w with stamp, context }

def shown : Handle Value → String
  | .disabled => "Lager(noop)"
  | .enabled w =>
    let module := match w.module with
      | none => "None"
      | some name => "Some(" ++ Text.quoted name ++ ")"
    "Lager \x7b sev: " ++ w.severity.title ++ ", kvp: " ++ (Value.map w.context).shown ++
      ", module: " ++ module ++ " \x7d"

end Handle

/-- Settings in force, with a handle for each severity. -/
structure Snapshot where
  stamp : Nat
  settings : Settings

def Snapshot.handle (s : Snapshot) (severity : Severity) : Handle Value :=
  if s.settings.levels.enables severity then
    .enabled ⟨s.stamp, severity, .empty, none, s.settings⟩
  else .disabled

end Logline
