import Logline.Handle
import Logline.Line.Draft
import Logline.Line.Values
import Logline.Modules

/-!
A program that writes lines. Its settings are published as a whole: an update makes a changed copy
and puts it in the place of the old one, while handles taken before keep writing by what was in
force then. The first look at the settings makes them from the environment.
-/

namespace Logline

/-- `memory` is what the program itself keeps. -/
structure Program (σ : Type) where
  program : Option String
  environment : Environment
  now : Clock → Moment
  published : Option Snapshot
  modules : Modules
  /-- How many callers want to hear of an exit line. -/
  wrappers : Nat
  stamps : Nat
  /-- What has happened, the latest first. -/
  latest : List Event
  memory : σ

/-- Code of the program, which may be stopped; what it did up to then stays done. -/
abbrev Run (σ : Type) := ExceptT Stop (StateM (Program σ))

namespace Run

variable {σ : Type}

/-- A stamp that was given to nothing yet. -/
def fresh : Run σ Nat := do
  modify fun p => { p with stamps := p.stamps + 1 }
  return (← get).stamps

/-- Runs code of a caller, or lines, on the program's thread. -/
def perform (acts : List Act) : Run σ Unit := do
  let p ← get
  let t := runActs acts ⟨p.wrappers, false, false⟩ ⟨p.latest, none⟩
  set { p with latest := t.latest }
  match t.stop with
  | some s => throw s
  | none => return ()

def writeForm (h : Handle Value) (form : Form Value) : Run σ Unit := do
  let now := (← get).now
  perform (handleActs now h form fun _ => formWritings now form)

/-- Adds the place of the call first. A level that is switched off does not even look at it. -/
def writeFormAt (site : Site) (h : Handle Value) (form : Form Value) : Run σ Unit := do
  if h.isEnabled then
    writeForm (h.withSite (← fresh) site) form

/-! ### Maps -/

/-- The key texts of alternating keys and values. A last key without a value gets null. -/
def tokenPairs : List Value → List (String × Value)
  | [] => []
  | [k] => [(k.keyText, .null)]
  | k :: v :: rest => (k.keyText, v) :: tokenPairs rest

def tokenKeys : List Value → List Value
  | [] => []
  | [k] => [k]
  | k :: _ :: rest => k :: tokenKeys rest

/-- Runs the codes that the texts of the keys need, one after the other, then adds the pairs. -/
def addTokens (p : Pairs Value) (tokens : List Value) : Run σ (Pairs Value) := do
  let now := (← get).now
  perform ((tokenKeys tokens).flatMap fun k => (k.writing now).keyActs ())
  return p.add (← fresh) (tokenPairs tokens)

def ofTokens (tokens : List Value) : Run σ (Pairs Value) := addTokens .empty tokens

def keyTextOf (v : Value) : Run σ String := do
  perform ((v.writing (← get).now).keyActs ())
  return v.keyText

def shownOf (v : Value) : Run σ String := do
  perform (v.writing (← get).now).shownActs
  return v.shown

/-- A handle shows its context. -/
def shownHandle (h : Handle Value) : Run σ String := do
  let _ ← shownOf (.map h.context)
  return h.shown

/-! ### Settings -/

/-- Labels from the environment that were refused are an exit line. -/
def refuse (s : Snapshot) (e : LabelsError) : Run σ Unit :=
  writeForm (s.handle .exit) <| match e with
    | .arity found text =>
      .messageMap "LAGER_KEYS expected 6 comma-separated labels"
        [.str "Not", .int (.ofNat found), .str "Value", .str text]
    | .blank text =>
      .messageMap "Only keys for msg and ctx can be blank" [.str "LAGER_KEYS", .str text]

def newSnapshot (s : Settings) : Run σ Snapshot := return ⟨← fresh, s⟩

/-- What is in force now. -/
def snapshot : Run σ Snapshot := do
  let p ← get
  match p.published with
  | some s => return s
  | none =>
    let (settings, error) := Settings.ofEnvironment p.program p.environment
    let s ← newSnapshot settings
    modify fun p => { p with published := some s }
    match error with
    | some e => refuse s e
    | none => pure ()
    return s

/-- Publishes a changed copy of what is in force. A change that panics publishes nothing. -/
def update (change : Settings → Except String Settings) : Run σ Unit := do
  match change (← snapshot).settings with
  | .ok settings =>
    let s ← newSnapshot settings
    modify fun p => { p with published := some s }
  | .error message => throw (.panics message)

def change (f : Settings → Settings) : Run σ Unit := update fun s => .ok (f s)

/-- The letters of the levels that are switched on. -/
def enabledLevels : Run σ String := return (← snapshot).settings.levels.text

/-- Answers the output that was set before. -/
def setOutput (output : Option Destination) : Run σ (Option Destination) := do
  let prior := (← snapshot).settings.output
  change (·.setOutput output)
  return prior

/-- Six blank labels go back to arrays; labels that are refused otherwise are an exit line with the
place of the call, and change nothing. -/
def chooseLabels (l : Labels) (site : Site) : Run σ Unit := do
  if l.toList.all (· = "") then change (·.setLabels none)
  else match l.check with
    | .ok l => change (·.setLabels (some l))
    | .error e =>
      writeFormAt site ((← snapshot).handle .exit)
        (.messageMap "Only keys for msg and ctx can be blank" [.str "error", .str e.message])

/-! ### Handles -/

def handleFor (s : Severity) : Run σ (Handle Value) := return (← snapshot).handle s

def refusedCode (what : String) (code : UInt8) : Stop :=
  .panics (what ++ " must be one char from \"PEFWNAITDOG\" not " ++
    Text.quotedChar (Char.ofNat code.toNat))

/-- The handle of a level's letter. -/
def level (code : UInt8) : Run σ (Handle Value) :=
  match Severity.ofCode? code with
  | some s => handleFor s
  | none => throw (refusedCode "level()" code)

/-! ### Modules -/

/-- The levels a text stands for in a module: for the empty text those in force now. -/
def moduleLevels (text : String) : Run σ Levels := do
  if text = "" then return .ofText (← snapshot).settings.levels.text
  else return .ofText text

/-- The module of that name. A new one takes its levels from the environment, else from those
given. -/
def register (name : String) (levels : Option String) (env : Environment) : Run σ Module := do
  match (← get).modules.find? name with
  | some m => return m
  | none =>
    let text := (Settings.given? env (Modules.levelsVariable name)).or levels
    let m : Module := ⟨← fresh, name, ← moduleLevels (text.getD "")⟩
    modify fun p => { p with modules := p.modules.insertNew m }
    return ((← get).modules.find? name).getD m

/-- Answers whether there is such a module. -/
def setModuleLevels (name text : String) : Run σ Bool := do
  match (← get).modules.find? name with
  | none => return false
  | some _ =>
    let levels ← moduleLevels text
    modify fun p => { p with modules := p.modules.setLevels name levels }
    return true

def levelsOfModule (name : String) : Run σ String := do
  return match (← get).modules.find? name with
    | some m => m.levels.text
    | none => "n/a"

def moduleHandle (m : Module) (s : Severity) : Run σ (Handle Value) := do
  let levels := (((← get).modules.find? m.name).getD m).levels
  if levels.enables s then
    let now ← snapshot
    return .withModule (← fresh) (.enabled ⟨← fresh, s, .empty, none, now.settings⟩) m.name
  else return .disabled

def moduleLevel (m : Module) (code : UInt8) : Run σ (Handle Value) :=
  match Severity.ofCode? code with
  | some s => moduleHandle m s
  | none => throw (refusedCode "Module::level()" code)

end Run

end Logline
