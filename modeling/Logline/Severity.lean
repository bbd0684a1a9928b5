/-!
The fixed severities of log lines, from the most severe to the most verbose. Each has a letter of
its own (`ofCode?_code`), and its name is shown set in a field: cut to a greatest length, then filled
up to a least one.
-/

namespace Logline.Text

inductive Align where
  | left
  | right
  | center

structure Field where
  width : Nat
  align : Align
  fill : Char
  cut : Option Nat

/-- Of an odd number of fill characters around a centred text the last goes to the right. -/
def Field.set (f : Field) (s : String) : String :=
  let cs := match f.cut with
    | some n => s.toList.take n
    | none => s.toList
  let gap := f.width - cs.length
  let before := match f.align with
    | .left => 0
    | .right => gap
    | .center => gap / 2
  String.ofList (List.replicate before f.fill ++ cs ++ List.replicate (gap - before) f.fill)

end Logline.Text

namespace Logline

inductive Severity where
  | panic
  | exit
  | fail
  | warn
  | note
  | access
  | info
  | trace
  | debug
  | obj
  | guts
deriving DecidableEq, Repr

namespace Severity

def all : List Severity :=
  [.panic, .exit, .fail, .warn, .note, .access, .info, .trace, .debug, .obj, .guts]

/-- The name written into a line. -/
def name : Severity → String
  | .panic => "PANIC"
  | .exit => "EXIT"
  | .fail => "FAIL"
  | .warn => "WARN"
  | .note => "NOTE"
  | .access => "ACCESS"
  | .info => "INFO"
  | .trace => "TRACE"
  | .debug => "DEBUG"
  | .obj => "OBJ"
  | .guts => "GUTS"

/-- The name as it is shown to a programmer. -/
def title : Severity → String
  | .panic => "Panic"
  | .exit => "Exit"
  | .fail => "Fail"
  | .warn => "Warn"
  | .note => "Note"
  | .access => "Access"
  | .info => "Info"
  | .trace => "Trace"
  | .debug => "Debug"
  | .obj => "Obj"
  | .guts => "Guts"

/-- The first letter of the name. -/
def code : Severity → Char
  | .panic => 'P'
  | .exit => 'E'
  | .fail => 'F'
  | .warn => 'W'
  | .note => 'N'
  | .access => 'A'
  | .info => 'I'
  | .trace => 'T'
  | .debug => 'D'
  | .obj => 'O'
  | .guts => 'G'

/-- Place in the order from severe to verbose. -/
def rank : Severity → Nat
  | .panic => 0
  | .exit => 1
  | .fail => 2
  | .warn => 3
  | .note => 4
  | .access => 5
  | .info => 6
  | .trace => 7
  | .debug => 8
  | .obj => 9
  | .guts => 10

instance : Ord Severity := ⟨fun a b => compare a.rank b.rank⟩

/-- The severity of a letter, in either case. -/
def ofCode? (byte : UInt8) : Option Severity :=
  let upper := if 0x61 ≤ byte.toNat && byte.toNat ≤ 0x7A then byte.toNat - 0x20 else byte.toNat
  all.find? fun s => s.code.toNat = upper

/-- A line of such a severity ends the program, or tries to, and cannot be switched off. -/
def alwaysOn : Severity → Bool
  | .panic => true
  | .exit => true
  | _ => false

def setIn (s : Severity) (f : Text.Field) : String := f.set s.name

theorem ofCode?_code (s : Severity) : ofCode? (UInt8.ofNat s.code.toNat) = some s := by
  cases s <;> decide

end Severity

/-- The number by which cloud logging knows a level, told from the first letter of its name; a
name with another first letter stays as it is. -/
def cloudLevel (name : String) : String :=
  match name.toList.head? with
  | some 'P' => "600"
  | some 'E' => "600"
  | some 'F' => "500"
  | some 'W' => "400"
  | some 'N' => "300"
  | some 'A' => "200"
  | some 'I' => "200"
  | some 'T' => "100"
  | some 'D' => "100"
  | some 'O' => "100"
  | some 'G' => "100"
  | _ => name

end Logline
