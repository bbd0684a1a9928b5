import Logline.Line.Trail

/-!
Handing bytes on. A sink may take only a part of what it is offered, and is then offered the rest;
it may fail, in writing or in flushing at the end. Failures never come back to the line; they are
reported on standard error if the settings ask for it.
-/

namespace Logline

/-- How a sink answers an offer of `n` bytes, and a flush. -/
structure Sink where
  take : Nat → Except String Nat
  flush : Except String Unit

namespace Sink

/-- Takes everything. -/
def all : Sink := ⟨.ok, .ok ()⟩

/-- Refuses everything. -/
def broken (error : String) : Sink := ⟨fun _ => .error error, .ok ()⟩

/-- Takes the first half, of an odd number the larger. -/
def half : Sink := ⟨fun n => .ok ((n + 1) / 2), .ok ()⟩

/-- Takes nothing, but does not fail. -/
def stuck : Sink := ⟨fun _ => .ok 0, .ok ()⟩

def unflushed (error : String) : Sink := ⟨.ok, .error error⟩

/-- Offers bytes until all are taken: what was offered and how much of it was taken each time, and
the error that ended it. A sink that takes nothing ends it. -/
def offer (s : Sink) : Nat → Text.Bytes → List (Text.Bytes × Nat) × Option String
  | 0, _ => ([], none)
  | fuel + 1, bytes =>
    if bytes.isEmpty then ([], none)
    else match s.take bytes.length with
      | .error e => ([(bytes, 0)], some e)
      | .ok 0 => ([(bytes, 0)], some "failed to write whole buffer")
      | .ok n =>
        let (offers, error) := s.offer fuel (bytes.drop n)
        ((bytes, n) :: offers, error)

/-- Each offer but a last one takes a byte at least, so there are no more offers than bytes. -/
def writeAll (s : Sink) (bytes : Text.Bytes) : List (Text.Bytes × Nat) × Option String :=
  match s.offer (bytes.length + 1) bytes with
  | (offers, some e) => (offers, some e)
  | (offers, none) => match s.flush with
    | .ok () => (offers, none)
    | .error e => (offers, some e)

end Sink

/-- What reaches the world outside. -/
inductive Delivery where
  | offered (destination : Destination) (bytes : Text.Bytes) (taken : Nat)
  /-- A report on standard error. -/
  | reported (text : String)

def failureReport (error : String) : String :=
  "[lager] Unable to write a log line to its output: " ++ error ++ "\n"

def Event.deliver (sinks : Destination → Sink) : Event → List Delivery
  | .wrote destination bytes reportErrors =>
    let (offers, error) := (sinks destination).writeAll bytes
    offers.map (fun o => .offered destination o.1 o.2) ++
      match error with
      | some e => if reportErrors then [.reported (failureReport e)] else []
      | none => []
  | _ => []

end Logline
