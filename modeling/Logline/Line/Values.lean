import Logline.Line.Layout

/-!
The ways each kind of value is written. Members of an object are written in the order of their
keys, so the order they are stored in never shows in a line.
-/

namespace Logline

open Script

/-- A number is one chunk. -/
def Value.spelledItem (v : Value) : Writing :=
  .plain [text (v.spelled .line)] []

def Script.byKey (es : List (String × Writing)) : List (String × Writing) :=
  es.mergeSort fun a b => a.1 ≤ b.1

/-- Showing a container shows what it holds, in the order it is stored in. -/
def shownActsOf (ws : List Writing) : List Act := ws.flatMap Writing.shownActs

mutual

def Value.writing (now : Clock → Moment) : Value → Writing
  | .null => .null
  | .str s => .plain (quote s) []
  | .bytes bs => .plain (quoteBytes bs) []
  | .int n => .plain [text (Decimal.intText n.val)] []
  | .single bits => Value.spelledItem (.single bits)
  | .double bits => Value.spelledItem (.double bits)
  | .bool b => .plain [text (Value.boolText b)] []
  | .strs texts => .plain (opening "[" ++ texts.flatMap quote ++ closing "]") []
  | .list vs =>
    let ws := writings now vs
    .paired (listed (ws.map Prod.snd)) (fun _ => tokens ws) (shownActsOf (ws.map Prod.snd))
  | .map p =>
    let es := entryWritings now p
    if es.isEmpty then .nothing
    else
      let pairs := members es
      .paired (bracedScript pairs) (fun _ => pairs) (shownActsOf (es.map Prod.snd))
  | .raw vs =>
    let ws := writings now vs
    let pairs := tokens ws
    .paired (bracedScript pairs) (fun _ => pairs) (shownActsOf (ws.map Prod.snd))
  | .object ms =>
    let es := memberWritings now ms
    .plain (bracedScript (members (byKey es))) (shownActsOf (es.map Prod.snd))
  | .error code s =>
    let acts := codeActs now code
    .plain [.guarded acts (quote s) (quote lateText)] acts
  | .display code s =>
    let acts := codeActs now code
    .plain [.guarded acts (quote s) (quote lateText)] acts
  | .marshal code (.ok json) thing =>
    .plain [.guarded (codeActs now code) [.chunk json] (quote lateText)] (showingActs now thing)
  | .marshal code (.error e) thing =>
    -- What cannot be turned into JSON is shown within the time it has for that.
    let acts := showingActs now thing
    .plain [.guarded (codeActs now code ++ acts) (quote ("! " ++ e ++ "; " ++ thing.text))
      (quote lateText)] acts
  | .lazy code v => .deferred (codeActs now code) v.isEmptyMap fun _ => v.writing now
  | .marker _ => .null
termination_by structural v => v

def writings (now : Clock → Moment) : List Value → List (Value × Writing)
  | [] => []
  | v :: rest => (v, v.writing now) :: writings now rest
termination_by structural vs => vs

def memberWritings (now : Clock → Moment) : List (String × Value) → List (String × Writing)
  | [] => []
  | (k, v) :: rest => (k, v.writing now) :: memberWritings now rest
termination_by structural es => es

def entryWritings (now : Clock → Moment) : Pairs Value → List (String × Writing)
  | ⟨_, entries⟩ => memberWritings now entries
termination_by structural p => p

def codeActs (now : Clock → Moment) : Code Value → List Act
  | ⟨label, effects, panics⟩ =>
    .called label :: effectsActs now effects ++ (panics.map Act.panic).toList
termination_by structural c => c

def showingActs (now : Clock → Moment) : Showing Value → List Act
  | ⟨code, _⟩ => codeActs now code
termination_by structural s => s

def effectsActs (now : Clock → Moment) : List (Effect Value) → List Act
  | [] => []
  | e :: rest => effectActs now e ++ effectsActs now rest
termination_by structural es => es

def effectActs (now : Clock → Moment) : Effect Value → List Act
  | .slow => [.slow]
  | .log handle form => handleActs now handle form fun _ => formWritings now form
termination_by structural e => e

def formWritings (now : Clock → Moment) : Form Value → List (Value × Writing)
  | .list args => writings now args
  | .messageList _ args => writings now args
  | .map tokens => writings now tokens
  | .messageMap _ tokens => writings now tokens
termination_by structural f => f

def handleActs (now : Clock → Moment) :
    Handle Value → Form Value → (Unit → List (Value × Writing)) → List Act
  | .disabled, _, _ => []
  | .enabled w, form, args => [writerAct now w form args]
termination_by structural h => h

def writerAct (now : Clock → Moment) :
    Writer Value → Form Value → (Unit → List (Value × Writing)) → Act
  | ⟨stamp, severity, context, module, settings⟩, form, args =>
    let w : Writer Value := ⟨stamp, severity, context, module, settings⟩
    .line (Layout.route w)
      [later fun _ => Layout.line now w form (args ()) (entryWritings now context)]
termination_by structural w => w

end

end Logline
