import Logline.Json.Reader
import Logline.Text.Escaped
import Logline.Value.Text

/-!
What a value means in a line, as a part of a JSON document. An empty map means nothing. Where pairs
are spliced in, a value that has none stands under the key `cannot-inline`. A deferred value means
what its result means.
-/

namespace Logline

structure Meaning where
  /-- As an item of a list or the value of a member. -/
  item : Option Json
  /-- Where its pairs are spliced in. -/
  pairs : List (String × Json)

namespace Meaning

def plain (j : Json) : Meaning := ⟨some j, [("cannot-inline", j)]⟩

def nothing : Meaning := ⟨none, []⟩

def items (ms : List Meaning) : List Json := ms.filterMap item

def members (es : List (String × Meaning)) : List (String × Json) :=
  es.filterMap fun e => e.2.item.map fun j => (e.1, j)

/-- Alternating keys and values. A last key without a value has null. -/
def tokens : List (Value × Meaning) → List (String × Json)
  | [] => []
  | [(k, _)] => match k.marker? with
    | some _ => []
    | none => [(k.keyText, .null)]
  | (k, _) :: (_, m) :: rest =>
    (match k.marker? with
      | some .skip => []
      | some .inline => m.pairs
      | none => members [(k.keyText, m)]) ++ tokens rest

end Meaning

namespace Value

/-- Numbers keep their spelling; what is no number is a text. -/
def ofBinary : Decimal.Binary → Json
  | .nan => .string "NaN"
  | .infinite negative => .string (if negative then "-Inf" else "+Inf")
  | x => .number (Decimal.Spelling.line.text x)

def binaryMeaning (v : Value) : Meaning :=
  match v.binary? with
  | some x => .plain (ofBinary x)
  | none => .nothing

mutual

def meaning : Value → Meaning
  | .null => .plain .null
  | .str s => .plain (.string s)
  | .bytes bs => .plain (.string (Text.visible bs))
  | .int n => .plain (.number (Decimal.intText n.val))
  | .single bits => binaryMeaning (.single bits)
  | .double bits => binaryMeaning (.double bits)
  | .bool b => .plain (.bool b)
  | .strs texts => .plain (.array (texts.map .string))
  | .list vs =>
    let ms := meanings vs
    ⟨some (.array (Meaning.items (ms.map Prod.snd))), Meaning.tokens ms⟩
  | .map p =>
    let es := entryMeanings p
    if es.isEmpty then .nothing else ⟨some (.object (Meaning.members es)), Meaning.members es⟩
  | .raw vs =>
    let ms := meanings vs
    ⟨some (.object (Meaning.tokens ms)), Meaning.tokens ms⟩
  | .object members =>
    .plain (.object (Meaning.members
      ((memberMeanings members).mergeSort fun a b => a.1 ≤ b.1)))
  | .error _ text => .plain (.string text)
  | .display _ text => .plain (.string text)
  | .marshal _ (.ok json) _ => .plain (((Text.decode? json).bind Json.read?).getD .null)
  | .marshal _ (.error e) thing => .plain (.string ("! " ++ e ++ "; " ++ thing.text))
  | .lazy _ result => result.meaning
  | .marker _ => .plain .null
termination_by structural v => v

def meanings : List Value → List (Value × Meaning)
  | [] => []
  | v :: rest => (v, v.meaning) :: meanings rest
termination_by structural vs => vs

def memberMeanings : List (String × Value) → List (String × Meaning)
  | [] => []
  | (key, v) :: rest => (key, v.meaning) :: memberMeanings rest
termination_by structural es => es

def entryMeanings : Pairs Value → List (String × Meaning)
  | ⟨_, entries⟩ => memberMeanings entries
termination_by structural p => p

end

end Value

end Logline
