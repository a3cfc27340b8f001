import SmallLisp.Text.Bytes

/-! Where printed bytes go. A sink may have a limit; a write that would pass it
is taken up to the limit and then fails. -/

namespace SmallLisp

structure Sink where
  written : Array UInt8
  limit : Option Nat

namespace Sink

def empty (limit : Option Nat) : Sink := ⟨#[], limit⟩

/-- Whether so many more bytes fit. -/
def fits (s : Sink) (count : Nat) : Bool :=
  match s.limit with
  | none => true
  | some n => s.written.size + count ≤ n

/-- Writes bytes, or as many of them as fit. -/
def write (s : Sink) (bytes : Array UInt8) : Sink :=
  match s.limit with
  | none => { s with written := s.written ++ bytes }
  | some n => { s with written := s.written ++ bytes.take (n - s.written.size) }

/-- What was written, as text. -/
def text (s : Sink) : String := Text.decodeCut s.written

end Sink

end SmallLisp
