import DeadCode.Failure

namespace DeadCode

-- The half-open byte range from `start` to `stop`; what leads up to it begins at `fullStart`.
@[ext]
structure Span where
  fullStart : Nat
  start : Nat
  stop : Nat
  fullStart_le_start : fullStart ≤ start
  start_le_stop : start ≤ stop
  deriving DecidableEq, Repr

inductive SpanFault
  | stopBeforeStart
  | fullStartAfterStart
  | pastEnd (size : Nat)
  | insideCharacter
  deriving DecidableEq, Repr

def SpanFault.message : SpanFault → String
  | stopBeforeStart => "end before start"
  | fullStartAfterStart => "full_start after start"
  | pastEnd size => s!"past end of text ({size} bytes)"
  | insideCharacter => "not on a character boundary"

structure SpanError where
  fullStart : Nat
  start : Nat
  stop : Nat
  fault : SpanFault
  deriving DecidableEq, Repr

def SpanError.toFailure (e : SpanError) : Failure :=
  .span e.fullStart e.start e.stop e.fault.message

namespace Span

-- The span with these offsets. An end before the start is noticed first.
def ofOffsets (fullStart start stop : Nat) : Except SpanError Span :=
  if h : start ≤ stop then
    if h' : fullStart ≤ start then .ok ⟨fullStart, start, stop, h', h⟩
    else .error ⟨fullStart, start, stop, .fullStartAfterStart⟩
  else .error ⟨fullStart, start, stop, .stopBeforeStart⟩

def bare (start stop : Nat) : Except SpanError Span :=
  ofOffsets start start stop

def size (s : Span) : Nat :=
  s.stop - s.start

def isEmpty (s : Span) : Bool :=
  s.start == s.stop

def contains (s : Span) (offset : Nat) : Bool :=
  s.start ≤ offset && offset < s.stop

def error (s : Span) (fault : SpanFault) : SpanError :=
  ⟨s.fullStart, s.start, s.stop, fault⟩

def render (s : Span) : String :=
  s!"{s.start}..{s.stop}"

end Span

end DeadCode
