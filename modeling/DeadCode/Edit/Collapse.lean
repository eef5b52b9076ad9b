import DeadCode.Span

namespace DeadCode.Span

-- Earlier spans first: by what leads up to them, then by start, then by end.
def le (a b : Span) : Bool :=
  if a.fullStart ≠ b.fullStart then a.fullStart < b.fullStart
  else if a.start ≠ b.start then a.start < b.start
  else a.stop ≤ b.stop

def extend (s : Span) (stop : Nat) : Span where
  fullStart := s.fullStart
  start := s.start
  stop := max s.stop stop
  fullStart_le_start := s.fullStart_le_start
  start_le_stop := Nat.le_trans s.start_le_stop (Nat.le_max_left ..)

-- Joins `current` with the spans that follow it, which are sorted, as far as they overlap.
def join (current : Span) : List Span → List Span
  | [] => [current]
  | next :: rest =>
    if next.fullStart < current.stop then join (current.extend next.stop) rest
    else current :: join next rest

def collapse (spans : List Span) : List Span :=
  match spans.mergeSort le with
  | [] => []
  | first :: rest => join first rest

end DeadCode.Span
