namespace DeadCode

inductive Failure
  | io (path detail : String)
  | graph (detail : String)
  | span (fullStart start stop : Nat) (detail : String)
  | manifest (path detail : String)
  | config (path detail : String)
  | pattern (glob detail : String)
  deriving DecidableEq, Repr

namespace Failure

def message : Failure → String
  | io path detail => s!"I/O error at {path}: {detail}"
  | graph detail => s!"Graph error: {detail}"
  | span fullStart start stop detail => s!"Invalid span [{fullStart}, {start}, {stop}): {detail}"
  | manifest path detail => s!"Manifest error at {path}: {detail}"
  | config path detail => s!"Config error at {path}: {detail}"
  | pattern glob detail => s!"Invalid pattern '{glob}': {detail}"

def path? : Failure → Option String
  | io path _ | manifest path _ | config path _ => some path
  | graph _ | span _ _ _ _ | pattern _ _ => none

-- The message after a phrase that says what was attempted. A failure of the file system names its
-- cause once more, because the cause is an error in its own right.
def inContext (context : String) (failure : Failure) : String :=
  let full := s!"{context}: {failure.message}"
  match failure with
  | io _ detail => s!"{full}: {detail}"
  | _ => full

end Failure

end DeadCode
