import DeadCode.Edit.Collapse
import DeadCode.Edit.Cut
import DeadCode.Repair.EmptyStatement
import DeadCode.Repair.Separator

namespace DeadCode.Text

-- The text without stray commas in name lists and without empty variable statements. Each of the
-- two repairs runs until it finds nothing more.
def repaired (text : Text) (keepLines : Bool) : Text :=
  let commas := Repair.settle (Repair.separator.pass (filler keepLines)) text
  Repair.settle (Repair.emptyStatement.pass (filler keepLines)) commas

def edited (source : Text) (dead : List Span) (keepLines : Bool) : Except CutError Text :=
  return (← source.without (Span.collapse dead) keepLines).repaired keepLines

end DeadCode.Text
