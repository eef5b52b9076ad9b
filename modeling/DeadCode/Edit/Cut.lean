import DeadCode.Span
import DeadCode.Text.Basic

namespace DeadCode

-- A place where text is taken out: its bytes from `start` to `stop`, which hold `removed`.
structure Cut where
  start : Nat
  stop : Nat
  removed : Text
  deriving DecidableEq, Repr

inductive CutError
  | invalid (error : SpanError)
  | disordered
  deriving DecidableEq, Repr

def CutError.toFailure : CutError → Failure
  | invalid error => error.toFailure
  | disordered => .graph "spans overlap or are out of order"

namespace Cut

-- The cut for a span. The line break right after the span goes with it, unless the next span
-- begins there or before.
def ofSpan (source : Text) (span : Span) (next : Option Span) : Except SpanError Cut :=
  if source.byteSize < span.stop then .error (span.error (.pastEnd source.byteSize))
  else match source.charsBefore? span.start, source.charsBefore? span.stop with
    | some i, some j =>
      let stop := if (source.drop j).head? == some '\n' && next.all (span.stop < ·.start)
        then j + 1 else j
      .ok ⟨span.start, span.stop + (stop - j), (source.take stop).drop i⟩
    | _, _ => .error (span.error .insideCharacter)

def ofSpans (source : Text) : List Span → Except SpanError (List Cut)
  | [] => .ok []
  | span :: rest => do
    let cut ← ofSpan source span rest.head?
    return cut :: (← ofSpans source rest)

def apply (filler : Text) (cut : Cut) (text : Text) : Option Text :=
  text.replace? cut.start cut.stop filler

end Cut

namespace Text

-- What stays in the place of removed text: nothing, or its line breaks so that the lines that
-- follow keep their numbers.
def filler (keepLines : Bool) (removed : Text) : Text :=
  if keepLines then removed.breaks else []

def without (source : Text) (spans : List Span) (keepLines : Bool) : Except CutError Text :=
  match Cut.ofSpans source spans with
  | .error e => .error (.invalid e)
  | .ok cuts =>
    let cutAll := cuts.foldr (fun cut text => text.bind (cut.apply (filler keepLines cut.removed)))
      (some source)
    match cutAll with
    | some text => .ok text
    | none => .error .disordered

end Text

end DeadCode
