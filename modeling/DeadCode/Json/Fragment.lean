import DeadCode.Json.Basic
import DeadCode.Json.Token

namespace DeadCode.Json

inductive Fragment
  | malformed
  | null
  | bool (value : Bool)
  | number (value : Option Nat)
  | string (value : Option String)
  -- If an array is not closed, there is a mistake in its last item or right after it.
  | array (items : List Fragment) (closed : Bool)
  | object (members : List (Option String × Fragment)) (closed : Bool)

namespace Fragment

-- Whether there is no mistake in the text of the fragment. A bracket is only closed after
-- everything in it has been read.
def isWhole : Fragment → Bool
  | malformed => false
  | array _ closed | object _ closed => closed
  | null | bool _ | number _ | string _ => true

end Fragment

mutual

def toFragment : Json → Fragment
  | .null => .null
  | .bool value => .bool value
  | .nat value => .number (some value)
  | .string value => .string (some value)
  | .array items => .array (itemFragments items) true
  | .object members => .object (memberFragments members) true

def itemFragments : List Json → List Fragment
  | [] => []
  | item :: items => item.toFragment :: itemFragments items

def memberFragments : List (String × Json) → List (Option String × Fragment)
  | [] => []
  | (key, value) :: members => (some key, value.toFragment) :: memberFragments members

end

inductive Bracket
  | array (items : List Fragment)
  | object (members : List (Option String × Fragment))
  | keyed (members : List (Option String × Fragment)) (key : Option String)

inductive Expected
  | value
  | valueOrEnd
  | key
  | keyOrEnd
  | colon
  | commaOrEnd
  | nothing
  | recovery
  deriving DecidableEq, Repr

structure Assembly where
  -- Innermost first.
  brackets : List Bracket := []
  expected : Expected := .value
  document : Fragment := .malformed
  trailing : Bool := false

namespace Assembly

def fail (a : Assembly) : Assembly :=
  { a with expected := .recovery }

def put (a : Assembly) (value : Fragment) : Assembly :=
  match a.brackets with
  | [] => { a with document := value, expected := .nothing }
  | .array items :: rest =>
    { a with brackets := .array (value :: items) :: rest, expected := .commaOrEnd }
  | .keyed members key :: rest =>
    { a with brackets := .object ((key, value) :: members) :: rest, expected := .commaOrEnd }
  | .object _ :: _ => a.fail

def close (a : Assembly) (token : Token) : Assembly :=
  match token, a.brackets with
  | .closeArray, .array items :: rest => { a with brackets := rest }.put (.array items.reverse true)
  | .closeObject, .object members :: rest =>
    { a with brackets := rest }.put (.object members.reverse true)
  | _, _ => a.fail

def beginValue (a : Assembly) (token : Token) : Assembly :=
  match token with
  | .null => a.put .null
  | .bool value => a.put (.bool value)
  | .number value => a.put (.number value)
  | .string value => a.put (.string value)
  | .openArray => { a with brackets := .array [] :: a.brackets, expected := .valueOrEnd }
  | .openObject => { a with brackets := .object [] :: a.brackets, expected := .keyOrEnd }
  | .closeArray | .closeObject | .comma | .colon => a.fail

def takeKey (a : Assembly) (token : Token) : Assembly :=
  match token, a.brackets with
  | .string key, .object members :: rest =>
    { a with brackets := .keyed members key :: rest, expected := .colon }
  | _, _ => a.fail

def afterComma (a : Assembly) : Assembly :=
  match a.brackets with
  | .array _ :: _ => { a with expected := .value }
  | .object _ :: _ => { a with expected := .key }
  | _ => a.fail

def step (a : Assembly) (token : Token) : Assembly :=
  match a.expected with
  | .value => a.beginValue token
  | .valueOrEnd => if token = .closeArray then a.close token else a.beginValue token
  | .key => a.takeKey token
  | .keyOrEnd => if token = .closeObject then a.close token else a.takeKey token
  | .colon => if token = .colon then { a with expected := .value } else a.fail
  | .commaOrEnd => if token = .comma then a.afterComma else a.close token
  | .nothing => { a with trailing := true }
  | .recovery => a

def unwind (inner : Option Fragment) : List Bracket → Fragment
  | [] => inner.getD .malformed
  | .array items :: rest => unwind (some (.array (inner.toList ++ items).reverse false)) rest
  | .object members :: rest => unwind (some (.object members.reverse false)) rest
  | .keyed members key :: rest =>
    unwind (some (.object ((key, inner.getD .malformed) :: members).reverse false)) rest

end Assembly

def read (text : String) : Fragment × Bool :=
  let (tokens, finished) := tokenize text
  let a := tokens.foldl Assembly.step {}
  if a.expected = .nothing then (a.document, finished && !a.trailing)
  else (Assembly.unwind none a.brackets, false)

end DeadCode.Json
