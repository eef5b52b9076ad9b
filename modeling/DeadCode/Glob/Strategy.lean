import DeadCode.Glob.Basic

namespace DeadCode.Glob

inductive Strategy
  | text
  | fileName
  | extension
  | fileNameExpression
  | expression
  deriving DecidableEq, Repr

namespace Token

def isLiteral : Token → Bool
  | literal _ => true
  | _ => false

def isChar (c : Char) : Token → Bool
  | literal d => c == d
  | _ => false

def isMany : Token → Bool
  | many => true
  | _ => false

def isNameChar (token : Token) : Bool :=
  token.isLiteral && !token.isChar '/'

def isNameClass : Token → Bool
  | range negated ranges => ranges.any (fun (first, last) => first ≤ '/' && '/' ≤ last) == negated
  | _ => false

end Token

namespace Strategy

def afterLeading : List Token → Bool × List Token
  | .leading :: rest => (true, rest)
  | tokens => (false, tokens)

def isFileName (tokens : List Token) : Bool :=
  let (anywhere, rest) := afterLeading tokens
  anywhere && !rest.isEmpty && rest.all Token.isNameChar

def isExtension (tokens : List Token) : Bool :=
  match (afterLeading tokens).2 with
  | .many :: .literal '.' :: rest => rest.all fun token => token.isNameChar && !token.isChar '.'
  | _ => false

def isFront (tokens : List Token) : Bool :=
  match tokens.getLast? with
  | some .many => tokens.dropLast.all Token.isLiteral && 1 < tokens.length
  | some .inside => tokens.dropLast.all Token.isLiteral
  | _ => tokens.all Token.isLiteral && !tokens.isEmpty

-- Perhaps anything, and then a text. A slash alone does not count as one.
def isBack (tokens : List Token) : Bool :=
  match afterLeading tokens with
  | (true, .literal c :: rest) => (Token.literal c :: rest).all Token.isLiteral
  | (_, rest) =>
    let back := if rest.head?.any Token.isMany then rest.tail else rest
    back.all Token.isLiteral && !back.isEmpty && !(back.length = 1 && back.all (Token.isChar '/'))

def endsInExtension (tokens : List Token) : Bool :=
  let isExtensionChar := fun (token : Token) => token.isNameChar && !token.isChar '.'
  (tokens.reverse.dropWhile isExtensionChar).head?.any (Token.isChar '.')

def isFileNameExpression (tokens : List Token) : Bool :=
  let (anywhere, rest) := afterLeading tokens
  anywhere && !rest.isEmpty && rest.all fun token => token.isNameChar || token.isNameClass

def ofTokens (tokens : List Token) : Strategy :=
  if isFileName tokens then fileName
  else if !tokens.isEmpty && tokens.all Token.isLiteral then text
  else if isExtension tokens then fileName
  else if isFront tokens || isBack tokens then text
  else if endsInExtension tokens then extension
  else if isFileNameExpression tokens then fileNameExpression
  else expression

end Strategy

end DeadCode.Glob
