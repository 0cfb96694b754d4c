import RpcBindings.Rust.Grammar.Attribute

/-!
Paths with generic arguments, bounds and generic parameters.

In an expression the arguments of a path follow `::`, so that `<` can compare; elsewhere the `::`
may be left out. Parenthesised arguments stand in bounds only.
-/

namespace RpcBindings.Rust

namespace PathArgs

/-- Whether there are no brackets. -/
def isBare : PathArgs → Bool
  | .none => true
  | .angle _ _ _ => false

/-- Whether there are no arguments, though there may be brackets. -/
def isEmpty : PathArgs → Bool
  | .none => true
  | .angle _ args _ => args.isEmpty

end PathArgs

/-- A path, with the text of everything before its last segment. -/
structure PathShape where
  qualifier : String
  name : String
  args : PathArgs
  /-- No segment has arguments, and no type comes before them. -/
  isModule : Bool
  /-- The path begins with a type between angle brackets. -/
  isQualified : Bool

def PathShape.text (p : PathShape) : String :=
  p.qualifier ++ p.name ++ p.args.text

/-- A text that may end in the brace that closes a macro call. -/
structure Tail where
  text : String
  endsInBrace : Bool

/-- The kinds of bound. -/
inductive BoundKind where
  | trait
  /-- A trait that holds in constants only, which is printed as it is written. -/
  | verbatim
  | other
  deriving DecidableEq, Repr

/-- A bound of a type. -/
structure BoundShape where
  kind : BoundKind
  text : String
  /-- The text without parentheses around it. -/
  core : String
  endsInBrace : Bool

namespace Parser

/-- What a parser takes, as it is written. -/
def verbatimTail {α : Type} (p : Parser α) : Parser Tail := fun i =>
  (p i).map fun r => (⟨tokensText (i.taken r.2), endInBrace (i.taken r.2)⟩, r.2)

/-- A constant as a generic argument: a literal or a block. -/
def constArgument (g : Grammar) : Parser String := do
  if ← test atLiteral then return (← literal).2
  else attributedBlock g

/-- Whether a constant comes next as a generic argument. -/
def atConstArgument (ts : List Token) : Bool :=
  atLiteral ts || atBrace ts

/-! ## Segments and paths -/

/-- Whether a separator follows the last element. -/
def endsWithComma {α : Type} (items : List (α × Bool)) : Bool :=
  match items.getLast? with
  | some (_, comma) => comma
  | none => false

/-- Arguments between angle brackets. -/
def angleArgs (g : Grammar) : Parser PathArgs := do
  let colons ← optPunct "::"
  let _ ← punct "<"
  let items ← separated (atPunct ">") "," g.arg
  let _ ← punct ">"
  return .angle (colons ++ "<") (items.map (·.1)) (endsWithComma items)

/-- Whether generic arguments come next. -/
def atAngleArgs (exprStyle : Bool) (ts : List Token) : Bool :=
  (!exprStyle && atPunct "<" ts && !atPunct "<=" ts && !atPunct "<<=" ts) ||
    (atPunct "::" ts && skip 2 (atPunct "<") ts)

/-- A segment: its name and arguments. -/
def segment (g : Grammar) (exprStyle : Bool) : Parser (String × PathArgs) := do
  if ← test (atWords ["super", "self", "crate", "try"]) then return (← ident, .none)
  let n ← if ← test (atWord "Self") then ident else name
  return (n, ← whenAt (atAngleArgs exprStyle) (angleArgs g) .none)

/-- Puts segments together, the first after some text. -/
def joinSegments (before : String) (isQualified isModule : Bool) :
    String × PathArgs → List (String × PathArgs) → PathShape
  | (n, args), [] => ⟨before, n, args, isModule && args.isBare, isQualified⟩
  | (n, args), s :: rest =>
    joinSegments (before ++ n ++ args.text ++ "::") isQualified (isModule && args.isBare) s rest

/-- Segments that each follow `::`. -/
def moreSegments (g : Grammar) (exprStyle stopAtParen : Bool) :
    Parser (List (String × PathArgs)) :=
  many (fun ts => atPunct "::" ts && !(stopAtParen && skip 2 atParen ts)) do
    let _ ← punct "::"
    segment g exprStyle

/-- A path. -/
def path (g : Grammar) (exprStyle : Bool) : Parser PathShape := do
  let leading ← optPunct "::"
  let first ← segment g exprStyle
  let more ← moreSegments g exprStyle true
  return joinSegments leading false true first more

/-- A path that may begin with a type between angle brackets. -/
def qualifiedPath (g : Grammar) (exprStyle : Bool) : Parser PathShape := do
  if ← test (atPunct "<") then
    let _ ← punct "<"
    let self ← g.typeText true
    let role ← optional (atWord "as") do
      let _ ← word "as"
      return "as" ++ (← path g false).text
    let _ ← punct ">"
    let _ ← punct "::"
    let first ← segment g exprStyle
    let more ← moreSegments g exprStyle false
    return joinSegments ("<" ++ self ++ role ++ ">::") true false first more
  else path g exprStyle

/-- Whether a macro call goes on after its path. -/
def atMacroCall (p : PathShape) (ts : List Token) : Bool :=
  atBang ts && p.isModule

/-- The rest of a macro call after its path, with its delimiter. -/
def macroArgs : Parser (Delimiter × String) := do
  let mark ← punct "!"
  let (d, args) ← anyGroup
  return (d, mark ++ args)

/-! ## Lists of parameters -/

/-- The text of parameters or arguments between angle brackets, lifetimes first. -/
def bracketText (items : List (ArgText × Bool)) : String :=
  argsText "<" (endsWithComma items) (items.map (·.1))

/-- Lifetimes that a bound or a function type is generic over, with any other parameters. -/
def forLifetimes (g : Grammar) : Parser String :=
  cat [word "for", punct "<", separatedText (atPunct ">") "," ((·.text) <$> g.param), punct ">"]

/-! ## Bounds -/

/-- What a function gives back, after its arrow. -/
def returnType (g : Grammar) (plus : Bool) : Parser (Option TypeShape) :=
  whenAt (atPunct "->") (do
    let _ ← punct "->"
    return some (← g.type plus)) none

/-- A return type as the end of something. -/
def returnTail : Option TypeShape → Tail
  | some t => ⟨"->" ++ t.text, t.endsInBrace⟩
  | none => ⟨"", false⟩

/-- Bounds after a colon, which is left out when there are none. -/
def colonText (bounds : List (String × Bool)) : String :=
  if bounds.isEmpty then "" else ":" ++ listText "+" bounds

/-- A lifetime parameter after its attributes. -/
def lifetimeParam : Parser String := do
  let l ← lifetime
  return l ++ (← optional (atPunct ":") do
    let _ ← punct ":"
    return colonText (← joined (fun ts => atPunct "," ts || atPunct ">" ts) "+" lifetime))

/-- Whether another bound can follow a plus sign. -/
def atBound (allowConst : Bool) (ts : List Token) : Bool :=
  atIdent ts || atPunct "::" ts || atPunct "?" ts || atLifetime ts || atParen ts ||
    (allowConst && (atBracket ts || atWord "const" ts))

/-- Types between parentheses and a result, as the arguments of a function trait. -/
def parenArgs (g : Grammar) : Parser Tail := do
  let inputs ← parens (commaText (g.typeText true))
  let output := returnTail (← returnType g false)
  return ⟨inputs ++ output.text, output.endsInBrace⟩

/-- `const` or `[const]` before a trait, if there. -/
def constMark : Parser Bool := do
  if ← test atBracket then
    let _ ← group .bracket (word "const")
    return true
  return (← optWord "const") != ""

/-- A trait with the arguments that it may have in a bound. -/
def traitPath (g : Grammar) : Parser Tail := do
  let p ← path g false
  let called := fun ts =>
    p.args.isEmpty && (atParen ts || (atPunct "::" ts && skip 2 atParen ts))
  if ← test called then
    let _ ← optPunct "::"
    let args ← parenArgs g
    return ⟨p.qualifier ++ p.name ++ args.text, args.endsInBrace⟩
  return ⟨p.text, false⟩

/-- A trait as a bound; gives whether it is marked as constant. -/
def traitBound (g : Grammar) (allowConst : Bool) : Parser (Bool × Tail) := do
  let lifetimes ← optional (atWord "for") (forLifetimes g)
  let isConst ← constMark
  if isConst && !allowConst then fail
  let maybe ← optPunct "?"
  if maybe != "" then require fun ts => lifetimes == "" && !atWord "for" ts
  let p ← traitPath g
  return (isConst, ⟨lifetimes ++ maybe ++ p.text, p.endsInBrace⟩)

/-- A name that an opaque type captures. -/
def capturedName : Parser ArgText := do
  if ← test atLifetime then return ⟨true, ← lifetime⟩
  else if ← test (atWord "Self") then return ⟨false, ← ident⟩
  else return ⟨false, ← name⟩

/-- The names that an opaque type captures. -/
def preciseCapture : Parser String := do
  let w ← word "use"
  let _ ← punct "<"
  let names ← separated (atPunct ">") "," capturedName
  let _ ← punct ">"
  return w ++ bracketText names

/-- A trait as a bound, perhaps in parentheses. -/
def traitBoundShape (g : Grammar) (allowConst : Bool) : Parser (Bool × BoundShape) := do
  if ← test atParen then
    let (isConst, b) ← group .paren (traitBound g allowConst)
    return (isConst, ⟨.trait, "(" ++ b.text ++ ")", b.text, b.endsInBrace⟩)
  else
    let (isConst, b) ← traitBound g allowConst
    return (isConst, ⟨.trait, b.text, b.text, b.endsInBrace⟩)

/-- One bound. -/
def bound (g : Grammar) (allowCapture allowConst : Bool) : Parser BoundShape := fun i =>
  if atLifetime i.tokens then (lifetime i).map fun p => (⟨.other, p.1, p.1, false⟩, p.2)
  else if atWord "use" i.tokens then
    if allowCapture then (preciseCapture i).map fun p => (⟨.other, p.1, p.1, false⟩, p.2)
    else none
  else
    (traitBoundShape g allowConst i).map fun p =>
      let written := i.taken p.2
      if p.1.1 then
        (⟨.verbatim, tokensText written, tokensText written, endInBrace written⟩, p.2)
      else (p.1.2, p.2)

/-- The text of one bound. -/
def boundText (g : Grammar) (allowConst : Bool) : Parser String := do
  return (← bound g false allowConst).text

/-! ## Generic parameters -/

/-- Bounds of a parameter after its colon; another bound follows each plus sign unless the
parameter ends there. -/
def paramBounds (g : Grammar) (stop : List Token → Bool) : Parser (List (String × Bool)) :=
  joined stop "+" (boundText g true)

/-- A type parameter after its attributes. -/
def typeParam (g : Grammar) : Parser String := do
  let n ← name
  let bounds ← optional (atPunct ":") do
    let _ ← punct ":"
    return colonText
      (← paramBounds g fun ts => atPunct "," ts || atPunct ">" ts || atPunct "=" ts)
  return n ++ bounds ++ (← optional (atPunct "=") (cat [punct "=", g.typeText true]))

/-- A constant parameter after its attributes. -/
def constParam (g : Grammar) : Parser String := do
  let n ← cat [word "const", name, punct ":", g.typeText true]
  return n ++ (← optional (atPunct "=") do
    let _ ← punct "="
    return "=" ++ (← if ← test atConstArgument then constArgument g else name))

/-- A generic parameter. -/
def genericParam (g : Grammar) : Parser ArgText := do
  let attributes ← outerText g
  if ← test atLifetime then return ⟨true, attributes ++ (← lifetimeParam)⟩
  else if ← test (atWord "const") then return ⟨false, attributes ++ (← constParam g)⟩
  else return ⟨false, attributes ++ (← typeParam g)⟩

end Parser

end RpcBindings.Rust
