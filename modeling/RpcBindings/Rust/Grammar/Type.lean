import RpcBindings.Rust.Grammar.Path

/-!
Types.

A type is told by its first token. Bounds joined by `+` are a type where nothing else could claim
the plus sign; after a reference or a pointer they need parentheses.
-/

namespace RpcBindings.Rust.Parser

/-- The name and arguments of a type that is one plain segment. -/
def plainSegment? : RustType → Option String
  | .path "" n args => some (n ++ args.text)
  | _ => none

/-- A generic argument. A type of one segment may turn out to be bound or constrained. -/
def genericArg (g : Grammar) : Parser GenericArg := do
  if ← test (fun ts => atLifetime ts && !skip 1 (atPunct "+") ts) then
    return .lifetime (← lifetime)
  if ← test atConstArgument then return .other (← constArgument g)
  let t := (← g.type true).type
  match plainSegment? t with
  | none => return .type t
  | some n =>
    if ← test (atPunct "=") then
      let _ ← punct "="
      let value ← if ← test atConstArgument then constArgument g else g.typeText true
      return .other (n ++ "=" ++ value)
    else if ← test (atPunct ":") then
      let _ ← punct ":"
      let bounds ← paramBounds g fun ts => atPunct "," ts || atPunct ">" ts
      return .other (n ++ ":" ++ listText "+" bounds)
    else return .type t

/-! ## Bounds as types -/

/-- Bounds one after another, the first already read. -/
def boundsTail (first : BoundShape) (more : List (String × Option BoundShape)) : Tail :=
  ⟨first.text ++ String.join (more.map fun m => m.1 ++ (m.2.map BoundShape.text).getD ""),
    ((more.filterMap (·.2)).getLast?.getD first).endsInBrace⟩

/-- Bounds after the first, each after a plus sign; one plus sign may follow the last. -/
def moreBounds (g : Grammar) (allowCapture allowConst : Bool) :
    Parser (List (String × Option BoundShape)) := do
  let bounds ← many (fun ts => atPunct "+" ts && skip 1 (atBound allowConst) ts) do
    let plus ← punct "+"
    return (plus, some (← bound g allowCapture allowConst))
  let plus ← optPunct "+"
  return if plus == "" then bounds else bounds ++ [(plus, none)]

/-- One or more bounds, of which one must name a trait. -/
def typeBounds (g : Grammar) (plus allowCapture allowConst : Bool) : Parser Tail := do
  let first ← bound g allowCapture allowConst
  let more ← if plus then moreBounds g allowCapture allowConst else pure []
  require fun _ => (first :: more.filterMap (·.2)).any fun b => b.kind != .other
  return boundsTail first more

/-- Bounds that each follow a plus sign, without a plus sign at the end. -/
def boundsAfterPlus (g : Grammar) : Parser (List (String × Option BoundShape)) :=
  many (atPunct "+") do
    let plus ← punct "+"
    return (plus, some (← bound g false false))

/-! ## Function types -/

/-- The name of a function type's parameter, with its colon. -/
def paramName (allowSelf : Bool) : Parser String :=
  optional (fun ts =>
    (atName ts || atWord "_" ts || (allowSelf && atWord "self" ts)) && skip 1 atColon ts)
    (cat [ident, punct ":"])

/-- A parameter of a function type after its attributes. A `self` that is mutable is printed as it is
written. -/
def fnTypeParam (g : Grammar) (allowSelf : Bool) : Parser String := do
  let atMutableSelf := fun ts => allowSelf && atWord "mut" ts && skip 1 (atWord "self") ts
  if ← test atMutableSelf then
    verbatim do
      let _ ← word "mut"
      let n ← paramName allowSelf
      if n == "" then word "self" else g.typeText true
  else
    let n ← paramName allowSelf
    if ← test (fun ts => n != "self:" && atMutableSelf ts) then
      return n ++ (← cat [word "mut", word "self"])
    else return n ++ (← g.typeText true)

/-- Whether the dots of a function type with any number of arguments come next. -/
def atVariadic (ts : List Token) : Bool :=
  atPunct "..." ts ||
    ((atName ts || atWord "_" ts) && skip 1 (atPunct ":") ts && skip 2 (atPunct "...") ts)

/-- The dots of a function type, with a name and a comma that may be missing. -/
def variadic : Parser String :=
  cat [optional atIdent (cat [ident, punct ":"]), punct "...", optPunct ","]

/-- The parameters of a function type. Dots end them. -/
def fnTypeParams (g : Grammar) : Parser String := do
  return listText "," (← elements atEnd "," fun first => do
    let attributes ← outerText g
    if ← test atVariadic then return (attributes ++ (← variadic), true)
    else return (attributes ++ (← fnTypeParam g first), false))

/-- The text of a string literal. -/
def stringText : Parser String := do
  require atString
  return (← literal).2

/-- `extern` with the name of an interface that may be missing. -/
def abi : Parser String :=
  cat [word "extern", optional atString stringText]

/-- The text of `extern` and an interface, if there is one. -/
def optAbi : Parser String := optional (atWord "extern") abi

/-- A function type after the lifetimes that it is generic over. -/
def fnType (g : Grammar) : Parser Tail := do
  let head ← cat [optWord "unsafe", optAbi, word "fn", parens (fnTypeParams g)]
  let output := returnTail (← returnType g false)
  return ⟨head ++ output.text, output.endsInBrace⟩

/-! ## Types by their first token -/

/-- A type that is kept as a text. -/
def ofTail (t : Tail) : TypeShape := { type := .other t.text, endsInBrace := t.endsInBrace }

/-- What parentheses hold. -/
inductive ParenShape where
  /-- The elements of a tuple. -/
  | tuple (text : String)
  | type (t : TypeShape)
  /-- Bounds that begin with a lifetime. -/
  | bounds (text : String)
  /-- A bound that may be missing. -/
  | maybe (b : Tail)

/-- The content of parentheses. -/
def parenContent (g : Grammar) : Parser ParenShape := do
  if ← test atEnd then return .tuple ""
  if ← test atLifetime then return .bounds (← typeBounds g true false false).text
  if ← test (atPunct "?") then return .maybe (← traitBound g false).2
  let first ← g.type true
  if ← test (atPunct ",") then
    return .tuple (first.text ++ (← cat [punct ",", commaText (g.typeText true)]))
  return .type first

/-- A bound in parentheses and those after it. -/
def parenBounds (g : Grammar) (first : Tail) : Parser TypeShape := do
  let more ← boundsAfterPlus g
  let whole := boundsTail ⟨.trait, "(" ++ first.text ++ ")", first.text, first.endsInBrace⟩ more
  return { ofTail whole with bound? := if more.isEmpty then some first.text else none }

/-- A type in parentheses, or a tuple. -/
def parenType (g : Grammar) (plus : Bool) : Parser TypeShape := do
  match ← group .paren (parenContent g) with
  | .tuple text => return { type := .other ("(" ++ text ++ ")") }
  | .bounds text => return { type := .paren (.other text) }
  | .maybe b => parenBounds g b
  | .type t =>
    match t.bound?, ← test (fun ts => plus && atPunct "+" ts) with
    | some b, true => parenBounds g ⟨b, t.endsInBrace⟩
    | _, _ => return { type := .paren t.type }

/-- A path as a type, a macro call, or the first of some bounds. -/
def pathType (g : Grammar) (lifetimes : String) (plus : Bool) : Parser TypeShape := do
  let p ← qualifiedPath g false
  if p.isQualified then return { type := .projection p.qualifier p.name p.args }
  if ← test (atMacroCall p) then
    let (d, args) ← macroArgs
    return { type := .other (p.text ++ args), endsInBrace := d == .brace }
  let text := lifetimes ++ p.text
  if ← test (fun ts => lifetimes != "" || (plus && atPunct "+" ts)) then
    let more ← if plus then moreBounds g false false else pure []
    let whole := boundsTail ⟨.trait, text, text, false⟩ more
    return { ofTail whole with bound? := if more.isEmpty then some text else none }
  return { type := .path p.qualifier p.name p.args, bound? := some text }

/-- A trait object. One with a star is printed as it is written. -/
def dynType (g : Grammar) (plus : Bool) : Parser TypeShape := do
  if ← test (skip 1 (atPunct "*")) then
    return ofTail (← verbatimTail do
      let _ ← word "dyn"
      let _ ← punct "*"
      typeBounds g plus false false)
  else
    let w ← word "dyn"
    let bounds ← typeBounds g plus false false
    return ofTail ⟨w ++ bounds.text, bounds.endsInBrace⟩

/-- An opaque type. -/
def implType (g : Grammar) (plus : Bool) : Parser TypeShape := do
  let w ← word "impl"
  let bounds ← typeBounds g plus true true
  return ofTail ⟨w ++ bounds.text, bounds.endsInBrace⟩

/-- A slice or an array. -/
def bracketType (g : Grammar) : Parser TypeShape :=
  group .bracket do
    let elem ← g.type true
    if ← test (atPunct ";") then
      let _ ← punct ";"
      return { type := .array elem.type (← g.exprText true) }
    else return { type := .slice elem.type }

def pointerType (g : Grammar) : Parser TypeShape := do
  let marks ← cat [punct "*", do if ← test (atWord "const") then word "const" else word "mut"]
  let elem ← g.type false
  return ofTail ⟨marks ++ elem.text, elem.endsInBrace⟩

def referenceType (g : Grammar) : Parser TypeShape := do
  let marks ← cat [punct "&", optLifetime, optWord "mut"]
  let elem ← g.type false
  return { type := .reference marks elem.type, endsInBrace := elem.endsInBrace }

/-- Whether a name comes next that the compiler gives a meaning. -/
def atBuiltin (ts : List Token) : Bool :=
  atWord "builtin" ts && skip 1 (atPunct "#") ts

/-- A name that the compiler gives a meaning, with its arguments. -/
def builtin : Parser String :=
  cat [word "builtin", punct "#", name, parens rest]

/-- A type; the flag allows bounds joined by `+`. -/
def typeOver (g : Grammar) (plus : Bool) : Parser TypeShape := do
  let fnWords := ["fn", "unsafe", "extern"]
  let pathWords := ["super", "self", "Self", "crate"]
  let start ← get
  let lifetimes ← optional (atWord "for") do
    let l ← forLifetimes g
    require fun ts => atName ts || atWords fnWords ts || atWords pathWords ts
    return l
  if ← test atParen then parenType g plus
  else if ← test (atWords fnWords) then
    let f ← fnType g
    return ofTail ⟨lifetimes ++ f.text, f.endsInBrace⟩
  else if ← test atBuiltin then
    let _ ← builtin
    return { type := .other (tokensText (start.taken (← get))) }
  else if ← test (fun ts => atName ts || atWords pathWords ts || atPunct "::" ts || atPunct "<" ts)
    then pathType g lifetimes plus
  else if ← test (atWord "dyn") then dynType g plus
  else if ← test atBracket then bracketType g
  else if ← test (atPunct "*") then pointerType g
  else if ← test (atPunct "&") then referenceType g
  else if ← test (fun ts => atPunct "!" ts && !atPunct "=" ts) then
    return { type := .other (← punct "!") }
  else if ← test (atWord "impl") then implType g plus
  else if ← test (atWord "_") then return { type := .other (← ident) }
  else if ← test atLifetime then return ofTail (← typeBounds g true false false)
  else fail

/-! ## Generic parameters and their conditions -/

/-- Whether generic parameters come next, not a type between angle brackets. -/
def atGenerics (ts : List Token) : Bool :=
  atPunct "<" ts &&
    (skip 1 (atPunct ">") ts || skip 1 (atPunct "#") ts || skip 1 (atWord "const") ts ||
      ((skip 1 atName ts || skip 1 atLifetime ts) &&
        (skip 2 (atPunct ">") ts || skip 2 (atPunct ",") ts || skip 2 atColon ts ||
          skip 2 (atPunct "=") ts)))

/-- Generic parameters. -/
structure Generics where
  text : String
  count : Nat
  /-- There are brackets, perhaps empty ones. -/
  isWritten : Bool

/-- Generic parameters between angle brackets, if any. Empty brackets are not printed. -/
def generics (g : Grammar) : Parser Generics :=
  whenAt (atPunct "<") (do
    let _ ← punct "<"
    let params ← separated (atPunct ">") "," do
      let attributes ← outerText g
      let p ← if ← test (atWord "_") then pure ⟨false, ← ident⟩ else g.param
      return (⟨p.isLifetime, attributes ++ p.text⟩ : ArgText)
    let _ ← punct ">"
    return ⟨if params.isEmpty then "" else bracketText params, params.length, true⟩)
    ⟨"", 0, false⟩

/-- Where the conditions on generic parameters end. -/
def atWhereEnd (ts : List Token) : Bool :=
  atEnd ts || atBrace ts || atPunct "," ts || atPunct ";" ts || atColon ts || atPunct "=" ts

/-- One condition. -/
def wherePredicate (g : Grammar) : Parser String := do
  if ← test (fun ts => atLifetime ts && skip 1 (atPunct ":") ts) then
    cat [lifetime, punct ":", joinedText atWhereEnd "+" lifetime]
  else
    cat [optional (atWord "for") (forLifetimes g), g.typeText true, punct ":",
      listText "+" <$> paramBounds g atWhereEnd]

/-- The conditions on generic parameters, if there is a list of them. The list itself has no generic
parameters. -/
def whereClause? (g : Grammar) : Parser (Option String) :=
  whenAt (atWord "where") (do
    let w ← word "where"
    require fun ts => !atGenerics ts
    let predicates ← joinedText atWhereEnd "," (wherePredicate g)
    return some (if predicates == "" then "" else w ++ predicates)) none

/-- The text of the conditions on generic parameters. -/
def whereText (g : Grammar) : Parser String := do
  return (← whereClause? g).getD ""

end RpcBindings.Rust.Parser
