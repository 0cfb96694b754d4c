import RpcBindings.Rust.Grammar.Expression

/-!
Visibility, and the heads of functions.
-/

namespace RpcBindings.Rust

/-- Who can see an item. -/
inductive Visibility where
  | inherited
  | everywhere
  | restricted
  deriving DecidableEq, Repr

/-- A parameter of a function. -/
inductive FnParam where
  /-- `self`, perhaps behind a reference, perhaps mutable. -/
  | receiver (byReference mutable : Bool)
  | typed (pattern : PatternForm) (type : RustType)

/-- The head of a function. -/
structure Signature where
  name : String
  params : List FnParam
  output : Option RustType

/-- The head of a function with its text. -/
structure SignatureShape where
  signature : Signature
  text : String
  /-- The word `safe` stands before it. -/
  isSafe : Bool

namespace Parser

/-! ## Visibility -/

/-- What parentheses after `pub` restrict it to: a word alone, or a path after `in`. -/
def restriction : Parser String := do
  if ← test (atWord "in") then return (← word "in") ++ (← namePath).text
  else ident

/-- Whether parentheses come next that restrict a visibility. A path after `in` must then be well
formed. -/
def atRestriction : List Token → Bool
  | .group .paren inner :: _ =>
    atWord "in" inner || (atWords ["crate", "self", "super"] inner && inner.length = 1)
  | _ => false

/-- Who can see an item, with the text that says so. -/
def visibility : Parser (Visibility × String) := do
  if ← test (atWord "pub") then
    let w ← word "pub"
    if ← test atRestriction then return (.restricted, w ++ (← parens restriction))
    return (.everywhere, w)
  return (.inherited, "")

/-! ## Parameters -/

/-- A parameter with its text. -/
structure ParamShape where
  param : FnParam
  text : String

/-- `self` as a parameter. -/
def receiver (g : Grammar) : Parser ParamShape := do
  let reference ← optPunct "&"
  let byReference := reference != ""
  let lifetime ← if byReference then optLifetime else pure ""
  let mutability ← optWord "mut"
  let self ← word "self"
  let annotation ← if byReference then pure "" else typeAnnotation g
  return ⟨.receiver byReference (mutability != ""),
    reference ++ lifetime ++ mutability ++ self ++ annotation⟩

/-- The dots of a function with any number of arguments; a comma may follow at the end. -/
def dots : Parser String :=
  cat [punct "...", optional (fun ts => !atEnd ts) (punct ",")]

/-- A parameter that is no `self`, or the text of dots. Without a pattern a generic type is taken
for one, and the pattern is printed as `_`. -/
def typedParam (g : Grammar) : Parser (ParamShape ⊕ String) := do
  if ← test (fun ts => atName ts && skip 1 (atPunct "<") ts) then
    let t ← g.type true
    return .inl ⟨.typed .other t.type, "_:" ++ t.text⟩
  let p ← g.pattern
  let colon ← punct ":"
  if ← test (atPunct "...") then return .inr (p.text ++ colon ++ (← dots))
  let t ← g.type true
  return .inl ⟨.typed p.form t.type, p.text ++ colon ++ t.text⟩

def isReceiver : FnParam → Bool
  | .receiver _ _ => true
  | .typed _ _ => false

/-- A parameter with its attributes, or dots, which end the list. Only the first can be `self`. -/
def fnParam (g : Grammar) (first : Bool) : Parser (Element (Option FnParam × String)) := do
  let attributes ← outerText g
  if ← test (atPunct "...") then return ((none, attributes ++ (← dots)), true)
  match ← orElse (.inl <$> receiver g) (typedParam g) with
  | .inr text => return ((none, attributes ++ text), true)
  | .inl p =>
    if isReceiver p.param && !first then fail
    return ((some p.param, attributes ++ p.text), false)

/-- The parameters of a function, with their text. -/
def fnParams (g : Grammar) : Parser (List FnParam × String) := do
  let items ← elements atEnd "," (fnParam g)
  return (items.filterMap (·.1.1), listText "," (items.map fun p => (p.1.2, p.2)))

/-! ## Heads -/

/-- Words that may stand before `fn`, each at most once and in this order; gives whether `safe` is
among them. -/
def fnQualifiers (allowSafe : Bool) : Parser (Bool × String) := do
  let head ← cat [optWord "const", optWord "async"]
  let safety ← optWord "unsafe"
  let safe ← optional (fun ts => allowSafe && safety == "" && atWord "safe" ts) (word "safe")
  return (safe != "", head ++ safety ++ safe ++ (← optAbi))

/-- Whether the head of a function comes next. -/
def atSignature (allowSafe : Bool) (ts : List Token) : Bool :=
  match fnQualifiers allowSafe ⟨ts, false⟩ with
  | some (_, after) => atWord "fn" after.tokens
  | none => false

def signature (g : Grammar) (allowSafe : Bool) : Parser SignatureShape := do
  let (isSafe, qualifiers) ← fnQualifiers allowSafe
  let w ← word "fn"
  let n ← name
  let params ← generics g
  let (inputs, inputsText) ← group .paren (fnParams g)
  let output ← returnType g true
  let conditions ← whereText g
  return {
    signature := ⟨n, inputs, output.map (·.type)⟩
    text := qualifiers ++ w ++ n ++ params.text ++ between .paren inputsText ++
      (returnTail output).text ++ conditions
    isSafe }

end Parser

end RpcBindings.Rust
