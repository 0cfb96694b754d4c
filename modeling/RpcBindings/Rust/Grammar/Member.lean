import RpcBindings.Rust.Grammar.Function

/-!
Members of traits, of implementations and of foreign blocks.

A member of a form that has no meaning is printed as it is written, with its attributes.
-/

namespace RpcBindings.Rust

/-- A method of a trait. -/
structure TraitMethod where
  attributes : List MetaItem
  signature : Signature
  hasBody : Bool

/-- A member of a trait. -/
inductive TraitMember where
  | method (method : TraitMethod)
  | other

namespace Parser

/-! ## Constants and types -/

/-- A constant from its first word on. -/
structure ConstShape where
  text : String
  hasValue : Bool
  /-- There are no generic parameters and no conditions, not even empty ones. -/
  isPlain : Bool

def constItem (g : Grammar) : Parser ConstShape := do
  let head ← cat [word "const", do if ← test (atWord "_") then ident else name]
  let params ← generics g
  let type ← cat [punct ":", g.typeText true]
  let value ← optional (atPunct "=") (cat [punct "=", g.exprText true])
  let conditions ← whereClause? g
  let close ← punct ";"
  return {
    text := head ++ type ++ value ++ close
    hasValue := value != ""
    isPlain := !params.isWritten && conditions.isNone }

/-- Where the conditions of a type definition may stand. -/
inductive WherePlace where
  | beforeDefinition
  | afterDefinition
  | either
  deriving DecidableEq

/-- A type definition from its first word on, in parts. -/
structure TypeDefinition where
  /-- The text of its name and its generic parameters. -/
  head : String
  hasColon : Bool
  bounds : String
  conditions : String
  /-- What follows the name, with `=`. -/
  definition? : Option String

/-- The bounds of an associated type, up to its conditions, its definition or its end. -/
def typeBoundList (g : Grammar) : Parser (List (String × Bool)) :=
  let stop := fun ts => atWord "where" ts || atPunct "=" ts || atPunct ";" ts
  separated stop "+" (boundText g true)

def typeDefinition (g : Grammar) (place : WherePlace) : Parser TypeDefinition := do
  let w ← word "type"
  let n ← name
  let params ← generics g
  let colon ← optPunct ":"
  let bounds ← if colon == "" then pure [] else typeBoundList g
  let early ← if place = .afterDefinition then pure none else whereClause? g
  let definition? ← whenAt (atPunct "=") (some <$> cat [punct "=", g.typeText true]) none
  let late ← if place = .beforeDefinition || early.isSome then pure none else whereClause? g
  let _ ← punct ";"
  return {
    head := w ++ n ++ params.text
    hasColon := colon != ""
    bounds := colonText bounds
    conditions := (early <|> late).getD ""
    definition? }

/-! ## Macro calls -/

/-- What may begin a macro call. -/
def atMacroPath (ts : List Token) : Bool :=
  atName ts || atWords ["self", "super", "crate"] ts || atPunct "::" ts

/-- The arguments of a macro call, which a semicolon ends if they are not between braces. -/
def macroEnd : Parser String := do
  let (d, args) ← anyGroup
  if d == .brace then return args else return args ++ (← punct ";")

/-- A macro call as a member. -/
def macroMember : Parser String := do
  let p ← namePath
  return p.text ++ (← cat [punct "!", macroEnd])

/-! ## Members of traits -/

/-- A method of a trait after its attributes. -/
def traitMethod (g : Grammar) (attributes : List MetaItem) : Parser (TraitMethod × String) := do
  let s ← signature g false
  if ← test atBrace then
    return (⟨attributes, s.signature, true⟩, s.text ++ (← attributedBlock g))
  else return (⟨attributes, s.signature, false⟩, s.text ++ (← punct ";"))

/-- A member of a trait, with its text if it has a meaning. A method with a visibility is no method
of the trait. -/
def traitMember (g : Grammar) : Parser (TraitMember × Option String) := do
  let attributes ← outerAttributes g
  let marks ← cat [(·.2) <$> visibility, optWord "default"]
  let kept := fun (text : String) =>
    if marks == "" then some (attributesText "#" attributes ++ text) else none
  if ← test (fun ts => atWord "fn" ts || atSignature false ts) then
    let (m, text) ← traitMethod g attributes
    return (if marks == "" then .method m else .other, kept text)
  else if ← test (atWord "const") then
    let c ← constItem g
    return (.other, if c.isPlain then kept c.text else none)
  else if ← test (atWord "type") then
    let t ← typeDefinition g .afterDefinition
    return (.other, kept (t.head ++ t.bounds ++ t.definition?.getD "" ++ t.conditions ++ ";"))
  else if ← test (fun ts => marks == "" && atMacroPath ts) then
    return (.other, kept (← macroMember))
  else fail

/-- Members up to the end of a body, which may begin with attributes. -/
def memberList (g : Grammar) (member : Parser String) : Parser String :=
  braces (cat [innerText g, manyText (fun ts => !atEnd ts) member])

def traitBody (g : Grammar) : Parser String :=
  memberList g (orVerbatim ((·.2) <$> traitMember g))

/-! ## Members of implementations -/

/-- Whether a word marks a member as one that may be replaced. -/
def atDefault (ts : List Token) : Bool :=
  atWord "default" ts && !skip 1 (atPunct "!") ts

/-- A member of an implementation, with its text if it has a meaning. -/
def implMember (g : Grammar) : Parser (Option String) := do
  let attributes ← outerText g
  let marks ← cat [(·.2) <$> visibility, optional atDefault (word "default")]
  let head := attributes ++ marks
  if ← test (fun ts => atWord "fn" ts || atSignature false ts) then
    let s ← signature g false
    if ← test (atPunct ";") then
      let _ ← punct ";"
      return none
    return some (head ++ s.text ++ (← attributedBlock g))
  else if ← test (atWord "const") then
    let c ← constItem g
    return if c.hasValue && c.isPlain then some (head ++ c.text) else none
  else if ← test (atWord "type") then
    let t ← typeDefinition g .afterDefinition
    match t.hasColon, t.definition? with
    | false, some definition => return some (head ++ t.head ++ definition ++ t.conditions ++ ";")
    | _, _ => return none
  else if ← test (fun ts => marks == "" && atMacroPath ts) then
    return some (head ++ (← macroMember))
  else fail

def implBody (g : Grammar) : Parser String :=
  memberList g (orVerbatim (implMember g))

/-! ## Members of foreign blocks -/

/-- Whether a variable comes next that is linked from elsewhere. -/
def atForeignStatic (ts : List Token) : Bool :=
  atWord "static" ts || (atWords ["unsafe", "safe"] ts && skip 1 (atWord "static") ts)

/-- A variable that is linked from elsewhere, with its text if it has a meaning. -/
def foreignStatic (g : Grammar) : Parser (Option String) := do
  let safety ← optional (atWords ["unsafe", "safe"]) ident
  let head ← cat [word "static", optWord "mut", name, punct ":", g.typeText true]
  let value ← optional (atPunct "=") (cat [punct "=", g.exprText true])
  let close ← punct ";"
  return if safety == "" && value == "" then some (head ++ close) else none

/-- A member of a foreign block, with its text if it has a meaning. -/
def foreignMember (g : Grammar) : Parser (Option String) := do
  let attributes ← outerText g
  let marks := (← visibility).2
  let head := attributes ++ marks
  if ← test (fun ts => atWord "fn" ts || atSignature true ts) then
    let s ← signature g true
    if ← test atBrace then
      let _ ← attributedBlock g
      return none
    let close ← punct ";"
    return if s.isSafe then none else some (head ++ s.text ++ close)
  else if ← test atForeignStatic then
    return (← foreignStatic g).map (head ++ ·)
  else if ← test (atWord "type") then
    let t ← typeDefinition g .either
    if t.hasColon || t.definition?.isSome then return none
    return some (head ++ t.head ++ t.conditions ++ ";")
  else if ← test (fun ts => marks == "" && atMacroPath ts) then
    return some (head ++ (← macroMember))
  else fail

def foreignBody (g : Grammar) : Parser String :=
  memberList g (orVerbatim (foreignMember g))

end Parser

end RpcBindings.Rust
