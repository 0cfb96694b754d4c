import RpcBindings.Rust.Grammar.Member

/-!
Items: structs, and what else may stand in a block or a module.

Structs keep what the generator reads from them. An item of a form that has no meaning is printed as
it is written, with its attributes.
-/

namespace RpcBindings.Rust

/-- A field of a struct. -/
structure StructField where
  attributes : List MetaItem
  name : String
  type : RustType

/-- A struct; one without named fields has no list of them. -/
structure StructItem where
  attributes : List MetaItem
  visibility : Visibility
  name : String
  isGeneric : Bool
  fields? : Option (List StructField)

namespace Parser

/-! ## Structs -/

/-- The type of a field. A field without a name may have fields of its own, which are printed as they
are written. -/
def fieldType (g : Grammar) (unnamed : Bool) : Parser RustType := do
  let nested := fun ts =>
    unnamed && (atWord "struct" ts || (atWord "union" ts && skip 1 atBrace ts))
  if ← test nested then
    return .other (← verbatim do
      let _ ← ident
      g.innerFields)
  else return (← g.type true).type

/-- A field with a name, and its text. -/
def namedField (g : Grammar) : Parser (StructField × String) := do
  let attributes ← outerAttributes g
  let vis := (← visibility).2
  let unnamed ← test (atWord "_")
  let n ← if unnamed then ident else name
  let colon ← punct ":"
  let t ← fieldType g unnamed
  return (⟨attributes, n, t⟩, attributesText "#" attributes ++ vis ++ n ++ colon ++ t.text)

/-- The named fields of a struct, and their text. -/
def namedFields (g : Grammar) : Parser (List StructField × String) := do
  let items ← group .brace (separated atEnd "," (namedField g))
  return (items.map (·.1.1), between .brace (listText "," (items.map fun p => (p.1.2, p.2))))

/-- The fields between braces of a struct that stands as the type of a field. -/
def innerFieldsOver (g : Grammar) : Parser String := do
  return (← namedFields g).2

/-- The text of fields without names. -/
def plainFields (g : Grammar) : Parser String :=
  parens (commaText (cat [outerText g, (·.2) <$> visibility, g.typeText true]))

/-- The fields of a struct, with conditions before braces or after parentheses. -/
def structBody (g : Grammar) : Parser (Option (List StructField) × String) := do
  let early ← whereClause? g
  let conditions := early.getD ""
  if ← test (fun ts => early.isNone && atParen ts) then
    return (none, ← cat [plainFields g, whereText g, punct ";"])
  else if ← test atBrace then
    let (fields, text) ← namedFields g
    return (some fields, conditions ++ text)
  else return (none, conditions ++ (← punct ";"))

/-- A struct, and its text. -/
def structItem (g : Grammar) : Parser (StructItem × String) := do
  let attributes ← outerAttributes g
  let (who, vis) ← visibility
  let w ← word "struct"
  let n ← name
  let params ← generics g
  let (fields?, body) ← structBody g
  return (⟨attributes, who, n, params.count != 0, fields?⟩,
    attributesText "#" attributes ++ vis ++ w ++ n ++ params.text ++ body)

/-! ## Enumerations and unions -/

/-- A variant of an enumeration. Its visibility is not printed. -/
def enumVariant (g : Grammar) : Parser String := do
  let attributes ← outerText g
  let _ ← visibility
  let n ← name
  let fields ← if ← test atBrace then pure (← namedFields g).2
    else optional atParen (plainFields g)
  return attributes ++ n ++ fields ++
    (← optional (atPunct "=") (cat [punct "=", g.exprText true]))

/-- The text of generic parameters. -/
def genericsText (g : Grammar) : Parser String := do
  return (← generics g).text

def enumItem (g : Grammar) : Parser String :=
  cat [word "enum", name, genericsText g, whereText g, braces (commaText (enumVariant g))]

def unionItem (g : Grammar) : Parser String :=
  cat [word "union", name, genericsText g, whereText g, (·.2) <$> namedFields g]

/-! ## Names from elsewhere -/

/-- An element of a list of names. Each begins at the root of all crates if it begins with `::`. -/
def useElement (g : Grammar) (allowRoot : Bool) : Parser (String × Bool) := do
  let root ← if allowRoot then optPunct "::" else pure ""
  let (text, rooted) ← g.useTree (allowRoot && root == "")
  return (root ++ text, root != "" || rooted)

/-- What a `use` names: a path that ends in a name, a new name, all names, or a list. -/
def useTreeOver (g : Grammar) (allowRoot : Bool) : Parser (String × Bool) := do
  if ← test (fun ts => atName ts || atWords ["self", "super", "crate", "try"] ts) then
    let n ← ident
    if ← test (atPunct "::") then
      let colons ← punct "::"
      return (n ++ colons ++ (← g.useTree false).1, false)
    else
      let rename ← optional (atWord "as")
        (cat [word "as", do if ← test (atWord "_") then ident else name])
      return (n ++ rename, false)
  else if ← test (atPunct "*") then return (← punct "*", false)
  else
    let items ← group .brace (separated atEnd "," (useElement g allowRoot))
    return (between .brace (listText "," (items.map fun p => (p.1.1, p.2))), items.any (·.1.2))

/-- A `use` after its visibility, with its text if it has a meaning. -/
def useItem (g : Grammar) : Parser (Option String) := do
  let head ← cat [word "use", optPunct "::"]
  let (tree, rooted) ← g.useTree (head == "use")
  let close ← punct ";"
  return if rooted then none else some (head ++ tree ++ close)

/-- A crate that is linked. -/
def externCrate : Parser String :=
  cat [word "extern", word "crate", do if ← test (atWord "self") then ident else name,
    optional (atWord "as") (cat [word "as", do if ← test (atWord "_") then ident else name]),
    punct ";"]

/-- A block of items that are linked from elsewhere. -/
def foreignBlock (g : Grammar) : Parser String :=
  cat [optWord "unsafe", abi, foreignBody g]

/-! ## Other items -/

/-- A variable, with its text if it has a meaning: it must have a type and a value. -/
def staticItem (g : Grammar) : Parser (Option String) := do
  let head ← cat [word "static", optWord "mut", name]
  let type ← optional (fun ts => !atPunct "=" ts) (cat [punct ":", g.typeText true])
  let value ← optional (fun ts => type == "" || !atPunct ";" ts) (cat [punct "=", g.exprText true])
  let close ← punct ";"
  return if type == "" || value == "" then none else some (head ++ type ++ value ++ close)

/-- A type definition as an item, with its text if it has a meaning. -/
def typeItem (g : Grammar) : Parser (Option String) := do
  let t ← typeDefinition g .beforeDefinition
  match t.hasColon, t.definition? with
  | false, some definition => return some (t.head ++ t.conditions ++ definition ++ ";")
  | _, _ => return none

def modItem (g : Grammar) : Parser String :=
  cat [optWord "unsafe", word "mod", do if ← test (atWord "try") then ident else name, do
    if ← test (atPunct ";") then punct ";" else memberList g g.item]

/-- The bounds of a trait, up to its conditions or its body. -/
def superBounds (g : Grammar) : Parser String := do
  let stop := fun ts => atWord "where" ts || atBrace ts
  return colonText (← separated stop "+" (boundText g true))

/-- The bounds that a trait's new name stands for, up to its conditions or its end. -/
def aliasBounds (g : Grammar) : Parser String :=
  separatedText (fun ts => atWord "where" ts || atPunct ";" ts) "+" (boundText g false)

def traitItem (g : Grammar) : Parser String := do
  let marks ← cat [optWord "unsafe", optWord "auto"]
  let head ← cat [word "trait", name, genericsText g]
  if ← test (fun ts => marks == "" && atPunct "=" ts) then
    return head ++ (← cat [punct "=", aliasBounds g, whereText g, punct ";"])
  else
    let bounds ← optional (atPunct ":") do
      let _ ← punct ":"
      superBounds g
    return marks ++ head ++ bounds ++ (← cat [whereText g, traitBody g])

/-- Whether a type is a plain path, as the name of a trait is. -/
def isTraitName : RustType → Bool
  | .path _ _ _ => true
  | _ => false

/-- What an implementation is for: its text, and whether that has a meaning. -/
def implTarget (g : Grammar) : Parser (String × Bool) := do
  let polarity ← optional (fun ts => atPunct "!" ts && !skip 1 atBrace ts) (punct "!")
  let first ← g.type true
  if ← test (atWord "for") then
    let w ← word "for"
    let self ← g.typeText true
    return (polarity ++ first.text ++ w ++ self, isTraitName first.type)
  else
    if polarity != "" then fail
    return (first.text, true)

/-- Whether an implementation is marked as one that holds in constants. -/
def atConstImpl (ts : List Token) : Bool :=
  atWord "const" ts || (atPunct "?" ts && skip 1 (atWord "const") ts)

/-- An implementation after its visibility, with its text if it has a meaning. -/
def implItem (g : Grammar) : Parser (Option String) := do
  let head ← cat [optWord "default", optWord "unsafe", word "impl",
    optional atGenerics (genericsText g)]
  let constness ← optional atConstImpl (cat [optPunct "?", word "const"])
  let (target, isMeant) ← implTarget g
  let body ← cat [whereText g, implBody g]
  return if constness == "" && isMeant then some (head ++ target ++ body) else none

/-- A macro of the newer form. -/
def macroDefinition : Parser String :=
  cat [word "macro", name, optional atParen (parens rest), braces rest]

/-- A macro call as an item; it may define a name. -/
def macroItem : Parser String := do
  let p ← namePath
  return p.text ++ (← cat [punct "!",
    optional (fun ts => atName ts || atWord "try" ts) ident, macroEnd])

/-- A function as an item, with its text if it has a meaning: it must have a body. -/
def fnItem (g : Grammar) : Parser (Option String) := do
  let s ← signature g false
  if ← test (atPunct ";") then
    let _ ← punct ";"
    return none
  else return some (s.text ++ (← attributedBlock g))

/-! ## Items by their first words -/

/-- An item after its attributes and its visibility, with its text if it has a meaning. -/
def itemRest (g : Grammar) (inherited : Bool) : Parser (Option String) := do
  if ← test (fun ts => atWord "fn" ts || atSignature false ts) then fnItem g
  else if ← test (fun ts => atWord "extern" ts && skip 1 (atWord "crate") ts) then
    return some (← externCrate)
  else if ← test (fun ts => inherited && atWord "extern" ts) then return some (← foreignBlock g)
  else if ← test (atWord "use") then useItem g
  else if ← test (atWord "static") then staticItem g
  else if ← test (atWord "const") then
    let c ← constItem g
    return if c.hasValue && c.isPlain then some c.text else none
  else if ← test (atWord "unsafe") then
    if ← test (skip 1 (atWords ["trait", "auto"])) then return some (← traitItem g)
    else if ← test (skip 1 (atWord "impl")) then implItem g
    else if ← test (fun ts => inherited && skip 1 (atWord "extern") ts) then
      return some (← foreignBlock g)
    else return some (← modItem g)
  else if ← test (atWord "mod") then return some (← modItem g)
  else if ← test (atWord "type") then typeItem g
  else if ← test (atWord "struct") then return some (← structItem g).2
  else if ← test (atWord "enum") then return some (← enumItem g)
  else if ← test (fun ts => atWord "union" ts && skip 1 atName ts) then
    return some (← unionItem g)
  else if ← test (fun ts => atWord "trait" ts || (atWord "auto" ts && skip 1 (atWord "trait") ts))
    then return some (← traitItem g)
  else if ← test (fun ts => atWord "impl" ts || atDefault ts) then implItem g
  else if ← test (atWord "macro") then
    let _ ← macroDefinition
    return none
  else if ← test (fun ts => inherited && atMacroPath ts) then return some (← macroItem)
  else fail

/-- An item with its attributes, with its text if it has a meaning. An implementation with a
visibility has none. -/
def itemParts (g : Grammar) : Parser (Option String) := do
  let attributes ← outerText g
  let (who, vis) ← visibility
  let isImpl ← test fun ts => atWord "impl" ts || atDefault ts ||
    (atWord "unsafe" ts && skip 1 (atWord "impl") ts)
  let text? ← itemRest g (who == .inherited)
  return if isImpl && who != .inherited then none else text?.map (attributes ++ vis ++ ·)

/-- An item with its attributes. -/
def itemOver (g : Grammar) : Parser String :=
  orVerbatim (itemParts g)

end Parser

end RpcBindings.Rust
