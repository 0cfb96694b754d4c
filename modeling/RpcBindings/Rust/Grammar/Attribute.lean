import RpcBindings.Rust.Grammar.Basic

/-!
Attributes: a path, and arguments or a value.
-/

namespace RpcBindings.Rust

/-- What follows the path of an attribute. -/
inductive MetaValue where
  | none
  /-- Arguments between delimiters. -/
  | list (tokens : List Token)
  /-- A string after `=`. -/
  | string (value : String)
  /-- Another expression after `=`. -/
  | other

/-- A path of names, as attributes and macro calls have it. -/
structure NamePath where
  leading : Bool
  names : List String

/-- An attribute, or an entry of an attribute's arguments. -/
structure MetaItem where
  path : NamePath
  value : MetaValue
  text : String

namespace NamePath

/-- Whether the path is one plain name. -/
def isName (p : NamePath) (n : String) : Bool :=
  !p.leading && p.names == [n]

def text (p : NamePath) : String :=
  (if p.leading then "::" else "") ++ String.intercalate "::" p.names

end NamePath

namespace Parser

/-- A segment of a name path: a name or the start of a module path. -/
def atSegment (ts : List Token) : Bool :=
  atName ts || atWords ["super", "self", "Self", "crate"] ts

/-- The text of a name path is its names with `::` between them. -/
def namePath : Parser NamePath := do
  let leading ← optPunct "::"
  require atSegment
  let first ← ident
  let more ← many (atPunct "::") do
    let _ ← punct "::"
    require atSegment
    ident
  return ⟨leading != "", first :: more⟩

/-- An attribute's path: a name path or the word `unsafe`. -/
def metaPath : Parser NamePath := do
  if ← test (atWord "unsafe") then return ⟨false, [← ident]⟩
  else namePath

/-- Whether `=` comes next as a token of its own. -/
def atAssign (ts : List Token) : Bool :=
  atPunct "=" ts && !atPunct "==" ts && !atPunct "=>" ts

/-- Whether a literal comes next and nothing after it. -/
def atLoneLiteral (ts : List Token) : Bool :=
  atLiteral ts && ((literal ⟨ts, false⟩).any fun p => p.2.tokens.isEmpty)

/-- The value after `=`, with its text. A literal is taken as it is when nothing follows. -/
def metaValue (g : Grammar) : Parser (MetaValue × String) := do
  if ← test atLoneLiteral then
    match ← literal with
    | (.str v, text) => return (.string v, text)
    | (_, text) => return (.other, text)
  else
    require fun ts => !(atPunct "#" ts && skip 1 atBracket ts)
    let e ← g.expr true
    return ((e.string?.map MetaValue.string).getD .other, e.text)

/-- An attribute without its brackets. -/
def metaItem (g : Grammar) : Parser MetaItem := do
  let path ← metaPath
  if ← test atAnyGroup then
    match ← anyToken with
    | .group d inner => return ⟨path, .list inner, path.text ++ (Token.group d inner).text⟩
    | _ => fail
  else if ← test atAssign then
    let _ ← punct "="
    let (value, text) ← metaValue g
    return ⟨path, value, path.text ++ "=" ++ text⟩
  else
    return ⟨path, .none, path.text⟩

/-- The text of attributes with what stands before each. -/
def attributesText (mark : String) (attributes : List MetaItem) : String :=
  String.join (attributes.map fun a => mark ++ "[" ++ a.text ++ "]")

/-- The attributes before something. -/
def outerAttributes (g : Grammar) : Parser (List MetaItem) :=
  many (atPunct "#") do
    let _ ← punct "#"
    group .bracket (metaItem g)

/-- The text of the attributes before something. -/
def outerText (g : Grammar) : Parser String := do
  return attributesText "#" (← outerAttributes g)

/-- The text of the attributes at the start of a block that belong to the block. -/
def innerText (g : Grammar) : Parser String := do
  let attributes ← many (fun ts => atPunct "#" ts && skip 1 (atPunct "!") ts) do
    let _ ← punct "#"
    let _ ← punct "!"
    group .bracket (metaItem g)
  return attributesText "#!" attributes

/-- A braced block. -/
def block (g : Grammar) : Parser String :=
  braces g.statements

/-- A braced block that may begin with attributes of its own. -/
def attributedBlock (g : Grammar) : Parser String :=
  braces (cat [innerText g, g.statements])

end Parser

end RpcBindings.Rust
