import RpcBindings.Rust.Reader

/-!
What the attributes of a schema say: documentation, names on the wire, and fields left out.
-/

namespace RpcBindings.Schema

open Rust

/-- The documentation lines among some attributes, trimmed; empty ones are dropped. -/
def docLines (attributes : List MetaItem) : List String :=
  attributes.filterMap fun a =>
    match a.path.isName "doc", a.value with
    | true, .string value =>
      let line := Text.trim value.toList
      if line.isEmpty then none else some (.ofList line)
    | _, _ => none

/-- The argument tokens of the attributes with a name. -/
def argumentsOf (n : String) (attributes : List MetaItem) : List (List Token) :=
  attributes.filterMap fun a =>
    match a.path.isName n, a.value with
    | true, .list tokens => some tokens
    | _, _ => none

/-- Arguments of an attribute that are attributes themselves. -/
def metaArguments? (tokens : List Token) : Option (List MetaItem) :=
  (readTokens? (fun g => Parser.separated atEnd "," (Parser.metaItem g)) tokens).map
    fun items => items.map (·.1)

/-- The string that an attribute gives a name. -/
def stringFor? (n : String) (a : MetaItem) : Option String :=
  match a.path.isName n, a.value with
  | true, .string value => some value
  | _, _ => none

/-- The name on the wire that `#[rpc(name = "...")]` gives a method. Arguments that cannot be read
give none. -/
def wireName? (attributes : List MetaItem) : Option String :=
  (argumentsOf "rpc" attributes).findSome? fun tokens =>
    ((metaArguments? tokens).getD []).findSome? (stringFor? "name")

/-! ## Options of fields -/

/-- The path of an option; reserved words are allowed. -/
def optionPath : Parser NamePath := do
  let leading ← Parser.optPunct "::"
  let first ← Parser.ident
  let more ← Parser.many (atPunct "::") do
    let _ ← Parser.punct "::"
    Parser.ident
  return ⟨leading != "", first :: more⟩

/-- The options of one attribute, each with what `value` reads after its path. Reading stops for
good at an option that `value` fails on, and after one that it leaves unread tokens of. Groups that
are left before their end do not matter. -/
def optionsFrom {α : Type} (value : NamePath → Parser α) : Nat → Input → List (NamePath × α)
  | 0, _ => []
  | fuel + 1, i =>
    match (do
      let path ← optionPath
      return (path, ← value path)) i with
    | none => []
    | some (entry, after) =>
      match Parser.punct "," after with
      | none => [entry]
      | some (_, rest) =>
        if rest.tokens.isEmpty then [entry] else entry :: optionsFrom value fuel rest

/-- The options that an attribute with a name holds, over all such attributes. -/
def options {α : Type} (n : String) (value : Grammar → NamePath → Parser α)
    (attributes : List MetaItem) : List (NamePath × α) :=
  (argumentsOf n attributes).flatMap fun tokens =>
    optionsFrom (value (.ofDepth (depthBound tokens))) tokens.length ⟨tokens, false⟩

/-- Skips a value after `=`, if there is one. -/
def skipValue (g : Grammar) : Parser Unit :=
  Parser.whenAt (atPunct "=") (do
    let _ ← Parser.punct "="
    let _ ← g.expr true
    return ()) ()

/-- The value of an option when new names are wanted: `rename` must be given a string, if
anything. -/
def renameValue (g : Grammar) (path : NamePath) : Parser (Option String) := do
  if path.isName "rename" then
    Parser.whenAt (atPunct "=") (do
      let _ ← Parser.punct "="
      return some (← Parser.stringLiteral)) none
  else
    skipValue g
    return none

/-- Whether an option leaves its field out. -/
def leavesOut (path : NamePath) : Bool :=
  path.isName "skip" || path.isName "skip_serializing"

/-- The value of an option when fields left out are wanted: an option that leaves its field out
has none. -/
def omissionValue (g : Grammar) (path : NamePath) : Parser Unit :=
  if leavesOut path then return () else skipValue g

/-- The name that the options of a field give it; of several the last counts. -/
def rename? (attributes : List MetaItem) : Option String :=
  ((options "serde" renameValue attributes).filterMap (·.2)).getLast?

/-- Whether the options of a field leave it out. -/
def isOmitted (attributes : List MetaItem) : Bool :=
  (options "serde" omissionValue attributes).any fun entry => leavesOut entry.1

end RpcBindings.Schema
