import RpcBindings.Rust.Token

/-!
Rust types as far as a schema reads them.

Paths, references, slices, arrays and parentheses keep their parts; any other type is its text.
Texts hold no blanks. Among generic arguments lifetimes are printed first, whatever their place.
-/

namespace RpcBindings.Rust

mutual

/-- A Rust type. -/
inductive RustType where
  /-- A path by its last segment; `qualifier` is the text before it. -/
  | path (qualifier name : String) (args : PathArgs)
  /-- A path that begins with a type between angle brackets. -/
  | projection (qualifier name : String) (args : PathArgs)
  /-- A reference; `marks` is the text up to the type referred to. -/
  | reference (marks : String) (elem : RustType)
  | slice (elem : RustType)
  | array (elem : RustType) (length : String)
  | paren (elem : RustType)
  | other (text : String)

/-- What follows the name of a path segment. -/
inductive PathArgs where
  | none
  /-- Arguments between angle brackets; `opening` is the text up to the first, and `trailing` tells
  whether a comma follows the last. -/
  | angle (opening : String) (args : List GenericArg) (trailing : Bool)

/-- A generic argument. -/
inductive GenericArg where
  | lifetime (text : String)
  | type (type : RustType)
  /-- A constant, a binding or a constraint. -/
  | other (text : String)

end

instance : Inhabited RustType := ⟨.other ""⟩

/-- A printed generic argument: whether it is a lifetime, and its text. -/
structure ArgText where
  isLifetime : Bool
  text : String

/-- Pairs every argument with whether a comma follows it. -/
def withCommas (trailing : Bool) : List ArgText → List (ArgText × Bool)
  | [] => []
  | [a] => [(a, trailing)]
  | a :: b :: rest => (a, true) :: withCommas trailing (b :: rest)

/-- Lifetimes with their commas, and whether what comes next needs a comma before it. -/
def lifetimesText : Bool → List (ArgText × Bool) → String × Bool
  | needs, [] => ("", needs)
  | needs, (a, comma) :: rest =>
    if a.isLifetime then
      let later := lifetimesText (!comma) rest
      (a.text ++ (if comma then "," else "") ++ later.1, later.2)
    else lifetimesText needs rest

/-- The other arguments with their commas. -/
def othersText : Bool → List (ArgText × Bool) → String
  | _, [] => ""
  | needs, (a, comma) :: rest =>
    if a.isLifetime then othersText needs rest
    else (if needs then "," else "") ++ a.text ++ (if comma then "," else "") ++
      othersText (!comma) rest

/-- Generic arguments between their brackets, lifetimes first. -/
def argsText (opening : String) (trailing : Bool) (args : List ArgText) : String :=
  let items := withCommas trailing args
  let lifetimes := lifetimesText false items
  opening ++ lifetimes.1 ++ othersText lifetimes.2 items ++ ">"

mutual

/-- The text of a type. -/
def RustType.text : RustType → String
  | .path qualifier name args => qualifier ++ name ++ args.text
  | .projection qualifier name args => qualifier ++ name ++ args.text
  | .reference marks elem => marks ++ elem.text
  | .slice elem => "[" ++ elem.text ++ "]"
  | .array elem length => "[" ++ elem.text ++ ";" ++ length ++ "]"
  | .paren elem => "(" ++ elem.text ++ ")"
  | .other text => text

def PathArgs.text : PathArgs → String
  | .none => ""
  | .angle opening args trailing => argsText opening trailing (argTexts args)

def argTexts : List GenericArg → List ArgText
  | [] => []
  | a :: rest => a.printed :: argTexts rest

def GenericArg.printed : GenericArg → ArgText
  | .lifetime text => ⟨true, text⟩
  | .type t => ⟨false, t.text⟩
  | .other text => ⟨false, text⟩

end

end RpcBindings.Rust
