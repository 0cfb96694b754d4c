import RpcBindings.Namespace
import RpcBindings.Schema.Record

/-!
Interfaces: the traits of a schema and their RPC methods.

A trait is cut into its members, and each member is read on its own. A member that is no RPC method
is left out with its reason and hides none of the others.
-/

namespace RpcBindings

/-- A parameter of an RPC method. -/
structure RpcParam where
  name : String
  type : SchemaType
  deriving DecidableEq, Repr

/-- An RPC method. -/
structure RpcMethod where
  /-- The comment lines at the start of the member. -/
  docComment? : Option String
  wireName : String
  sourceName : String
  /-- The name of the Go function. -/
  functionName : String
  params : List RpcParam
  returnType : SchemaType
  deriving DecidableEq, Repr

/-- An interface, with what became of its members. -/
structure RpcInterface where
  name : String
  nspace : String
  members : List (Outcome RpcMethod)

/-- How interfaces are read. -/
structure InterfaceOptions where
  /-- The namespace of all interfaces; each one's name implies its own when none is given. -/
  nspace? : Option String
  /-- Generic types that wrap the result of a method. -/
  wrappers : List String

open Rust

/-! ## Results -/

mutual

/-- A type without the wrappers around it. The first type among a wrapper's arguments is what it
wraps. -/
def unwrap (wrappers : List String) : RustType → RustType
  | .path qualifier name args =>
    if wrappers.contains name then unwrapArgs wrappers (.path qualifier name args) args
    else .path qualifier name args
  | .projection qualifier name args =>
    if wrappers.contains name then unwrapArgs wrappers (.projection qualifier name args) args
    else .projection qualifier name args
  | .reference marks elem => .reference marks elem
  | .slice elem => .slice elem
  | .array elem length => .array elem length
  | .paren elem => .paren elem
  | .other text => .other text

/-- What the arguments of a wrapper wrap, or the wrapper itself. -/
def unwrapArgs (wrappers : List String) (whole : RustType) : PathArgs → RustType
  | .none => whole
  | .angle _ args _ => unwrapFirst wrappers whole args

/-- The first type among some arguments without the wrappers around it. -/
def unwrapFirst (wrappers : List String) (whole : RustType) : List GenericArg → RustType
  | [] => whole
  | a :: rest => unwrapArg wrappers (unwrapFirst wrappers whole rest) a

/-- A type argument without the wrappers around it; other arguments give way to `later`. -/
def unwrapArg (wrappers : List String) (later : RustType) : GenericArg → RustType
  | .lifetime _ => later
  | .type t => unwrap wrappers t
  | .other _ => later

end

/-! ## Methods -/

namespace RpcMethod

/-- A parameter after `self`. -/
def paramOf : FnParam → Except SkipReason RpcParam
  | .receiver _ _ => .error .unexpectedReceiver
  | .typed (.name n) t => .ok ⟨plainName n, .ofRust t⟩
  | .typed _ _ => .error .patternParameter

/-- The parameters of a method; the first must be `&self`. -/
def paramsOf : List FnParam → Except SkipReason (List RpcParam)
  | .receiver true false :: rest => rest.mapM paramOf
  | _ => .error .notBorrowedSelf

/-- The RPC method that a method of a trait is, or why it is none. -/
def ofMethod (options : InterfaceOptions) (nspace : String) (docComment? : Option String)
    (m : TraitMethod) : Except SkipReason RpcMethod := do
  if m.hasBody then throw .defaultBody
  let some wireName := Schema.wireName? m.attributes | throw .missingWireName
  let params ← paramsOf m.signature.params
  let some output := m.signature.output | throw .noReturnType
  let sourceName := plainName m.signature.name
  return {
    docComment?, wireName, sourceName
    functionName := Namespace.strip (Casing.upperCamel sourceName) nspace
    params
    returnType := .ofRust (unwrap options.wrappers output) }

/-- The comment lines at the start of a member, if any. -/
def leadingComment? (text : List Char) : Option String :=
  let lines := ((Text.lines text).map Text.trim).dropWhile List.isEmpty
  match lines.takeWhile Text.isComment with
  | [] => none
  | comment => some (.ofList (Text.joinLines comment))

/-- What became of one member of a trait, by its text. -/
def ofText [ParserMessages] (options : InterfaceOptions) (nspace : String) (text : List Char) :
    Outcome RpcMethod :=
  let fragment := String.ofList text
  match TraitMember.ofText? fragment with
  | none =>
    .skipped ⟨.traitMember, none, .notASignature (ParserMessages.ofMember fragment), fragment⟩
  | some .other => .skipped ⟨.traitMember, none, .notAMethod, fragment⟩
  | some (.method m) =>
    match ofMethod options nspace (leadingComment? text) m with
    | .ok method => .found method
    | .error reason =>
      .skipped ⟨.traitMember, some (plainName m.signature.name), reason, fragment⟩

end RpcMethod

/-! ## Interfaces -/

variable [ParserMessages]

namespace Masked

/-- The texts of the members between two offsets. -/
def memberTexts (m : Masked) (start stop : Nat) : List (List Char) :=
  ((m.splitStatements start stop).filter fun s => !m.isBlank s.start s.stop).map m.spanText

/-- The interface with a name whose members stand between two offsets. -/
def interfaceBetween (m : Masked) (options : InterfaceOptions) (name : String) (start stop : Nat) :
    RpcInterface :=
  let nspace := options.nspace?.getD (Namespace.ofInterface name)
  ⟨name, nspace, (m.memberTexts start stop).map (RpcMethod.ofText options nspace)⟩

/-- The interfaces among some places of `trait`, those before an offset left out. A trait without
a body that ends takes the rest of the source with it. -/
def interfacesFrom (m : Masked) (options : InterfaceOptions) : List Nat → Nat → List RpcInterface
  | [], _ => []
  | i :: rest, start =>
    if i < start then m.interfacesFrom options rest start
    else match m.nameAfter? (i + "trait".length) with
      | none => m.interfacesFrom options rest (i + "trait".length)
      | some name =>
        match m.findTopLevel? name.stop m.sourceSize '{' with
        | none => []
        | some opened =>
          match m.closer? opened with
          | none => []
          | some closed =>
            m.interfaceBetween options (.ofList (m.spanText name)) (opened + 1) closed ::
              m.interfacesFrom options rest (closed + 1)

end Masked

/-- The interfaces of a schema, in order. -/
def RpcInterface.readAll (options : InterfaceOptions) (source : String) : List RpcInterface :=
  let m := Masked.ofSource .rust source.toList
  m.interfacesFrom options (m.wordStarts "trait") 0

end RpcBindings
