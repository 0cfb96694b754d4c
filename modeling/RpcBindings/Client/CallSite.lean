import RpcBindings.Client.Function
import RpcBindings.Diagnostic
import RpcBindings.Go.Type
import RpcBindings.Text.Affix
import RpcBindings.Text.Offset

/-!
Call sites: the one synchronous call that a client method is written around.

A method has two results, a named value and `err error`. Its body assigns `err` from a call of a
primitive, which gets the value's address and the method's name on the wire, and ends in a bare
`return`. Any other function has no call site, and the reason says where it departs from this shape.
-/

namespace RpcBindings

/-- The parts of a method around its call, by their offsets. -/
structure CallSite where
  /-- Name and parameters. -/
  signature : Span
  resultName : String
  returnType : GoType
  /-- Where the body begins. -/
  bodyStart : Nat
  /-- Where the statement of the call begins. -/
  statement : Nat
  /-- Where the dot before the primitive stands. -/
  dot : Nat
  primitive : String
  /-- What stands between the parentheses of the call. -/
  args : Span
  /-- The arguments after the address of the result. -/
  rest : List (List Char)
  /-- Where the last `return` stands. -/
  returnAt : Nat
  deriving DecidableEq, Repr

namespace Masked

/-! ## Results -/

/-- The value of a result list `(name Type, err error)` between two offsets. -/
def namedResult (m : Masked) (start stop : Nat) : Except SkipReason (String × GoType) := do
  let some opened := m.skipBlank? start | throw .otherResults
  unless opened < stop && m.hasChar opened '(' do throw .otherResults
  let some closed := m.closer? opened | throw .unbalancedResults
  unless closed < stop do throw .unbalancedResults
  let [value, error] := m.splitTopLevel (opened + 1) closed ',' | throw .otherResults
  let some (name, type) := Text.splitAtBlank? (Text.trim (m.spanText value))
    | throw .unnamedResults
  unless Text.words (m.spanText error) == ["err".toList, "error".toList] do
    throw .secondResultNotError
  return (.ofList name, .ofText (.ofList type))

/-! ## The call -/

/-- How far into a body the first call of a primitive stands. -/
def callOffset? (body : List UInt8) (primitive : String) : Option Nat :=
  Text.findBytes? (Text.bytes ('.' :: primitive.toList ++ ['('])) body

/-- The first of two calls, when there are any. -/
def earlier : Option (Nat × String) → Option (Nat × String) → Option (Nat × String)
  | none, b => b
  | a, none => a
  | some a, some b => if b.1 < a.1 then some b else some a

/-- The first call of any of the primitives in a body, by how far into it the dot stands. -/
def firstCall? (body : List UInt8) (primitives : List String) : Option (Nat × String) :=
  primitives.foldl (fun best p => earlier best ((callOffset? body p).map (·, p))) none

/-- A byte after which a statement can begin. -/
def bordersStatement (b : UInt8) : Bool :=
  b = '\n'.toUInt8 || b = ';'.toUInt8 || b = '{'.toUInt8 || b = '}'.toUInt8

/-- Where the statement begins that reaches from a body's start to an offset. -/
def statementStart (m : Masked) (bodyStart i : Nat) : Nat :=
  bodyStart + Text.lengthThroughLast bordersStatement (m.byteSlice bodyStart i)

/-- Whether code reads `err =` or `err :=` at its start. -/
def assignsErr (code : List Char) : Bool :=
  match Text.stripPrefix? "err".toList (Text.trimStart code) with
  | none => false
  | some rest =>
    match Text.trimStart rest with
    | '=' :: '=' :: _ => false
    | '=' :: _ => true
    | ':' :: '=' :: _ => true
    | _ => false

/-- An argument without blanks around it, on one line. -/
def onOneLine (arg : List Char) : List Char :=
  let arg := Text.trim arg
  if arg.contains '\n' then [' '].intercalate (Text.words arg) else arg

/-- The arguments between two offsets. -/
def arguments (m : Masked) (s : Span) : List (List Char) :=
  (m.splitTopLevel s.start s.stop ',').map fun piece => onOneLine (m.spanText piece)

/-- A character that can stand before a statement. -/
def precedesStatement (c : Char) : Bool :=
  c == '\n' || c == ' ' || c == '\t' || c == ';' || c == '\x7b'

/-- Where the bare `return` stands that ends a body. -/
def bareReturn? (m : Masked) (body : Span) : Option Nat :=
  match Text.stripSuffix? "return".toList (Text.trimEnd (m.codeSlice body.start body.stop)) with
  | none => none
  | some before =>
    if before.getLast?.all precedesStatement then some (body.start + Text.byteLength before)
    else none

/-- The call site of a method whose name is known. -/
def callSite (m : Masked) (primitives : List String) (f : FunctionSpan) (name : Span) :
    Except SkipReason CallSite := do
  let some params := m.parensAfter? name.stop | throw .missingParameters
  let (resultName, returnType) ← m.namedResult (params.stop + 1) f.opened
  let some (offset, primitive) := firstCall? (m.byteSlice f.body.start f.body.stop) primitives
    | throw (.noInvocation primitives)
  let dot := f.body.start + offset
  let statement := m.statementStart f.body.start dot
  unless assignsErr (m.codeSlice statement dot) do throw .notAssignedToErr
  let opened := dot + 1 + primitive.utf8ByteSize
  let some closed := m.closer? opened | throw .unbalancedArguments
  let args : Span := ⟨opened + 1, closed⟩
  let target := "&" ++ resultName
  let first :: rest := m.arguments args | throw (.otherFirstArgument target)
  unless first = target.toList do throw (.otherFirstArgument target)
  if rest.isEmpty then throw .noMethodArgument
  let some returnAt := m.bareReturn? f.body | throw .noBareReturn
  unless closed < returnAt do throw .noBareReturn
  return {
    signature := ⟨name.start, params.stop + 1⟩
    resultName, returnType, bodyStart := f.body.start, statement, dot, primitive, args, rest
    returnAt }

end Masked

end RpcBindings
