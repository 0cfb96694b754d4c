import RpcBindings.Masked.Nesting

/-!
Functions of a Go file: where each one begins, where its body stands, and who receives it.
-/

namespace RpcBindings

/-- A function by the offsets of its keyword and of the braces of its body. -/
structure FunctionSpan where
  start : Nat
  opened : Nat
  closed : Nat
  deriving DecidableEq, Repr

/-- The receiver of a method: its name, its type without pointer markers, and where its list ends. -/
structure Receiver where
  name : String
  type : String
  stop : Nat
  deriving DecidableEq, Repr

namespace FunctionSpan

/-- Where the keyword ends. -/
def head (f : FunctionSpan) : Nat :=
  f.start + "func".length

/-- The whole function. -/
def whole (f : FunctionSpan) : Span :=
  ⟨f.start, f.closed + 1⟩

/-- What stands between the braces. -/
def body (f : FunctionSpan) : Span :=
  ⟨f.opened + 1, f.closed⟩

end FunctionSpan

namespace Masked

/-- Whether the brace at an offset belongs to a type that is written out. -/
def opensType (m : Masked) (i : Nat) : Bool :=
  let before := Text.trimEnd (m.codeSlice 0 i)
  "interface".toList.isSuffixOf before || "struct".toList.isSuffixOf before

/-- The brace that opens the body of a function whose head reaches an offset. -/
def bodyOpener? (m : Masked) (start : Nat) : Option Nat :=
  match h : m.findTopLevel? start m.size '{' with
  | none => none
  | some opened =>
    if m.opensType opened then
      match h' : m.closer? opened with
      | none => none
      | some closed =>
        have := le_of_findTopLevel? h
        have := lt_of_closer? h'
        m.bodyOpener? (closed + 1)
    else some opened
termination_by m.size - start

/-- The functions among some places of `func`, those before an offset left out. Only a keyword that
begins its line counts. Nothing is read after a function that does not end. -/
def functionsFrom (m : Masked) : List Nat → Nat → List FunctionSpan
  | [], _ => []
  | i :: rest, start =>
    if i < start then m.functionsFrom rest start
    else
      let head := i + "func".length
      if m.beginsLine i then
        match m.bodyOpener? head with
        | none => []
        | some opened =>
          match m.closer? opened with
          | none => []
          | some closed => ⟨i, opened, closed⟩ :: m.functionsFrom rest (closed + 1)
      else m.functionsFrom rest head

/-- The functions of a file, in order. -/
def functions (m : Masked) : List FunctionSpan :=
  m.functionsFrom (m.wordStarts "func") 0

/-- The receiver that follows an offset: a name and a type between parentheses. -/
def receiverAfter? (m : Masked) (i : Nat) : Option Receiver :=
  match m.parensAfter? i with
  | none => none
  | some s =>
    match Text.words (m.slice (s.start + 1) s.stop) with
    | [name, type] => some ⟨.ofList name, .ofList (type.dropWhile (· == '*')), s.stop + 1⟩
    | _ => none

end Masked

end RpcBindings
