import RpcBindings.Rust.Grammar.Statement
import RpcBindings.Rust.Lexer

/-!
Reading whole Rust fragments.

The grammar is tied here: a grammar of depth `n + 1` has its nested parts read by one of depth `n`.
Each level of nesting takes a token, so a depth in proportion to the number of tokens is enough.
-/

namespace RpcBindings.Rust

/-- One more level of nesting. -/
def Grammar.deepen (g : Grammar) : Grammar where
  type := Parser.typeOver g
  arg := Parser.genericArg g
  param := Parser.genericParam g
  expr := Parser.exprOver g
  unary := Parser.unaryOver g
  climb := Parser.climbOver g
  statementExpr := Parser.statementExprOver g
  pattern := Parser.patternOver g
  statements := Parser.statementsOver g
  item := Parser.itemOver g
  innerFields := Parser.innerFieldsOver g
  useTree := Parser.useTreeOver g

/-- The grammar of fragments that nest at most `n` levels. -/
def Grammar.ofDepth : Nat → Grammar
  | 0 => .none
  | n + 1 => (ofDepth n).deepen

/-- How deep a text with these tokens can nest. -/
def depthBound (ts : List Token) : Nat :=
  4 * weight ts + 8

/-- Reads tokens whole, and all groups among them. -/
def readTokens? {α : Type} (p : Grammar → Parser α) (ts : List Token) : Option α :=
  match p (.ofDepth (depthBound ts)) ⟨ts, false⟩ with
  | some (a, ⟨[], false⟩) => some a
  | _ => none

/-- Reads a fragment whole. -/
def readWhole? {α : Type} (p : Grammar → Parser α) (text : String) : Option α :=
  (tokens? text.toList).bind (readTokens? p)

/-- Reads a Rust type. -/
def RustType.ofText? (text : String) : Option RustType :=
  (readWhole? (fun g => g.type true) text).map (·.type)

/-- Reads a member of a trait. -/
def TraitMember.ofText? (text : String) : Option TraitMember :=
  (readWhole? Parser.traitMember text).map (·.1)

/-- Reads a struct. -/
def StructItem.ofText? (text : String) : Option StructItem :=
  (readWhole? Parser.structItem text).map (·.1)

/-- What a Rust parser says of texts that it cannot read. The words are its own, and go into messages
as they are. -/
class ParserMessages where
  ofMember : String → String
  ofStruct : String → String

/-- One text stands for all messages where no parser is given. -/
instance : ParserMessages := ⟨fun _ => "<syn>", fun _ => "<syn>"⟩

end RpcBindings.Rust
