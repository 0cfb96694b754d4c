import RpcBindings.Delimiter
import RpcBindings.Text.Blank

/-!
Tokens of Rust, as trees: what stands between two matching delimiters is one token.
-/

namespace RpcBindings.Rust

/-- What a literal is, as far as the grammar asks. -/
inductive LiteralKind where
  /-- A string with its value. -/
  | str (value : String)
  | int (value : Nat) (suffixed : Bool)
  | float
  | other
  deriving DecidableEq, Repr

/-- A token, with the text that it is printed as. -/
inductive Token where
  /-- A name or reserved word; a raw one begins with `r#`. -/
  | ident (name : String)
  /-- A lifetime, without its quote. -/
  | lifetime (name : String)
  /-- One character of punctuation, and whether more of it follows directly. -/
  | punct (char : Char) (joint : Bool)
  | literal (kind : LiteralKind) (text : String)
  | group (delimiter : Delimiter) (inner : List Token)
  deriving Repr, Inhabited

/-- A text without its blanks. -/
def squeeze (text : String) : String :=
  .ofList (text.toList.filter fun c => !Text.isBlank c)

mutual

/-- The text of a token, without blanks. -/
def Token.text : Token → String
  | .ident name => name
  | .lifetime name => "'" ++ name
  | .punct c _ => c.toString
  | .literal _ text => squeeze text
  | .group d inner => d.opener.toString ++ tokensText inner ++ d.closer.toString

/-- The text of tokens one after another, without blanks. -/
def tokensText : List Token → String
  | [] => ""
  | t :: ts => t.text ++ tokensText ts

end

/-- Whether the last of some tokens stands between braces. -/
def endInBrace (ts : List Token) : Bool :=
  match ts.getLast? with
  | some (.group .brace _) => true
  | _ => false

/-- Words that name nothing unless they are raw. -/
def reserved : List String :=
  ["_", "abstract", "as", "async", "await", "become", "box", "break", "const", "continue", "crate",
    "do", "dyn", "else", "enum", "extern", "false", "final", "fn", "for", "if", "impl", "in", "let",
    "loop", "macro", "match", "mod", "move", "mut", "override", "priv", "pub", "ref", "return",
    "Self", "self", "static", "struct", "super", "trait", "true", "try", "type", "typeof", "unsafe",
    "unsized", "use", "virtual", "where", "while", "yield"]

/-- Whether a word is free to be a name. -/
def isName (word : String) : Bool :=
  !reserved.contains word

/-- A name without the mark of a raw one. -/
def plainName (name : String) : String :=
  match name.toList with
  | 'r' :: '#' :: cs => .ofList cs
  | _ => name

/-! ## Small facts -/

theorem tokensText_append (a b : List Token) :
    tokensText (a ++ b) = tokensText a ++ tokensText b := by
  induction a with
  | nil => simp [tokensText]
  | cons t a ih => simp [tokensText, ih, String.append_assoc]

end RpcBindings.Rust
