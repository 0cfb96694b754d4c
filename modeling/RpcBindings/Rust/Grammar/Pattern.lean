import RpcBindings.Rust.Grammar.Type

/-!
Patterns.
-/

namespace RpcBindings.Rust.Parser

/-- Whether `|` comes next between two patterns. -/
def atAlternative (ts : List Token) : Bool :=
  atPunct "|" ts && !atPunct "||" ts && !atPunct "|=" ts

/-- A pattern with its alternatives, perhaps with a `|` before the first. -/
def patternChoice (g : Grammar) : Parser PatternShape := do
  let leading ← optPunct "|"
  let first ← g.pattern
  let more ← manyText atAlternative (cat [punct "|", g.patternText])
  return ⟨leading ++ first.text ++ more,
    if leading == "" && more == "" then first.form else .other⟩

/-- The text of a pattern with its alternatives. -/
def choiceText (g : Grammar) : Parser String := do
  return (← patternChoice g).text

/-- A range operator: `..=`, `...` or `..`. The obsolete `...` is printed as `..=`. -/
def rangeOperator (obsolete : Bool) : Parser String := do
  if ← test (atPunct "..=") then punct "..="
  else if ← test (atPunct "...") then
    if obsolete then
      let _ ← punct "..."
      return "..="
    else fail
  else punct ".."

/-- Whether a pattern ends here, so that a range has no bound. -/
def atBoundEnd (ts : List Token) : Bool :=
  atEnd ts || atPunct "|" ts || atPunct "=" ts || atColon ts || atPunct "," ts ||
    atPunct ";" ts || atWord "if" ts

def atPathStart (ts : List Token) : Bool :=
  atName ts || atPunct "::" ts || atPunct "<" ts ||
    atWords ["self", "Self", "super", "crate"] ts

/-- A bound of a range pattern, if there is one. -/
def rangeBound (g : Grammar) : Parser (Option String) := do
  if ← test atBoundEnd then return none
  else if ← test atLiteral then return some (← literal).2
  else if ← test atPathStart then return some (← qualifiedPath g true).text
  else return some (← cat [word "const", attributedBlock g])

/-- A range pattern from its operator on, after the text of its lower bound. -/
def rangeFrom (g : Grammar) (lower : String) : Parser PatternShape := do
  let operator ← rangeOperator true
  match ← rangeBound g with
  | some upper => return ⟨lower ++ operator ++ upper, .range⟩
  | none =>
    if operator != ".." then fail
    return ⟨lower ++ operator, .openRange⟩

/-- A range pattern without a lower bound, or the rest of a sequence. -/
def halfOpenRange (g : Grammar) : Parser PatternShape := do
  let operator ← rangeOperator false
  match ← rangeBound g with
  | some upper => return ⟨operator ++ upper, .openRange⟩
  | none =>
    if operator != ".." then fail
    return ⟨operator, .rest⟩

/-- The text of a number. -/
def numberText (n : Nat) : String := .ofList (Nat.toDigits 10 n)

/-- Whether an integer comes next that has no sign. -/
def atInteger : List Token → Bool
  | .literal (.int _ _) _ :: _ => true
  | _ => false

/-- Whether a number counts fields. -/
def isFieldNumber (n : Nat) : Bool := n < UInt32.size

/-- The number of a field, printed in decimal digits. -/
def fieldNumber : Parser String :=
  ofTokens fun
    | .literal (.int n false) _ :: ts => if isFieldNumber n then some (numberText n, ts) else none
    | _ => none

/-- A field of a struct pattern after its attributes. -/
def fieldPattern (g : Grammar) : Parser String := do
  let marks ← cat [optWord "box", optWord "ref", optWord "mut"]
  if ← test (fun ts => marks == "" && atInteger ts) then
    cat [fieldNumber, punct ":", choiceText g]
  else
    let n ← name
    return marks ++ n ++
      (← optional (fun ts => marks == "" && atPunct ":" ts) (cat [punct ":", choiceText g]))

/-- The content of a struct pattern's braces: fields, and dots that stand for the others. -/
def fieldPatterns (g : Grammar) : Parser String := do
  return listText "," (← elements atEnd "," fun _ => do
    let attributes ← outerText g
    if ← test (atPunct "..") then return (attributes ++ (← punct ".."), true)
    else return (attributes ++ (← fieldPattern g), false))

/-- A pattern that begins with a path. -/
def pathPattern (g : Grammar) : Parser PatternShape := do
  let p ← qualifiedPath g true
  if ← test (atMacroCall p) then return ⟨p.text ++ (← macroArgs).2, .other⟩
  else if ← test atBrace then return ⟨p.text ++ (← braces (fieldPatterns g)), .other⟩
  else if ← test atParen then return ⟨p.text ++ (← parens (commaText (choiceText g))), .other⟩
  else if ← test (atPunct "..") then rangeFrom g p.text
  else return ⟨p.text, .other⟩

/-- A literal or a constant, perhaps the lower bound of a range. -/
def literalPattern (g : Grammar) : Parser PatternShape := do
  match ← rangeBound g with
  | none => fail
  | some lower =>
    if ← test (atPunct "..") then rangeFrom g lower
    else return ⟨lower, .other⟩

/-- A name, perhaps with a pattern for what it binds. -/
def namePattern (g : Grammar) : Parser PatternShape := do
  let marks ← cat [optWord "ref", optWord "mut"]
  let n ← if ← test (atWord "self") then ident else name
  let sub ← optional (atPunct "@") (cat [punct "@", g.patternText])
  return ⟨marks ++ n ++ sub, .name n⟩

/-- Whether an element of a slice pattern needs parentheses. -/
def isOpenRange (p : PatternShape) : Bool := p.form == .openRange

/-- The elements of a slice pattern. -/
def slicePattern (g : Grammar) : Parser String :=
  commaText do
    let p ← patternChoice g
    if isOpenRange p then fail
    return p.text

/-- A pattern without alternatives. -/
def patternOver (g : Grammar) : Parser PatternShape := do
  let pathNext := fun ts =>
    (atName ts && (skip 1 (atPunct "::") ts || skip 1 (atPunct "!") ts || skip 1 atBrace ts ||
      skip 1 atParen ts || skip 1 (atPunct "..") ts)) ||
    (atWord "self" ts && skip 1 (atPunct "::") ts) || atPunct "::" ts || atPunct "<" ts ||
    atWords ["Self", "super", "crate"] ts
  if ← test pathNext then pathPattern g
  else if ← test (atWord "_") then return ⟨← ident, .other⟩
  else if ← test (atWord "box") then
    return ⟨← verbatim do
      let _ ← word "box"
      g.pattern, .verbatim⟩
  else if ← test (fun ts => atPunct "-" ts || atLiteral ts || atWord "const" ts) then
    literalPattern g
  else if ← test (fun ts => atWords ["ref", "mut", "self"] ts || atName ts) then namePattern g
  else if ← test (atPunct "&") then
    return ⟨← cat [punct "&", optWord "mut", g.patternText], .other⟩
  else if ← test atParen then return ⟨← parens (commaText (choiceText g)), .other⟩
  else if ← test atBracket then return ⟨← brackets (slicePattern g), .other⟩
  else if ← test (fun ts => atPunct ".." ts && !atPunct "..." ts) then halfOpenRange g
  else fail

/-- The type of a pattern after its colon, if there is one. -/
def typeAnnotation (g : Grammar) : Parser String :=
  optional (atPunct ":") (cat [punct ":", g.typeText true])

end RpcBindings.Rust.Parser
