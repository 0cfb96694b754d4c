import RpcBindings.Text.Lines

/-!
Diagnostics: declarations that were left out, and why.

A declaration of another shape than the generator knows never ends a run. It becomes a diagnostic,
which shows as a comment in the output and as an entry of the report.
-/

namespace RpcBindings

/-- What kind of declaration was left out. -/
inductive FragmentKind where
  | record
  | traitMember
  | clientFunction
  deriving DecidableEq, Repr

namespace FragmentKind

/-- Stable code for reports. -/
def code : FragmentKind → String
  | record => "RG0101"
  | traitMember => "RG0102"
  | clientFunction => "RG0103"

/-- Key of the kind in reports. -/
def key : FragmentKind → String
  | record => "struct_head"
  | traitMember => "trait_statement"
  | clientFunction => "client_method"

/-- Noun for messages. -/
def label : FragmentKind → String
  | record => "struct"
  | traitMember => "method"
  | clientFunction => "client method"

end FragmentKind

/-- Why a declaration was left out. -/
inductive SkipReason where
  /-- A reason in words that no other constructor has. -/
  | stated (words : String)
  -- records
  | noStructBody
  | unbalancedBraces
  | tupleOrUnitStruct
  /-- The text is not read as a struct, with what the reader says of it. -/
  | notAStruct (detail : String)
  | notPublic
  | genericStruct
  | unnamedFields
  -- trait members
  | notAMethod
  /-- The text is not read as a member, with what the reader says of it. -/
  | notASignature (detail : String)
  | defaultBody
  | missingWireName
  | notBorrowedSelf
  | patternParameter
  | unexpectedReceiver
  | noReturnType
  -- client functions
  | noNamedReceiver
  | missingName
  | missingParameters
  | otherResults
  | unbalancedResults
  | unnamedResults
  | secondResultNotError
  | noInvocation (primitives : List String)
  | notAssignedToErr
  | unbalancedArguments
  | otherFirstArgument (expected : String)
  | noMethodArgument
  | noBareReturn
  | otherReceiver (found wanted : String)
  deriving DecidableEq, Repr

namespace SkipReason

/-- The wording of a reason. -/
def message : SkipReason → String
  | stated words => words
  | noStructBody => "no struct body"
  | unbalancedBraces => "unbalanced braces"
  | tupleOrUnitStruct => "tuple or unit struct"
  | notAStruct detail => "not a struct declaration: " ++ detail
  | notPublic => "struct is not `pub`"
  | genericStruct => "generic struct"
  | unnamedFields => "fields are not named"
  | notAMethod => "not a method"
  | notASignature detail => "not a method signature: " ++ detail
  | defaultBody => "method has a default body"
  | missingWireName => "missing #[rpc(name = \"...\")] attribute"
  | notBorrowedSelf => "first parameter is not &self"
  | patternParameter => "parameter pattern is not a plain name"
  | unexpectedReceiver => "unexpected receiver"
  | noReturnType => "no return type"
  | noNamedReceiver => "not a method with a named receiver"
  | missingName => "missing method name"
  | missingParameters => "missing parameter list"
  | otherResults => "results are not (value, err error)"
  | unbalancedResults => "unbalanced result list"
  | unnamedResults => "results are not named"
  | secondResultNotError => "second result is not `err error`"
  | noInvocation primitives => "no call to " ++ " or ".intercalate primitives
  | notAssignedToErr => "invocation result is not assigned to err"
  | unbalancedArguments => "unbalanced invocation arguments"
  | otherFirstArgument expected => "first invocation argument is not " ++ expected
  | noMethodArgument => "invocation has no rpc method name"
  | noBareReturn => "body does not end with a bare return"
  | otherReceiver found wanted => "receiver is " ++ found ++ ", not " ++ wanted

end SkipReason

/-- One declaration that was left out. -/
structure Diagnostic where
  kind : FragmentKind
  /-- The declaration's name, when it could be read. -/
  subject : Option String
  reason : SkipReason
  /-- The text of the declaration. -/
  fragment : String
  deriving DecidableEq, Repr

namespace Diagnostic

/-- The longest excerpt that stands for a missing subject. -/
def excerptLength : Nat := 60

/-- The first line of a text that holds code, without indentation. -/
def firstCodeLine (cs : List Char) : List Char :=
  (((Text.lines cs).map Text.trim).find? fun l => !l.isEmpty && !Text.isComment l).getD []

/-- A line, shortened when it is too long. -/
def excerpt (line : List Char) : List Char :=
  if excerptLength < line.length then line.take excerptLength ++ "...".toList else line

/-- The subject, or else an excerpt of the fragment's first code line. -/
def title (d : Diagnostic) : String :=
  d.subject.getD (.ofList (excerpt (firstCodeLine d.fragment.toList)))

/-- Label, title and reason. -/
def summary (d : Diagnostic) : String :=
  d.kind.label ++ " `" ++ d.title ++ "`: " ++ d.reason.message

/-- The comment that stands in the output in place of the declaration. -/
def marker (d : Diagnostic) : String :=
  "// ignored " ++ d.summary

/-- The one-line message. -/
def message (d : Diagnostic) : String :=
  d.kind.code ++ " skipped " ++ d.summary

end Diagnostic

/-- What became of one declaration: it was read, or left out. -/
inductive Outcome (α : Type) where
  | found (value : α)
  | skipped (diagnostic : Diagnostic)
  deriving DecidableEq, Repr

namespace Outcome

def found? {α : Type} : Outcome α → Option α
  | found value => some value
  | skipped _ => none

def skipped? {α : Type} : Outcome α → Option Diagnostic
  | found _ => none
  | skipped diagnostic => some diagnostic

end Outcome

end RpcBindings
