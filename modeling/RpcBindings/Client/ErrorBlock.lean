import RpcBindings.Masked.Nesting
import RpcBindings.Text.Affix
import RpcBindings.Text.Layout

/-!
Error blocks: the conditionals of a function body that end a call early.

A call that is only queued has no error yet, so the statements around it are kept without the blocks
that test for one. A block goes with all its `else` branches, and with its lines when nothing else
stands on them.
-/

namespace RpcBindings

namespace Client

/-- Whether code compares `err` with `nil`. -/
def comparesErr (condition : List Char) : Bool :=
  ((Masked.ofSource .go condition).wordStarts "err").any fun i =>
    let after := Text.dropBytes (i + "err".length) condition
    match Text.stripPrefix? ['!', '='] (Text.trimStart after) with
    | some other => "nil".toList.isPrefixOf (Text.trimStart other)
    | none => false

/-- Whether a condition tests for an error. -/
def testsError (condition : List Char) : Bool :=
  comparesErr condition || "ok, code :=".toList.isPrefixOf condition

end Client

namespace Masked

/-- Where the `else` branch ends that follows an offset. -/
def elseStop? (m : Masked) (i : Nat) : Option Nat :=
  match m.skipBlank? i with
  | none => none
  | some next =>
    if m.wordAt "else".toList next then
      match m.findTopLevel? next m.size '{' with
      | none => none
      | some opened => (m.closer? opened).map (· + 1)
    else none

theorem lt_of_elseStop? {m : Masked} {i j : Nat} (h : m.elseStop? i = some j) :
    i < j ∧ j ≤ m.size := by
  unfold elseStop? at h
  split at h
  · simp at h
  · rename_i next hnext
    split at h
    · split at h
      · simp at h
      · rename_i opened hopened
        obtain ⟨k, hk, rfl⟩ := Option.map_eq_some_iff.1 h
        have := le_of_skipBlank? hnext
        have := le_of_findTopLevel? hopened
        have := lt_of_closer? hk
        omega
    · simp at h

/-- Where the last of the `else` branches ends that follow an offset; the offset itself when there
are none. -/
def chainStop (m : Masked) (i : Nat) : Nat :=
  match h : m.elseStop? i with
  | none => i
  | some next =>
    have := lt_of_elseStop? h
    m.chainStop next
termination_by m.size - i

/-- Where the line ends that holds an offset, its line feed included. -/
def lineEnd (m : Masked) (i : Nat) : Nat :=
  Nat.min (m.lineStop i + 1) m.size

/-- A range, widened to its line's start and to its line's end where only blanks stand there. -/
def widen (m : Masked) (start stop : Nat) : Span :=
  ⟨if m.beginsLine start then m.lineStart start else start,
    if m.isBlank stop (m.lineEnd stop) then m.lineEnd stop else stop⟩

/-- The error blocks among some places of `if`, those before an offset left out. -/
def errorBlocksFrom (m : Masked) : List Nat → Nat → List Span
  | [], _ => []
  | i :: rest, start =>
    if i < start then m.errorBlocksFrom rest start
    else
      let head := i + "if".length
      match m.findTopLevel? head m.size '{' with
      | none => []
      | some opened =>
        if Client.testsError (Text.trim (m.slice head opened)) then
          match m.closer? opened with
          | none => []
          | some closed =>
            let block := m.widen i (m.chainStop (closed + 1))
            block :: m.errorBlocksFrom rest block.stop
        else m.errorBlocksFrom rest head

/-- The error blocks of a text, in order. -/
def errorBlocks (m : Masked) : List Span :=
  m.errorBlocksFrom (m.wordStarts "if") 0

end Masked

namespace Client

/-- The text from an offset on without some parts. -/
def without (text : List Char) : Nat → List Span → List Char
  | start, [] => Text.dropBytes start text
  | start, s :: rest => Text.cut start s.start text ++ without text s.stop rest

/-- The statements of a text without error blocks, laid out anew. -/
def keptStatements? (text : List Char) : Option (List Char) :=
  Text.tidy? (without text 0 (Masked.ofSource .go text).errorBlocks)

end Client

end RpcBindings
