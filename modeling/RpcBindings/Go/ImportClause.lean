import RpcBindings.Go.Import
import RpcBindings.Masked.Nesting

/-!
Import clauses: what a file imports, and which imports it uses. The head of a generated file has the
banner, the package clause, and the imports that the body uses.
-/

namespace RpcBindings

namespace Go

/-- The import clause of a file and the empty line after it; nothing without imports. -/
def importClause : List Import → String
  | [] => ""
  | [i] => "import " ++ i.line ++ "\n\n"
  | is => "import (\n" ++ String.join (is.map fun i => "\t" ++ i.line ++ "\n") ++ ")\n\n"

end Go

namespace Masked

/-! ## Use -/

/-- Whether a word that stands at an offset is selected from there: no dot is before it, and there is
one directly behind it. -/
def isSelectedAt (m : Masked) (word : List Char) (i : Nat) : Bool :=
  m.byteBefore i != some '.'.toUInt8 && m.hasChar (i + Text.byteLength word) '.'

theorem le_size_of_findWord {m : Masked} {word : List Char} {start i : Nat}
    (h : m.findWord word start = some i) : start ≤ m.size := by
  unfold findWord isBoundary at h
  by_cases hle : start ≤ m.size
  · exact hle
  · rw [decide_eq_false hle] at h
    exact absurd h nofun

/-- Whether a word is selected from at an offset or behind it. A round of the search looks for the
next place where the word stands whole. Unless it is selected from there, the next round begins behind
that place. There is no answer when that is where the round itself began, since all later rounds are
the same then. -/
def selectsFrom? (m : Masked) (word : List Char) (start : Nat) : Option Bool :=
  match hfound : m.findWord word start with
  | none => some false
  | some i =>
    let behind := i + Text.byteLength word
    if m.isSelectedAt word i then some true
    else if start < behind then
      have := m.le_size_of_findWord hfound
      m.selectsFrom? word behind
    else none
termination_by m.size + 1 - start

/-- Whether the code selects from a name, as from a package. -/
def selects? (m : Masked) (name : String) : Option Bool :=
  m.selectsFrom? name.toList 0

/-- Whether the code uses an import. -/
def usesImport? (m : Masked) (i : Go.Import) : Option Bool :=
  if i.isAlwaysUsed then some true else m.selects? i.name

/-- The imports that the code uses, in order and once each. There are none to name when the search for
the use of one of them goes on for ever. -/
def usedImports? (m : Masked) : List Go.Import → List Go.Import → Option (List Go.Import)
  | _, [] => some []
  | used, i :: is =>
    if used.contains i then m.usedImports? used is
    else
      match m.usesImport? i with
      | none => none
      | some true => (m.usedImports? (i :: used) is).map (i :: ·)
      | some false => m.usedImports? used is

/-! ## Reading -/

/-- What the import clause holds whose keyword ends at an offset: the lines between its parentheses,
or the rest of its line. -/
def clauseAfter? (m : Masked) (i : Nat) : Option Span :=
  match m.skipBlank? i with
  | none => none
  | some start =>
    if m.hasChar start '(' then (m.closer? start).map fun stop => ⟨start + 1, stop⟩
    else some ⟨start, m.lineStop start⟩

/-- The imports on the lines of a clause. -/
def clauseImports (text : List Char) : List Go.Import :=
  (Text.lines text).filterMap fun l => Go.Import.ofLine? (Text.trim (Text.beforeComment l))

/-- The imports of the clauses among some places of `import`, those before an offset left out. Only a
keyword that begins its line counts. There is no result when a clause ends outside the source, which
a torn character can make it do. -/
def importsFrom? (m : Masked) : List Nat → Nat → Option (List Go.Import)
  | [], _ => some []
  | i :: rest, start =>
    if i < start then m.importsFrom? rest start
    else
      let head := i + "import".length
      if m.beginsLine i then
        match m.clauseAfter? head with
        | none => some []
        | some clause =>
          match Text.cut? clause.start clause.stop m.source with
          | none => none
          | some text => (m.importsFrom? rest clause.stop).map (clauseImports text ++ ·)
      else m.importsFrom? rest head

/-- The imports of a file, in order. -/
def imports? (m : Masked) : Option (List Go.Import) :=
  m.importsFrom? (m.wordStarts "import") 0

end Masked

namespace Go

/-! ## Headers -/

/-- The first line of every generated file. -/
def banner : String := "// Code generated by rpcgen. DO NOT EDIT."

/-- The head of a file with a body, with imports to choose from as specs; nothing when the choice goes
on for ever. -/
def headerText? (package : String) (specs : List String) (body : String) : Option String :=
  let code := Masked.ofSource .go body.toList
  (code.usedImports? [] (specs.map Import.ofSpec)).map fun used =>
    banner ++ "\n\npackage " ++ package ++ "\n\n" ++ importClause used

end Go

end RpcBindings
