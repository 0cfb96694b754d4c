import RpcBindings.Proofs.Client.FileCut
import RpcBindings.Proofs.Generated.CallerType

/-!
When a batch caller cannot be made.

A run that makes a batch caller ends with a file, for want of a receiver, or at a cut that is refused,
or it never ends. Main statement (`GeneratedFile.batchCaller_endings`): only two cuts can be refused.
The statements around a call are laid out by taking away the indentation that their lines share, which
can end inside a blank; and a clause of imports can end behind the source. All other cuts that read a
client file fall between characters. A run never ends exactly when an import of the settings or of the
client file is called nothing (`FileBody.endless_caller_iff`).
-/

namespace RpcBindings

namespace Masked

variable {m : Masked} {primitives : List String} {f : FunctionSpan}

/-- The statements of a method cannot be laid out exactly when what is kept of those before or behind
its call is ragged. -/
theorem methodAt?_eq_none_iff {receiver : Receiver} {c : CallSite} :
    m.methodAt? receiver c = none ↔
      ∃ t ∈ m.siteTexts c, Text.Ragged (Client.without t 0 (ofSource .go t).errorBlocks) := by
  have hkept (t : List Char) : Text.Ragged (Client.without t 0 (ofSource .go t).errorBlocks) ↔
      Client.keptStatements? t = none := Text.tidy?_eq_none_iff.symm
  simp only [siteTexts, List.mem_cons, List.not_mem_nil, or_false, exists_eq_or_imp, exists_eq_left,
    hkept]
  unfold methodAt?
  cases hbefore : Client.keptStatements? (m.slice c.bodyStart c.statement) with
  | none => simp
  | some before =>
    cases hafter : Client.keptStatements? (afterCall (m.slice (c.args.stop + 1) c.returnAt)) <;>
      simp

/-- A function cannot be read exactly when it has a call site whose statements cannot be laid out. -/
theorem readFunction?_eq_none_iff :
    m.readFunction? primitives f = none ↔
      ∃ c, m.siteOf? primitives f = some c ∧
        ∃ t ∈ m.siteTexts c, Text.Ragged (Client.without t 0 (ofSource .go t).errorBlocks) := by
  unfold readFunction? siteOf?
  extract_lets skip
  cases m.receiverAfter? f.head with
  | none => simp
  | some receiver =>
    simp only [Option.bind_eq_bind, Option.bind_some]
    cases m.nameAfter? receiver.stop with
    | none => simp
    | some name =>
      simp only [Option.bind_some]
      cases m.callSite primitives f name with
      | error reason => simp [Except.toOption]
      | ok c =>
        rw [Option.map_eq_none_iff, methodAt?_eq_none_iff]
        simp [Except.toOption]

end Masked

/-- A client file cannot be read exactly when statements of it cannot be laid out, or when a clause of
imports ends behind it. -/
theorem ClientFile.read?_eq_none_iff {options : ClientOptions} {source : String} :
    ClientFile.read? options source = none ↔
      (∃ t, (Masked.ofSource .go source.toList).StatementText options.primitives t ∧
        Text.Ragged (Client.without t 0 (Masked.ofSource .go t).errorBlocks)) ∨
      ∃ clause ∈ (Masked.ofSource .go source.toList).importClauses,
        (Masked.ofSource .go source.toList).sourceSize < clause.stop := by
  rw [← Option.not_isSome_iff_eq_none, ClientFile.isSome_read?, not_and_or,
    Option.not_isSome_iff_eq_none, Masked.imports?_eq_none_iff]
  refine or_congr_left ?_
  simp only [not_forall, Option.not_isSome_iff_eq_none, Masked.readFunction?_eq_none_iff]
  constructor
  · rintro ⟨f, hf, c, hsite, t, ht, hragged⟩
    exact ⟨t, ⟨f, hf, c, hsite, ht⟩, hragged⟩
  · rintro ⟨t, ⟨f, hf, c, hsite, ht⟩, hragged⟩
    exact ⟨f, hf, c, hsite, t, ht, hragged⟩

/-! ## Imports that are called nothing -/

/-- The first of some declarations begins the text of all. -/
theorem GeneratedFile.exists_toList_joinDeclarations (d : String) (ds : List String) :
    ∃ rest, (joinDeclarations (d :: ds)).toList = d.toList ++ rest := by
  unfold joinDeclarations
  rw [String.toList_intercalate, List.map_cons]
  cases ds with
  | nil => exact ⟨[], by simp [List.intercalate]⟩
  | cons e ds =>
    rw [List.map_cons, List.intercalate_cons_cons, List.append_assoc]
    exact ⟨_, rfl⟩

/-- A batch caller begins with a comment, so that no dot ends the search for an import that is called
nothing. -/
theorem FileBody.endless_caller_iff {s : BulkSettings} {type : String} {client : ClientFile}
    {imports : List String} : (FileBody.caller s type client).Endless imports ↔
      ∃ spec ∈ imports, (Go.Import.ofSpec spec).name = "" := by
  unfold Endless Go.EndlessHeader
  refine exists_congr fun spec => and_congr_right fun _ => ?_
  refine ⟨Masked.eq_empty_of_searchesForever, fun hname => ?_⟩
  have hcaller : "// ".toList <+: (Go.callerText s type).toList := by
    unfold Go.callerText
    simp only [String.toList_append, List.append_assoc]
    exact List.prefix_append _ _
  obtain ⟨later, hcaller⟩ := hcaller
  obtain ⟨rest, htext⟩ := GeneratedFile.exists_toList_joinDeclarations (Go.callerText s type)
    (GeneratedFile.functionDeclarations s client.leadingComments client.functions ++
      GeneratedFile.extraDeclarations s)
  rw [← hcaller, List.append_assoc] at htext
  have hcode (cs : List Char) : ∃ code,
      Masked.mask .go ("// ".toList ++ cs) = ' ' :: code := ⟨_, rfl⟩
  obtain ⟨code, hcode⟩ := hcode (later ++ rest)
  rw [hname]
  unfold FileBody.caller FileBody.ofOutcomes
  simp only
  rw [htext]
  exact Masked.searchesForever_of_blank hcode

namespace GeneratedFile

open Masked

/-- A run that makes a batch caller ends with a file, for want of a receiver, or at a cut that is
refused, or it never ends. What is refused is to take away indentation that ends inside a blank, or to
cut out imports that end behind the source; every other cut falls between characters, in order and
inside the text. A run that reads a client file and its type never ends exactly when an import is
called nothing. -/
theorem batchCaller_endings (s : Settings) (clientType? : Option String) (source : String) :
    (∀ fault, batchCaller s clientType? source = .error fault →
      fault = .noReceiver ∨ fault = .brokenCut ∨ fault = .endlessSearch) ∧
    (∀ text i j, (ofSource .go source.toList).FileCut s.bulk.primitives text i j →
      Text.cut? i j text = some (Text.cut i j text)) ∧
    (batchCaller s clientType? source = .error .brokenCut ↔
      (∃ t, (ofSource .go source.toList).StatementText s.bulk.primitives t ∧
        Text.Ragged (Client.without t 0 (ofSource .go t).errorBlocks)) ∨
      ∃ clause ∈ (ofSource .go source.toList).importClauses,
        (ofSource .go source.toList).sourceSize < clause.stop) ∧
    (batchCaller s clientType? source = .error .endlessSearch ↔
      ∃ client type, ClientFile.read? ⟨s.bulk.primitives, clientType?⟩ source = some client ∧
        client.clientType? = some type ∧
        ∃ spec ∈ callerImports s.bulk client, (Go.Import.ofSpec spec).name = "") := by
  refine ⟨fun fault h => ?_, fun text i j h => ?_, ?_, ?_⟩
  · obtain ⟨rfl, -⟩ | ⟨client, -, ⟨rfl, -⟩ | ⟨rfl, -⟩⟩ := batchCaller_eq_error_iff.1 h
    · exact .inr (.inl rfl)
    · exact .inl rfl
    · exact .inr (.inr rfl)
  · obtain ⟨part, hpart⟩ := Option.isSome_iff_exists.1 h.isSome_cut?
    rw [hpart, Text.cut_of_cut? hpart]
  · rw [batchCaller_eq_error_iff]
    simp only [reduceCtorEq, false_and, or_false, true_and, and_false, exists_false]
    exact ClientFile.read?_eq_none_iff
  · rw [batchCaller_eq_error_iff]
    simp only [reduceCtorEq, false_and, false_or, true_and, FileBody.endless_caller_iff,
      exists_and_left]

/-- A method whose statements are indented by different blanks. -/
def mixedBlanks : String :=
  "func (c *C) A() (y T, err error) \x7b\n\u00a0x()\n z()\n\terr = c.CallRPC(&y, \"a\")\n\treturn\n\x7d\n"

/-- The indentation that is taken away ends inside the wider blank. -/
theorem batchCaller_mixedBlanks : batchCaller {} none mixedBlanks = .error .brokenCut := by
  decide +kernel

end GeneratedFile

end RpcBindings
