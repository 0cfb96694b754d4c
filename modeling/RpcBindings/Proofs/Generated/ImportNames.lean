import Mathlib.Data.List.Nodup
import RpcBindings.Proofs.Generated.Ending

/-!
Imports of a generated file that bring the same name into it.

Two imports of one name clash, unless one of them has the alias `_` or `.` and brings no name
(`Go.Import.Clash`). A header leaves an import out when its line stands there already, and whether its
body uses an import depends on what that is called (`Masked.usesImport?_of_clash`), so that of two imports
that clash a header keeps both or none. The names of a header are therefore different exactly when no two
specs that its body uses clash without being the same import. Main statement:
`GeneratedFile.importNames_apart_iff`.
-/

namespace RpcBindings

open Masked

namespace Go

variable {specs : List String} {body : String} {i j : Import}

/-! ## Clashes -/

namespace Import

/-- An import brings a name into a file: it is called so, and not by the alias `_` or `.`. -/
def Brings (i : Import) (n : String) : Prop :=
  Called i n ∧ i.alias? ≠ some "_" ∧ i.alias? ≠ some "."

/-- Two imports bring the same name into a file. -/
def Clash (i j : Import) : Prop :=
  ∃ n, i.Brings n ∧ j.Brings n

theorem Clash.name_eq (h : i.Clash j) : i.name = j.name := by
  obtain ⟨n, hi, hj⟩ := h
  exact hi.1.eq_name.trans hj.1.eq_name.symm

end Import

/-- No two imports of a list bring the same name. -/
def NamesApart (is : List Import) : Prop :=
  is.Pairwise fun i j => ¬i.Clash j

theorem NamesApart.eq {is : List Import} (h : NamesApart is) (hi : i ∈ is) (hj : j ∈ is)
    (hclash : i.Clash j) : i = j := by
  have : Std.Symm fun i j : Import => ¬i.Clash j :=
    ⟨fun _ _ hno ⟨n, hj, hi⟩ => hno ⟨n, hi, hj⟩⟩
  by_contra hne
  exact List.Pairwise.forall h hi hj hne hclash

/-! ## What a header keeps -/

theorem mem_keptImports_ofSpec {s : String} (hs : s ∈ specs) :
    Import.ofSpec s ∈ keptImports specs body ↔
      (ofSource .go body.toList).usesImport? (Import.ofSpec s) = some true :=
  mem_keptImports.trans (and_iff_right ⟨s, hs, rfl⟩)

theorem nodup_eraseDups {α : Type} [DecidableEq α] (l : List α) : l.eraseDups.Nodup := by
  match l with
  | [] => exact List.nodup_nil
  | a :: l =>
    have hlen : (l.filter fun b => !b == a).length < (a :: l).length :=
      Nat.lt_succ_of_le (List.length_filter_le _ l)
    rw [List.eraseDups_cons, List.nodup_cons, List.mem_eraseDups, List.mem_filter]
    exact ⟨fun h => by simp at h, nodup_eraseDups _⟩
termination_by l.length
decreasing_by exact hlen

theorem nodup_keptImports (specs : List String) (body : String) :
    (keptImports specs body).Nodup :=
  nodup_eraseDups _

/-- No line stands twice in a header. -/
theorem nodup_line_keptImports (specs : List String) (body : String) :
    ((keptImports specs body).map Import.line).Nodup := by
  refine List.Nodup.map_on (fun i hi j hj => ?_) (nodup_keptImports specs body)
  obtain ⟨⟨s, -, rfl⟩, -⟩ := mem_keptImports.1 hi
  obtain ⟨⟨t, -, rfl⟩, -⟩ := mem_keptImports.1 hj
  exact Import.eq_of_line_eq

end Go

namespace Masked

/-- A body uses both of two imports that clash, or none. -/
theorem usesImport?_of_clash {i j : Go.Import} (m : Masked) (h : i.Clash j) :
    m.usesImport? i = m.usesImport? j := by
  unfold usesImport? Go.Import.isAlwaysUsed
  rw [h.name_eq]

end Masked

namespace Go

/-- Specs that a body uses and that clash are the same import. -/
def SpecsAgree (specs : List String) (body : String) : Prop :=
  ∀ s ∈ specs, ∀ t ∈ specs, (ofSource .go body.toList).usesImport? (Import.ofSpec s) = some true →
    (Import.ofSpec s).Clash (Import.ofSpec t) → Import.ofSpec s = Import.ofSpec t

theorem namesApart_keptImports_iff {specs : List String} {body : String} :
    NamesApart (keptImports specs body) ↔ SpecsAgree specs body := by
  constructor
  · intro h s hs t ht huse hclash
    have huse' := usesImport?_of_clash (ofSource .go body.toList) hclash ▸ huse
    exact h.eq ((mem_keptImports_ofSpec hs).2 huse) ((mem_keptImports_ofSpec ht).2 huse') hclash
  · intro h
    refine List.Nodup.pairwise_of_forall_ne (nodup_keptImports specs body)
      fun i hi j hj hne hclash => hne ?_
    obtain ⟨⟨s, hs, rfl⟩, huse⟩ := mem_keptImports.1 hi
    obtain ⟨⟨t, ht, rfl⟩, -⟩ := mem_keptImports.1 hj
    exact h s hs t ht huse hclash

end Go

namespace GeneratedFile

open Go

theorem header_of_batchCaller {s : Settings} {clientType? : Option String} {source : String}
    {file : GeneratedFile} (h : batchCaller s clientType? source = .ok file) :
    ∃ client, ClientFile.read? ⟨s.bulk.primitives, clientType?⟩ source = some client ∧
      headerText? s.bulk.package (s.bulk.imports ++ client.imports.map Import.spec)
        (joinDeclarations file.declarations) = some file.header := by
  obtain ⟨client, type, header, hread, -, hheader, rfl⟩ := caller_of_run h
  exact ⟨client, hread, hheader⟩

/-- The imports of a header bring different names exactly when the specs that its body uses and that
clash are the same import; of two specs that clash it keeps both or none, and no line twice. There is
a header unless the search for the use of a spec never ends. For a batch caller the specs are those of
the settings and then the imports of the client file. -/
theorem importNames_apart_iff (package : String) (specs : List String) (body : String) :
    ((∀ header, headerText? package specs body = some header ↔ ¬EndlessHeader specs body ∧
        header = banner ++ "\n\npackage " ++ package ++ "\n\n" ++
          importClause (keptImports specs body)) ∧
      ((keptImports specs body).map Import.line).Nodup ∧
      (∀ s ∈ specs, ∀ t ∈ specs, (Import.ofSpec s).Clash (Import.ofSpec t) →
        (Import.ofSpec s ∈ keptImports specs body ↔ Import.ofSpec t ∈ keptImports specs body)) ∧
      (NamesApart (keptImports specs body) ↔ SpecsAgree specs body)) ∧
    ∀ s clientType? source file, batchCaller s clientType? source = .ok file →
      ∃ client, ClientFile.read? ⟨s.bulk.primitives, clientType?⟩ source = some client ∧
        headerText? s.bulk.package (s.bulk.imports ++ client.imports.map Import.spec)
          (joinDeclarations file.declarations) = some file.header := by
  refine ⟨⟨fun _ => headerText?_eq_some_iff, nodup_line_keptImports specs body, fun s hs t ht hclash => ?_,
    namesApart_keptImports_iff⟩, fun _ _ _ _ h => header_of_batchCaller h⟩
  rw [mem_keptImports_ofSpec hs, mem_keptImports_ofSpec ht, usesImport?_of_clash _ hclash]

/-- A client file that imports a package of the settings under an alias, which is its name. -/
def aliasedTypes : String :=
  "import types \"github.com/Conflux-Chain/go-conflux-sdk/types\"\n\n" ++
    "func (c *RpcClient) A() (y types.T, err error) \x7b\n" ++
    "\terr = c.CallRPC(&y, \"a\")\n\treturn\n\x7d\n"

theorem imports_aliasedTypes {client : ClientFile}
    (h : ClientFile.read? ⟨({} : Settings).bulk.primitives, none⟩ aliasedTypes = some client) :
    client.imports = [⟨some "types", Settings.sdkTypes⟩] := by
  have himports : (ClientFile.read? ⟨({} : Settings).bulk.primitives, none⟩ aliasedTypes).map
      (·.imports) = some [⟨some "types", Settings.sdkTypes⟩] := by decide +kernel
  rw [h] at himports
  exact Option.some.inj himports

theorem clash_sdkTypes :
    (Import.ofSpec Settings.sdkTypes).Clash (Import.ofSpec ("types " ++ Settings.sdkTypes)) := by
  have hplain : Import.ofSpec Settings.sdkTypes = ⟨none, Settings.sdkTypes⟩ := by decide +kernel
  have halias : Import.ofSpec ("types " ++ Settings.sdkTypes) =
      ⟨some "types", Settings.sdkTypes⟩ := by decide +kernel
  rw [hplain, halias]
  exact ⟨"types", ⟨called_iff.2 (by decide +kernel), nofun, nofun⟩, .byAlias _ _, by decide,
    by decide⟩

/-- The import of the settings and that of the client file are both kept or both left out. -/
theorem importNames_apart_iff_aliasedTypes : ∃ file, batchCaller {} none aliasedTypes = .ok file ∧
    ∃ specs, headerText? "bulk" specs (joinDeclarations file.declarations) = some file.header ∧
      (Import.ofSpec Settings.sdkTypes ∈ keptImports specs (joinDeclarations file.declarations) ↔
        Import.ofSpec ("types " ++ Settings.sdkTypes) ∈
          keptImports specs (joinDeclarations file.declarations)) := by
  have hmade : (callerParts? {} none aliasedTypes).map (fun parts =>
      (parts.1.generated, parts.2.all fun spec => (Import.ofSpec spec).name != "")) =
        some (1, true) := by decide +kernel
  obtain ⟨file, hfile, -⟩ := exists_batchCaller hmade
  obtain ⟨client, hread, hheader⟩ :=
    (importNames_apart_iff "bulk" [] "").2 {} none aliasedTypes file hfile
  rw [imports_aliasedTypes hread] at hheader
  refine ⟨file, hfile, _, hheader, ?_⟩
  exact (importNames_apart_iff "bulk" _ _).1.2.2.1 _ (by decide +kernel) _ (by decide +kernel)
    clash_sdkTypes

/-- The batched form of its method. -/
def aliasedMethod : String :=
  "func (c *BulkCaller) A() (*types.T, *error) \x7b\n" ++
    ("\tresult := new(types.T)\n\terr := new(error)\n\n" ++
      ("\t*c.batchElems = append(*c.batchElems, newBatchElem(result, \"a\"))\n\n" ++
        "\treturn result, err\n\x7d"))

/-- Of two paths that end alike both are imported, and so is a package with an alias besides itself. -/
theorem importNames_clash :
    ¬NamesApart (keptImports ["a/fmt", "b/fmt"] "fmt.X") ∧
    ∃ file specs, batchCaller {} none aliasedTypes = .ok file ∧
      headerText? "bulk" specs (joinDeclarations file.declarations) = some file.header ∧
      ¬NamesApart (keptImports specs (joinDeclarations file.declarations)) := by
  have hkept : keptImports ["a/fmt", "b/fmt"] "fmt.X" = [⟨none, "a/fmt"⟩, ⟨none, "b/fmt"⟩] := by
    decide +kernel
  have hclash : Import.Clash ⟨none, "a/fmt"⟩ ⟨none, "b/fmt"⟩ :=
    ⟨"fmt", ⟨called_iff.2 (by decide +kernel), nofun, nofun⟩,
      called_iff.2 (by decide +kernel), nofun, nofun⟩
  have hmade : (callerParts? {} none aliasedTypes).map (fun parts => (parts.1.declarations,
      parts.2.all fun spec => (Import.ofSpec spec).name != "")) =
        some ([callerText {} "RpcClient", aliasedMethod], true) := by decide +kernel
  have htext : (joinDeclarations [callerText {} "RpcClient", aliasedMethod]).toList =
      (callerText {} "RpcClient").toList ++ ("\n\n".toList ++ aliasedMethod.toList) := by
    unfold joinDeclarations
    simp [List.append_assoc]
  have huse : (ofSource .go
      (joinDeclarations [callerText {} "RpcClient", aliasedMethod]).toList).usesImport?
        (Import.ofSpec Settings.sdkTypes) = some true := by
    rw [htext]
    unfold callerText aliasedMethod
    simp only [String.toList_append]
    decide +kernel
  obtain ⟨file, hfile, hdecls⟩ := exists_batchCaller hmade
  obtain ⟨client, hread, hheader⟩ := header_of_batchCaller hfile
  rw [imports_aliasedTypes hread] at hheader
  refine ⟨fun hapart => ?_, file, _, hfile, hheader, fun hapart => ?_⟩
  · rw [hkept] at hapart
    exact absurd (hapart.eq List.mem_cons_self (List.mem_cons_of_mem _ List.mem_cons_self) hclash)
      (by decide)
  · have heq := namesApart_keptImports_iff.1 hapart Settings.sdkTypes (by decide +kernel)
      ("types " ++ Settings.sdkTypes) (by decide +kernel) (hdecls ▸ huse) clash_sdkTypes
    exact absurd heq (by decide +kernel)

end GeneratedFile

end RpcBindings
