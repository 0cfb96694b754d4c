import RpcBindings.Go.Struct
import RpcBindings.Proofs.CamelCase
import RpcBindings.Proofs.Schema.SourceName

/-!
Which exported names are the same.

A field is named in camel case, and so is a function, less the namespace that it serves. Camel case
keeps names apart unless they are spellings of the same words; a namespace that is taken off one
name can make it another one. Main statement: the fields of a struct and the functions of an
interface have distinct names exactly when neither happens (`nodup_exported_names_iff`).
-/

namespace RpcBindings

open Casing Text

namespace Namespace

variable {nspace a b : String}

/-- A name is made of the words of a namespace and of those of another name, which begins with a
letter. -/
structure Continues (nspace a b : String) : Prop where
  words : Relation.EqvGen Respelled (trim a.toList)
    (trim nspace.toList ++ '_' :: trim b.toList)
  nspace_ne : upperCamel nspace ≠ ""
  startsWord : startsWord (upperCamel b).toList = true

/-- A name is kept as it is in camel case. -/
def IsKept (nspace a : String) : Prop :=
  strip (upperCamel a) nspace = upperCamel a

/-- Two names are spellings of the same words, or a namespace shortens one of them to the other. -/
def SharesName (nspace a b : String) : Prop :=
  SameWords a b ∨ (Continues nspace a b ∧ IsKept nspace b) ∨
    (Continues nspace b a ∧ IsKept nspace a)

theorem continues_iff : Continues nspace a b ↔ (upperCamel nspace).toList ≠ [] ∧
    startsWord (upperCamel b).toList = true ∧
    (upperCamel a).toList = (upperCamel nspace).toList ++ (upperCamel b).toList := by
  have hwords : (upperCamel a).toList = (upperCamel nspace).toList ++ (upperCamel b).toList ↔
      Relation.EqvGen Respelled (trim a.toList)
        (trim nspace.toList ++ '_' :: trim b.toList) := by
    rw [toList_upperCamel, toList_upperCamel, toList_upperCamel, ← joinWords_eq_iff,
      joinWords_append_separator (by decide)]
  have hne : (upperCamel nspace).toList ≠ [] ↔ upperCamel nspace ≠ "" :=
    not_congr String.toList_eq_nil_iff
  rw [hwords, hne]
  exact ⟨fun h => ⟨h.nspace_ne, h.startsWord, h.words⟩, fun ⟨h, hstart, hw⟩ => ⟨hw, h, hstart⟩⟩

/-- A namespace shortens a name to the one behind it. -/
theorem Continues.strip_eq (h : Continues nspace a b) :
    strip (upperCamel a) nspace = upperCamel b := by
  obtain ⟨hns, hstart, happend⟩ := continues_iff.1 h
  rw [strip_of_append hns happend hstart, String.ofList_toList]

theorem isKept_or (nspace a : String) : IsKept nspace a ∨ ∃ rest, (upperCamel nspace).toList ≠ [] ∧
    startsWord rest = true ∧ (upperCamel a).toList = (upperCamel nspace).toList ++ rest :=
  or_iff_not_imp_left.2 exists_of_strip_ne

theorem continues_of_append {rest : List Char} (hns : (upperCamel nspace).toList ≠ [])
    (hword : startsWord rest = true)
    (happend : (upperCamel a).toList = (upperCamel nspace).toList ++ rest)
    (h : upperCamel b = .ofList rest) : Continues nspace a b := by
  have hb : (upperCamel b).toList = rest := by rw [h, String.toList_ofList]
  subst hb
  exact continues_iff.2 ⟨hns, hword, happend⟩

/-- Two names become the same without their namespace iff they were the same before, or one is the
other behind the namespace. -/
theorem strip_eq_strip_iff : strip (upperCamel a) nspace = strip (upperCamel b) nspace ↔
    SharesName nspace a b := by
  constructor
  · intro h
    rcases isKept_or nspace a with ha | ⟨rest, hns, hword, happend⟩ <;>
      rcases isKept_or nspace b with hb | ⟨rest', hns', hword', happend'⟩
    · exact .inl (upperCamel_eq_iff.1 (ha.symm.trans (h.trans hb)))
    · have hstrip := strip_of_append hns' happend' hword'
      exact .inr (.inr ⟨continues_of_append hns' hword' happend' (ha.symm.trans (h.trans hstrip)),
        ha⟩)
    · have hstrip := strip_of_append hns happend hword
      exact .inr (.inl ⟨continues_of_append hns hword happend (hb.symm.trans (h.symm.trans hstrip)),
        hb⟩)
    · have hstrip := strip_of_append hns happend hword
      have hstrip' := strip_of_append hns happend' hword'
      have hrest : rest = rest' :=
        String.ofList_injective (hstrip.symm.trans (h.trans hstrip'))
      refine .inl (upperCamel_eq_iff.1 (String.toList_injective ?_))
      rw [happend, happend', hrest]
  · rintro (h | ⟨h, hkept⟩ | ⟨h, hkept⟩)
    · rw [upperCamel_eq_iff.2 h]
    · exact h.strip_eq.trans hkept.symm
    · exact hkept.trans h.strip_eq.symm

instance (nspace a b : String) : Decidable (SharesName nspace a b) :=
  decidable_of_iff _ strip_eq_strip_iff

end Namespace

namespace Go

open Namespace

theorem nodup_map_iff_of_eq_iff {α β : Type} {f : α → β} {r : α → α → Prop} {as : List α}
    (h : ∀ a ∈ as, ∀ b ∈ as, f a = f b ↔ r a b) :
    (as.map f).Nodup ↔ as.Pairwise fun a b => ¬r a b := by
  unfold List.Nodup
  rw [List.pairwise_map]
  constructor
  · exact fun hne => hne.imp_of_mem fun ha hb hab hr => hab ((h _ ha _ hb).2 hr)
  · exact fun hne => hne.imp_of_mem fun ha hb hab hf => hab ((h _ ha _ hb).1 hf)

/-- The fields of a struct have distinct names iff no two fields of the record are spellings of the
same words. The functions of an interface have distinct names iff no two methods are, and none is
another one behind the namespace. In snake case each name is the only spelling of its words. -/
theorem nodup_exported_names_iff (table : TypeTable) (options : InterfaceOptions)
    (schema : String) :
    (∀ r : Record, (r.fields.map fun f => (FieldRow.ofField table f).name).Nodup ↔
      r.fields.Pairwise fun f g => ¬SameWords f.sourceName g.sourceName) ∧
    (∀ i ∈ RpcInterface.readAll options schema,
      ((i.members.filterMap Outcome.found?).map (·.functionName)).Nodup ↔
        (i.members.filterMap Outcome.found?).Pairwise fun m n =>
          ¬SharesName i.nspace m.sourceName n.sourceName) ∧
    ∀ a b, isSnakeCase a = true → isSnakeCase b = true → (SameWords a b ↔ a = b) := by
  refine ⟨fun r => nodup_map_iff_of_eq_iff fun f _ g _ => upperCamel_eq_iff,
    fun i hi => nodup_map_iff_of_eq_iff fun m hm n hn => ?_,
    fun a b ha hb => ⟨fun h => eq_of_upperCamel_eq ha hb (upperCamel_eq_iff.2 h),
      fun h => h ▸ .refl _⟩⟩
  have hname {m : RpcMethod} (hm : m ∈ i.members.filterMap Outcome.found?) :
      m.functionName = strip (upperCamel m.sourceName) i.nspace := by
    obtain ⟨o, ho, hfound⟩ := List.mem_filterMap.1 hm
    cases o with
    | found m' =>
      obtain rfl := Option.some.inj hfound
      exact (RpcInterface.isNamedIn_of_found hi ho).functionName
    | skipped d => exact absurd hfound nofun
  rw [hname hm, hname hn]
  exact strip_eq_strip_iff

/-- Methods that repeat the namespace in their names. -/
def poolSchema : String :=
  "trait Txpool \x7b\n    #[rpc(name = \"a\")]\n    fn txpool_status(&self) -> u8;\n" ++
    "    #[rpc(name = \"b\")]\n    fn txpools(&self) -> u8;\n\x7d\n"

theorem nodup_exported_names_pool :
    (∃ i ∈ RpcInterface.readAll ⟨none, []⟩ poolSchema,
      (i.members.filterMap Outcome.found?).map (·.functionName) = ["Status", "Txpools"] ∧
      ((i.members.filterMap Outcome.found?).map (·.functionName)).Nodup) ∧
    isSnakeCase "block_hash" = true ∧ isSnakeCase "blockhash" = true ∧
      ¬SameWords "block_hash" "blockhash" := by
  have hread : (RpcInterface.readAll ⟨none, []⟩ poolSchema).map (fun i => (i.nspace, i.members)) =
      [("Txpool", [.found ⟨none, "a", "txpool_status", "Status", [], .scalar "u8"⟩,
        .found ⟨none, "b", "txpools", "Txpools", [], .scalar "u8"⟩])] := by decide +kernel
  obtain ⟨i, hi, heq⟩ := List.mem_map.1 (hread ▸ List.mem_singleton_self _)
  obtain ⟨hnspace, hmembers⟩ := Prod.mk.inj heq
  have hnames := nodup_exported_names_iff .standard ⟨none, []⟩ poolSchema
  refine ⟨⟨i, hi, ?_, (hnames.2.1 i hi).2 ?_⟩, by decide +kernel, by decide +kernel, fun h => ?_⟩
  · rw [hmembers]
    rfl
  · rw [hmembers, hnspace]
    decide +kernel
  · have := (hnames.2.2 "block_hash" "blockhash" (by decide +kernel) (by decide +kernel)).1 h
    exact absurd this (by decide)

/-- Fields that are spellings of the same words. -/
def repeatedFields : String :=
  "pub struct A \x7b pub a_b: u8, pub aB: u8 \x7d\n"

/-- A method that is another one behind the namespace. -/
def repeatedMethods : String :=
  "trait Txpool \x7b\n    #[rpc(name = \"a\")]\n    fn status(&self) -> u8;\n" ++
    "    #[rpc(name = \"b\")]\n    fn txpool_status(&self) -> u8;\n\x7d\n"

/-- The names are distinct in the schema, and those made from them are not. -/
theorem repeated_names :
    (∃ r, .found r ∈ Record.readAll repeatedFields ∧ (r.fields.map (·.sourceName)).Nodup ∧
      ¬(r.fields.map fun f => (FieldRow.ofField .standard f).name).Nodup) ∧
    ∃ i ∈ RpcInterface.readAll ⟨none, []⟩ repeatedMethods,
      ((i.members.filterMap Outcome.found?).map (·.sourceName)).Nodup ∧
      ¬((i.members.filterMap Outcome.found?).map (·.functionName)).Nodup := by
  have hrecords : Record.readAll repeatedFields =
      [.found ⟨"A", [], [⟨"a_b", .scalar "u8", [], none⟩, ⟨"aB", .scalar "u8", [], none⟩]⟩] := by
    decide +kernel
  have hinterfaces : (RpcInterface.readAll ⟨none, []⟩ repeatedMethods).map (·.members) =
      [[.found ⟨none, "a", "status", "Status", [], .scalar "u8"⟩,
        .found ⟨none, "b", "txpool_status", "Status", [], .scalar "u8"⟩]] := by decide +kernel
  obtain ⟨i, hi, hmembers⟩ := List.mem_map.1 (hinterfaces ▸ List.mem_singleton_self _)
  refine ⟨⟨_, hrecords ▸ List.mem_singleton_self _, by decide, by decide +kernel⟩, i, hi, ?_⟩
  rw [hmembers]
  decide +kernel

end Go

end RpcBindings
