import RpcBindings.Proofs.Client.NamedLines
import RpcBindings.Proofs.Client.ReadBack

/-!
The batch caller of a file of stubs.

The stubs of a file are read back with their parts, and what is left to ask is whether the search
for the use of an import ends. The imports of a batch caller are those of its settings and those that
are read from the file of stubs. There the quotes of a line stand around the path of an import, behind
the first argument of a call, or in a comment, so everything that is read between them is called
something (`namedLines_stubs`). Main statement: `GeneratedFile.batchCaller_stubs`.
-/

namespace RpcBindings

open Masked

namespace Go

/-! ## Rows of import clauses -/

/-- What is read from the line of the import is called something: its path names a package, or its
alias does not read like the beginning of a clause. -/
def Import.Named (i : Import) : Prop :=
  packageOf i.path ≠ "" ∨ ∃ a ∈ i.alias?, a ≠ "import" ∧ a.toList.getLast? ≠ some '('

instance (i : Import) : Decidable i.Named :=
  inferInstanceAs (Decidable (_ ∨ _))

theorem Import.Named.name_ne_empty {spec : String} (h : (Import.ofSpec spec).Named) :
    (Import.ofSpec spec).name ≠ "" := by
  intro hempty
  obtain ⟨a, ha, hne, -⟩ | ⟨hspec, -⟩ := Import.ofSpec_cases spec
  · rw [Import.name, ha, Option.getD_some] at hempty
    exact hne (by rw [hempty]; rfl)
  · rw [hspec, Import.name, Option.getD_none] at hempty
    rw [hspec] at h
    rcases h with hpackage | ⟨a, ha, -⟩
    · exact hpackage hempty
    · cases ha

/-- The row of an import, be it the only one of its clause or one between parentheses. -/
theorem namedLines_import {spec : String} (h : PlainImport (Import.ofSpec spec))
    (hnamed : (Import.ofSpec spec).Named) {lead : List Char} {blank : Char}
    (hblank : Text.isBlank blank = true) (hplain : Plain (lead ++ [blank]))
    (hline : '\n' ∉ lead ++ [blank])
    (hsolid : Solid (lead ++ [blank] ++ (Import.ofSpec spec).line.toList ++ ['\n'])) :
    NamedLines (lead ++ [blank] ++ (Import.ofSpec spec).line.toList ++ ['\n']) := by
  have hcases := Import.ofSpec_cases spec
  generalize Import.ofSpec spec = i at h hnamed hsolid hcases ⊢
  have hbare : isBare (lead ++ [blank] ++ i.lead) = true :=
    isBare_append hplain.isBare h.lead.1 fun hslash => absurd hslash hplain.solid.no_slash
  have hquote : '"' ∉ lead ++ [blank] ++ i.lead ++ i.path.toList := by
    rw [List.mem_append, not_or]
    refine ⟨quote_not_mem_of_isBare hbare, fun hmem => ?_⟩
    exact absurd (List.all_eq_true.1 h.path _ hmem) (by decide)
  have hshape : lead ++ [blank] ++ i.line.toList =
      lead ++ [blank] ++ i.lead ++ '"' :: (i.path.toList ++ '"' :: []) := by
    rw [Import.toList_line]
    simp [quoted]
  by_cases hpath : '\n' ∈ i.path.toList
  · have hlong : lead ++ [blank] ++ i.line.toList ++ ['\n'] =
        lead ++ [blank] ++ i.lead ++ '"' :: (i.path.toList ++ '"' :: ['\n']) := by
      rw [hshape]
      simp
    have hlines := SolidLines.of_newline hsolid
    rw [hlong] at hlines ⊢
    refine .of_feed hlines ?_ hpath
    rw [List.mem_append, not_or]
    exact ⟨hquote, by decide⟩
  · have hlead : '\n' ∉ i.lead := by
      unfold Import.lead
      cases ha : i.alias? with
      | none => exact List.not_mem_nil
      | some a =>
        rw [List.mem_append, not_or]
        refine ⟨fun hmem => ?_, by decide⟩
        exact absurd (h.alias_not_blank a ha _ hmem) (by decide)
    have hnewline : '\n' ∉ lead ++ [blank] ++ i.line.toList := by
      rw [hshape, List.mem_append, not_or, List.mem_append, not_or]
      refine ⟨⟨hline, hlead⟩, ?_⟩
      rw [List.mem_cons, List.mem_append, not_or, not_or]
      exact ⟨by decide, hpath, by decide⟩
    refine .of_line hsolid hnewline ?_
    rw [hshape]
    have hquotes : '"' ∉ lead ++ [blank] ++ i.lead ++ i.path.toList ++ [] := by
      rwa [List.append_nil]
    rcases hnamed with hpackage | ⟨a, ha, hkeyword, hparen⟩
    · refine .package hquotes ?_
      rwa [String.ofList_toList]
    · obtain ⟨a', ha', hne, hpathNe⟩ := hcases.resolve_right fun hnone => by
        rw [hnone.1] at ha
        cases ha
      obtain rfl := Option.some.inj (ha'.symm.trans ha)
      refine .behindWord hidden_nil.toSolid ⟨⟨lead, blank, ?_, hblank⟩, hbare, fun c hc => ?_, hne,
        fun heq => ?_, hparen⟩ hquotes (.inl hpathNe)
      · rw [Import.lead, ha']
        simp
      · exact h.alias_not_blank a' ha' c hc
      · exact hkeyword (String.toList_injective heq)

/-- The clause of plain imports that are called something. -/
theorem namedLines_importClause {is : List Import} (hplain : ∀ i ∈ is, PlainImport i)
    (hnamed : ∀ i ∈ is, ∃ spec, Import.ofSpec spec = i ∧ i.Named) :
    NamedLines (importClause is).toList := by
  match is, hplain, hnamed with
  | [], _, _ => exact .nil
  | [i], hplain, hnamed =>
    obtain ⟨spec, rfl, hi⟩ := hnamed i List.mem_cons_self
    have hrow := hplain _ List.mem_cons_self
    have hinert : Inert ("import".toList ++ [' '] ++ (Import.ofSpec spec).line.toList ++ ['\n']) :=
      inert_import hrow (by unfold Plain; decide) (by decide) (.inr fun rest => rfl)
    have hline := namedLines_import hrow hi Text.isBlank_space (by unfold Plain; decide) (by decide)
      hinert.toSolid
    have htext : (importClause [Import.ofSpec spec]).toList =
        "import".toList ++ [' '] ++ (Import.ofSpec spec).line.toList ++ ['\n'] ++ ['\n'] := by
      simp [importClause, String.toList_append]
    rw [htext]
    exact hline.append .newline
  | i :: j :: is, hplain, hnamed =>
    have hrows : NamedLines
        ((i :: j :: is).flatMap fun i => [] ++ ['\t'] ++ i.line.toList ++ ['\n']) := by
      refine NamedLines.flatMap fun i hi => ?_
      obtain ⟨spec, rfl, hspec⟩ := hnamed i hi
      have hrow := hplain _ hi
      have hinert : Inert ([] ++ ['\t'] ++ (Import.ofSpec spec).line.toList ++ ['\n']) :=
        inert_import hrow (by unfold Plain; decide) (by decide) (.inl (by decide))
      exact namedLines_import hrow hspec (by decide) (by unfold Plain; decide) (by decide)
        hinert.toSolid
    have hopen : NamedLines ("import (".toList ++ ['\n']) := NamedLines.of_chars (by decide)
    have hclose : NamedLines ([')'] ++ ['\n']) := NamedLines.of_chars (by decide)
    have htext : (importClause (i :: j :: is)).toList = "import (".toList ++ ['\n'] ++
        ((i :: j :: is).flatMap fun i => [] ++ ['\t'] ++ i.line.toList ++ ['\n']) ++
        ([')'] ++ ['\n']) ++ ['\n'] := by
      simp [importClause, String.toList_append, List.flatMap_map]
    rw [htext]
    exact ((hopen.append hrows).append hclose).append .newline

end Go

/-! ## Stubs -/

theorem solid_enclosed {a : List Char} (ha : Regular a) (d : Delimiter) :
    Solid (d.opener :: (a ++ [d.closer])) :=
  ⟨(ha.enclose d).closed, getLast?_enclosed d a⟩

theorem not_mem_intercalate {c : Char} {sep : List Char} {ts : List (List Char)} (hsep : c ∉ sep)
    (h : ∀ t ∈ ts, c ∉ t) : c ∉ sep.intercalate ts := by
  induction ts with
  | nil => exact List.not_mem_nil
  | cons t ts ih =>
    have ht := h t List.mem_cons_self
    have hts := ih fun u hu => h u (List.mem_cons_of_mem t hu)
    cases ts with
    | nil => simpa [List.intercalate] using ht
    | cons u ts =>
      rw [List.intercalate_cons_cons, List.mem_append, List.mem_append, not_or, not_or]
      exact ⟨⟨ht, hsep⟩, hts⟩

namespace Go

theorem char_of_isName {t : List Char} {c : Char} (ht : IsName t) (hc : c ∈ t) :
    isBareChar c = true ∧ Text.isBlank c = false :=
  ⟨List.all_eq_true.1 ht.plain.all_isBareChar c hc, ht.not_isBlank c hc⟩

theorem quote_not_mem_of_isName {t : List Char} (h : IsName t) : '"' ∉ t :=
  quote_not_mem_of_isBare h.isBare

section Lines

variable (s : ClientSettings) (table : TypeTable) (nspace : String) (m : RpcMethod)

/-- The first line of a stub, which declares the method. -/
def stubFirstLine : List Char :=
  "func ".toList ++ ('(' :: ((stubMethod s table nspace m).receiverText ++ [')'])) ++
    (' ' :: m.functionName.toList) ++
    ('(' :: ((declaredParams (stubParams s table m)).toList ++ [')'])) ++ [' '] ++
    ('(' :: ([','].intercalate (stubMethod s table nspace m).results ++ [')'])) ++
    " \x7b\n".toList

/-- The word of the call before the name on the wire. -/
def stubWord : List Char :=
  s.receiver.toList ++ ('.' :: s.coreField.toList) ++ ('.' :: s.invoke.toList) ++ "(&".toList ++
    (stubResult (stubParams s table m)).toList ++ [',']

/-- What stands behind the name on the wire on its line. -/
def stubRest : List Char :=
  ((stubParams s table m).map (·.name.toList)).flatMap (", ".toList ++ ·) ++ [')']

/-- A stub by its lines. -/
theorem text_stubMethod : (stubMethod s table nspace m).text ++ ['\n'] =
    stubFirstLine s table nspace m ++ ("\terr =".toList ++ ' ' :: (stubWord s table m ++ [' ']) ++
      '"' :: (m.wireName.toList ++ '"' :: stubRest s table m) ++ ['\n']) ++
      ("\treturn\n\x7d".toList ++ ['\n']) := by
  have hpieces : [','].intercalate (stubMethod s table nspace m).pieces =
      '&' :: (stubResult (stubParams s table m)).toList ++
        (quoted m.wireName.toList :: (stubParams s table m).map (·.name.toList)).flatMap
          (", ".toList ++ ·) :=
    MethodText.intercalate_commas _ _
  unfold MethodText.text MethodText.afterName MethodText.body MethodText.call stubFirstLine
  rw [hpieces]
  generalize (stubMethod s table nspace m).receiverText = receiver
  generalize [','].intercalate (stubMethod s table nspace m).results = results
  simp [MethodText.head, MethodText.tail, stubMethod, stubWord, stubRest, quoted]

end Lines

section Stubs

variable {s : Settings} {nspace : String} {m : RpcMethod} (hs : s.Names)
  (hinvoke : s.client.invoke ∈ s.bulk.primitives)
  (htype : isIdentifier (s.client.typeName nspace) = true) (hm : PlainMethod s.client s.typeTable m)

include hs hinvoke htype hm

theorem namedLines_stubFirstLine : NamedLines (stubFirstLine s.client s.typeTable nspace m) := by
  have hwf := wf_stubMethod hs hinvoke htype hm
  have hname := isName_toList hm.functionName
  have hparen {a : List Char} (ha : Regular a) : Solid ('(' :: (a ++ [')'])) :=
    solid_enclosed ha .paren
  have hspaced : Plain (' ' :: m.functionName.toList) :=
    (show Plain [' '] by unfold Plain; decide).append hname.plain
  have hsolid : Solid (stubFirstLine s.client s.typeTable nspace m) := by
    have hreceiver := (show Solid "func ".toList from solid_of_bare rfl).append
      (hparen hwf.plain_receiverText.regular)
    have hparams := (hreceiver.append hspaced.solid).append (hparen hwf.params)
    have hresults := (hparams.append (show Solid [' '] from solid_of_bare rfl)).append
      (hparen hwf.regular_results)
    exact hresults.append (solid_of_bare rfl)
  have hparamsQuote : '"' ∉ (declaredParams (stubParams s.client s.typeTable m)).toList := by
    unfold declaredParams
    rw [String.toList_intercalate, List.map_map]
    refine not_mem_intercalate (by decide) fun t ht => ?_
    obtain ⟨p, hp, rfl⟩ := List.mem_map.1 ht
    obtain ⟨hpname, hptype⟩ := hm.params p hp
    simp only [Function.comp_apply, String.toList_append, List.mem_append, not_or]
    exact ⟨⟨quote_not_mem_of_isName (isName_toList hpname), by decide⟩,
      quote_not_mem_of_isBare hptype.bare⟩
  have hresultsQuote :
      '"' ∉ [','].intercalate (stubMethod s.client s.typeTable nspace m).results := by
    refine not_mem_intercalate (by decide) fun t ht => ?_
    rcases List.mem_cons.1 ht with rfl | ht
    · rw [List.mem_append, List.mem_cons, not_or, not_or]
      exact ⟨quote_not_mem_of_isName hwf.result, by decide,
        quote_not_mem_of_isBare hm.returnType.bare⟩
    · rw [List.mem_singleton.1 ht]
      decide
  refine .of_not_mem ⟨hsolid, fun c hc => ?_⟩ ?_
  · unfold stubFirstLine at hc
    rw [List.getLast?_append_of_ne_nil _ (by decide)] at hc
    exact (Option.some.inj hc).symm
  · unfold stubFirstLine
    simp only [List.mem_append, List.mem_cons, List.not_mem_nil, or_false, not_or]
    exact ⟨⟨⟨⟨⟨⟨by decide, by decide, quote_not_mem_of_isBare hwf.plain_receiverText.isBare,
      by decide⟩, by decide, quote_not_mem_of_isName hname⟩, by decide, hparamsQuote, by decide⟩,
      by decide⟩, by decide, hresultsQuote, by decide⟩, by decide⟩

theorem stubWord_char {c : Char} (hc : c ∈ stubWord s.client s.typeTable m) :
    isBareChar c = true ∧ Text.isBlank c = false := by
  have hwf := wf_stubMethod hs hinvoke htype hm
  have hname {t : List Char} (ht : IsName t) :
      ∀ c ∈ t, isBareChar c = true ∧ Text.isBlank c = false := fun c hc => char_of_isName ht hc
  have hall : ∀ c ∈ stubWord s.client s.typeTable m,
      isBareChar c = true ∧ Text.isBlank c = false := by
    have hresult : IsName (stubResult (stubParams s.client s.typeTable m)).toList := hwf.result
    unfold stubWord
    simp only [List.forall_mem_append, List.forall_mem_cons]
    exact ⟨⟨⟨⟨⟨hname hwf.receiver, by decide, hname hwf.field⟩, by decide,
      hname hwf.isName_primitive⟩, by decide⟩, hname hresult⟩, by decide⟩
  exact hall c hc

omit hs hinvoke htype in
theorem stubRest_char {c : Char} (hc : c ∈ stubRest s.client s.typeTable m) :
    isBareChar c = true ∧ c ≠ '\n' := by
  rcases List.mem_append.1 hc with hc | hc
  · obtain ⟨t, ht, hc⟩ := List.mem_flatMap.1 hc
    obtain ⟨p, hp, rfl⟩ := List.mem_map.1 ht
    rcases List.mem_append.1 hc with hc | hc
    · exact (show ∀ c ∈ ", ".toList, isBareChar c = true ∧ c ≠ '\n' by decide) c hc
    · obtain ⟨hbare, hblank⟩ := char_of_isName (isName_toList (hm.params p hp).1) hc
      refine ⟨hbare, ?_⟩
      rintro rfl
      exact absurd hblank (by decide)
  · rw [List.mem_singleton.1 hc]
    decide

/-- The line of the call: a word that ends in a comma stands before the name on the wire. -/
theorem namedLines_stubCall : NamedLines ("\terr =".toList ++
    ' ' :: (stubWord s.client s.typeTable m ++ [' ']) ++
      '"' :: (m.wireName.toList ++ '"' :: stubRest s.client s.typeTable m) ++ ['\n']) := by
  have hword {c : Char} (hc : c ∈ stubWord s.client s.typeTable m) :=
    stubWord_char hs hinvoke htype hm hc
  have hrest : ∀ c ∈ stubRest s.client s.typeTable m, isBareChar c = true ∧ c ≠ '\n' :=
    fun c hc => stubRest_char hm hc
  have hfront : ∀ c ∈ "\terr =".toList ++ ' ' :: (stubWord s.client s.typeTable m ++ [' ']),
      isBareChar c = true ∧ c ≠ '\n' := by
    simp only [List.forall_mem_append, List.forall_mem_cons]
    refine ⟨by decide, by decide, fun c hc => ⟨(hword hc).1, ?_⟩, by decide⟩
    rintro rfl
    exact absurd (hword hc).2 (by decide)
  have hunquoted : m.wireName.toList.all isUnquoted = true := by
    refine List.all_eq_true.2 fun c hc => ?_
    obtain ⟨hquote, hback, -⟩ := hm.wireName c hc
    unfold isUnquoted
    rw [Bool.and_eq_true, bne_iff_ne, bne_iff_ne]
    exact ⟨hquote, hback⟩
  have hquote {t : List Char} (ht : ∀ c ∈ t, isBareChar c = true ∧ c ≠ '\n') : '"' ∉ t :=
    fun hmem => absurd (ht _ hmem).1 (by decide)
  have hfeed {t : List Char} (ht : ∀ c ∈ t, isBareChar c = true ∧ c ≠ '\n') : '\n' ∉ t :=
    fun hmem => (ht _ hmem).2 rfl
  have hlast : (stubWord s.client s.typeTable m).getLast? = some ',' := List.getLast?_concat
  refine .of_line ?_ ?_ (.behindWord hidden_nil.toSolid ⟨⟨_, _, rfl, Text.isBlank_space⟩, ?_,
    fun c hc => (hword hc).2, List.append_ne_nil_of_right_ne_nil _ (List.cons_ne_nil _ _),
    fun heq => ?_, ?_⟩ ?_ (.inr hlast))
  · have hline : Solid ("\terr =".toList ++ ' ' :: (stubWord s.client s.typeTable m ++ [' ']) ++
        quoted m.wireName.toList ++ (stubRest s.client s.typeTable m ++ ['\n'])) :=
      ((solid_of_bare (List.all_eq_true.2 fun c hc => (hfront c hc).1)).append
        (solid_quoted hunquoted)).append
        ((solid_of_bare (List.all_eq_true.2 fun c hc => (hrest c hc).1)).append hidden_newline.toSolid)
    refine cast (congrArg Solid ?_) hline
    simp [quoted]
  · rw [List.mem_append, not_or]
    refine ⟨hfeed hfront, ?_⟩
    simp only [List.mem_cons, List.mem_append, not_or]
    exact ⟨by decide, fun hmem => (hm.wireName _ hmem).2.2 rfl, by decide, hfeed hrest⟩
  · exact isBare_of_all (List.all_eq_true.2 fun c hc => (hfront c hc).1)
  · rw [heq] at hlast
    exact absurd hlast (by decide)
  · rw [hlast]
    decide
  · rw [List.mem_append, List.mem_append, not_or, not_or]
    exact ⟨⟨hquote hfront, fun hmem => (hm.wireName _ hmem).1 rfl⟩, hquote hrest⟩

/-- A stub and the line feed behind it. -/
theorem namedLines_stub :
    NamedLines ((stubMethod s.client s.typeTable nspace m).text ++ ['\n']) := by
  have hend : NamedLines ("\treturn\n\x7d".toList ++ ['\n']) := NamedLines.of_chars (by decide)
  rw [text_stubMethod]
  exact ((namedLines_stubFirstLine hs hinvoke htype hm).append
    (namedLines_stubCall hs hinvoke htype hm)).append hend

end Stubs

/-- The declaration of the client type and its constructor. -/
theorem namedLines_clientType {s : ClientSettings} {nspace : String}
    (htype : isIdentifier (s.typeName nspace) = true) (hcore : isIdentifier s.coreField = true)
    (hcoreType : isIdentifier s.coreType = true) :
    NamedLines (clientTypeLines s nspace ++ (constructorText s nspace ++ ['\n'])) := by
  have hchar {t : String} (ht : isIdentifier t = true) : ∀ c ∈ t.toList, isBareChar c = true :=
    fun c hc => List.all_eq_true.1 (isName_toList ht).plain.all_isBareChar c hc
  have hchars : ∀ c ∈ clientTypeLines s nspace ++ constructorText s nspace,
      isBareChar c = true := by
    unfold clientTypeLines constructorText constructorHead constructorBody
    simp only [List.forall_mem_append, List.forall_mem_cons]
    simp only [eq_true (hchar htype), eq_true (hchar hcore), eq_true (hchar hcoreType), true_and,
      and_true]
    decide
  rw [← List.append_assoc]
  exact NamedLines.of_chars hchars

end Go

/-! ## The whole file -/

theorem filterMap_found?_map_found {α β : Type} (f : α → β) (as : List α) :
    (as.map fun a => Outcome.found (f a)).filterMap Outcome.found? = as.map f := by
  rw [List.filterMap_map]
  exact congrFun (List.filterMap_eq_map (f := f)) as

theorem filterMap_skipped?_map_found {α β : Type} (f : α → β) (as : List α) :
    (as.map fun a => Outcome.found (f a)).filterMap Outcome.skipped? = [] := by
  rw [List.filterMap_map]
  exact List.filterMap_eq_nil_iff.2 fun _ _ => rfl

/-- Settings whose stubs can be rewritten: what they import is called something, and what is read
from its rows is. -/
structure NamedClient (s : Settings) : Prop extends PlainClient s where
  named : ∀ spec ∈ s.client.imports, (Go.Import.ofSpec spec).Named
  bulk_names : ∀ spec ∈ s.bulk.imports, (Go.Import.ofSpec spec).name ≠ ""

theorem Go.namedLines_preamble {package : String} (h : isIdentifier package = true) :
    NamedLines (preamble package) := by
  have hname := isName_toList h
  have htext : IsNameText package.toList := by
    refine ⟨hname.ne_nil, List.all_eq_true.2 fun c hc => ?_⟩
    obtain ⟨d, ds, hcons, hd, hds⟩ := exists_cons_of_isName hname
    have hletter : isLetterOrDigit c = true := by
      rw [hcons] at hc
      rcases List.mem_cons.1 hc with rfl | hc
      · exact isLetterOrDigit_of_isLetter hd
      · exact List.all_eq_true.1 hds c hc
    rw [isNameChar, hletter, Bool.true_or]
  refine .of_not_mem (importlessLines_preamble htext).toSolidLines ?_
  have hquote := quote_not_mem_of_isName hname
  unfold preamble
  simp only [String.toList_append, List.mem_append, not_or]
  exact ⟨⟨⟨by decide, by decide⟩, hquote⟩, by decide⟩

theorem namedLines_header {s : Settings} (hs : NamedClient s) {body header : String}
    (h : Go.headerText? s.client.package s.client.imports body = some header) :
    NamedLines header.toList := by
  have hnames := Settings.names_of_fault? hs.no_fault
  have hused := Go.usedImports?_of_headerText? h
  rw [Go.toList_of_headerText? h]
  refine (Go.namedLines_preamble hnames.package).append (Go.namedLines_importClause
    (fun j hj => Go.plainImport_of_usedImports? hs.imports hused hj) fun j hj => ?_)
  obtain ⟨⟨spec, hspec, rfl⟩, -⟩ := Go.mem_keptImports.1 hj
  exact ⟨spec, rfl, hs.named spec hspec⟩

section File

variable [Rust.ParserMessages] {s : Settings} {nspace? : Option String} {schema : String}
  {i : RpcInterface} (hs : NamedClient s)
  (hone : RpcInterface.readAll ⟨nspace?, s.client.resultWrappers⟩ schema = [i])
  (hi : PlainInterface s i)

include hs hone hi

theorem namedLines_memberText {o : Outcome RpcMethod} (ho : o ∈ i.members) :
    NamedLines (memberText s i.nspace o) := by
  have hnames := Settings.names_of_fault? hs.no_fault
  cases o with
  | skipped d =>
    have hcomment : Text.isComment d.marker.toList = true := by
      unfold Diagnostic.marker
      rw [String.toList_append]
      rfl
    exact NamedLines.newline.append (NamedLines.of_comment hcomment (hi.skips d ho))
  | found m =>
    have hstub := Go.namedLines_stub hnames hs.invoke hi.typeName (hi.methods m ho)
    rw [memberText_found]
    refine NamedLines.append ?_ hstub
    cases hdoc : m.docComment? with
    | none =>
      rw [Go.stubComment, hdoc]
      exact .newline
    | some comment =>
      have hmem : i ∈ RpcInterface.readAll ⟨nspace?, s.client.resultWrappers⟩ schema := by
        rw [hone]
        exact List.mem_cons_self
      obtain ⟨ls, hlines, hcomments⟩ := RpcInterface.exists_lines_docComment hmem ho hdoc
      rw [Go.stubComment, hdoc]
      simp only [hlines]
      exact NamedLines.newline.append (NamedLines.flatMap fun l hl =>
        NamedLines.of_comment (hcomments l hl).1 (hcomments l hl).2)

/-- In a file of stubs everything that is read between two quotes is called something. -/
theorem namedLines_stubs {file : GeneratedFile}
    (hfile : (FileBody.stubs s nspace? schema).file s.client.package s.client.imports = .ok file) :
    NamedLines file.source.toList := by
  have hnames := Settings.names_of_fault? hs.no_fault
  obtain ⟨header, hheader, hbody⟩ := FileBody.exists_header_of_file hfile
  have hmembers : NamedLines (membersText s i.nspace i.members) :=
    NamedLines.flatMap fun o ho => namedLines_memberText hs hone hi ho
  have htype := Go.namedLines_clientType hi.typeName hnames.coreField hs.coreType
  have hsource := GeneratedFile.toList_source_stubs hone (congrArg (·.toFileBody) hbody)
  rw [show file.header = header from congrArg (·.header) hbody] at hsource
  have hparts : file.source.toList = header.toList ++ (Go.clientTypeLines s.client i.nspace ++
      (Go.constructorText s.client i.nspace ++ ['\n']) ++ membersText s i.nspace i.members) := by
    rw [hsource]
    simp
  rw [hparts]
  exact (namedLines_header hs hheader).append (htype.append hmembers)

omit hone hi [Rust.ParserMessages] in
/-- The imports that a batch caller of stubs has to choose from are all called something. -/
theorem name_ne_empty_of_mem_callerImports {client : ClientFile} {source : String}
    (hlines : NamedLines source.toList)
    (hread : ClientFile.read? ⟨s.bulk.primitives, none⟩ source = some client) :
    ∀ spec ∈ GeneratedFile.callerImports s.bulk client, (Go.Import.ofSpec spec).name ≠ "" := by
  intro spec hspec
  rcases List.mem_append.1 hspec with hspec | hspec
  · exact hs.bulk_names spec hspec
  · obtain ⟨j, hj, rfl⟩ := List.mem_map.1 hspec
    exact hlines.name_ne_empty (ClientFile.isReadFrom hread).imports hj

/-- Stubs are made, the stub of every method is found again when they are rewritten into a batch
caller, and only the constructor is left out. -/
theorem GeneratedFile.batchCaller_stubs : ∃ stubs client file,
    (Mode.stubs nspace?).run s schema = .ok stubs ∧
    ClientFile.read? ⟨s.bulk.primitives, none⟩ stubs.source = some client ∧
    (Mode.batchCaller none).run s stubs.source = .ok file ∧
    file.generated = stubs.generated ∧
    file.diagnostics = [constructorSkip s.client i.nspace] ∧
    client.functions.filterMap (·.outcome.found?) =
      (i.members.filterMap Outcome.found?).map (Go.readBack s.client s.typeTable i.nspace) := by
  obtain ⟨stubs, hstubs⟩ : ∃ stubs, (FileBody.stubs s nspace? schema).file s.client.package
      s.client.imports = .ok stubs :=
    ⟨_, FileBody.file_eq_ok_iff.2 ⟨FileBody.not_endless fun spec hspec =>
      (hs.named spec hspec).name_ne_empty, rfl⟩⟩
  obtain ⟨client, hread, htype, houtcomes⟩ :=
    ClientFile.exists_read?_stubs hs.toPlainClient hone hi hstubs
  obtain ⟨file, hfile, hbody⟩ : ∃ file, (FileBody.caller s.bulk (s.client.typeName i.nspace)
      client).file s.bulk.package (callerImports s.bulk client) = .ok file ∧
      file.toFileBody = FileBody.caller s.bulk (s.client.typeName i.nspace) client :=
    ⟨_, FileBody.file_eq_ok_iff.2 ⟨FileBody.not_endless (name_ne_empty_of_mem_callerImports hs
      (namedLines_stubs hs hone hi hstubs) hread), rfl⟩, rfl⟩
  have hcandidates : (client.functions.map (·.outcome)).filterMap Outcome.found? =
      (i.members.filterMap Outcome.found?).map (Go.readBack s.client s.typeTable i.nspace) := by
    rw [houtcomes, List.filterMap_cons_none rfl]
    exact filterMap_found?_map_found _ _
  obtain ⟨header, -, hstubsBody⟩ := FileBody.exists_header_of_file hstubs
  refine ⟨stubs, client, file, ?_, hread, ?_, ?_, ?_, ?_⟩
  · rw [Mode.run_of_fault? hs.no_fault, Mode.generate]
    exact hstubs
  · rw [Mode.run_of_fault? hs.no_fault, Mode.generate_batchCaller, batchCaller_of_read? hread]
    simp only [htype]
    exact hfile
  · have hmembers : stubs.generated = (i.members.filterMap Outcome.found?).length := by
      rw [hstubsBody]
      show (FileBody.stubs s nspace? schema).generated = _
      rw [FileBody.stubs_of_readAll hone, FileBody.ofOutcomes]
    rw [hbody, hmembers]
    show ((client.functions.map (·.outcome)).filterMap Outcome.found?).length = _
    rw [hcandidates, List.length_map]
  · rw [hbody]
    show (client.functions.map (·.outcome)).filterMap Outcome.skipped? = _
    rw [houtcomes]
    exact congrArg (constructorSkip s.client i.nspace :: ·) (filterMap_skipped?_map_found _ _)
  · rw [← hcandidates, List.filterMap_map]
    rfl

end File

/-! ## Schemas with few methods -/

namespace GeneratedFile

/-- What is seen of the members of an interface: the methods, and the markers in place of others. -/
def seenMembers (i : RpcInterface) : List (Option RpcMethod) × List String :=
  (i.members.map Outcome.found?, (i.members.filterMap Outcome.skipped?).map Diagnostic.marker)

theorem readAll_of_seen {options : InterfaceOptions} {schema nspace : String}
    {seen : List (Option RpcMethod) × List String}
    (h : (RpcInterface.readAll options schema).map (fun i => (i.nspace, seenMembers i)) =
      [(nspace, seen)]) :
    ∃ i, RpcInterface.readAll options schema = [i] ∧ i.nspace = nspace ∧ seenMembers i = seen := by
  obtain ⟨i, hone, hi⟩ := List.map_eq_singleton_iff.1 h
  obtain ⟨hnspace, hmembers⟩ := Prod.mk.inj hi
  exact ⟨i, hone, hnspace, hmembers⟩

/-- An interface of which plain methods are seen is plain under settings that name the client after
it. -/
theorem plainInterface_of_seen {s : Settings} {i : RpcInterface}
    {seen : List (Option RpcMethod) × List String} (hnspace : i.nspace = "E")
    (hseen : seenMembers i = seen) (hname : s.client.typeName "E" = "E")
    (hmethod : seen.1.filterMap id ≠ [])
    (hmethods : ∀ m ∈ seen.1.filterMap id, Go.PlainMethod s.client s.typeTable m)
    (hmarkers : ∀ text ∈ seen.2, '\n' ∉ text.toList) : PlainInterface s i := by
  subst hseen
  have htype : s.client.typeName i.nspace = "E" := by
    rw [hnspace, hname]
  have hmem (m : RpcMethod) : .found m ∈ i.members ↔ m ∈ (seenMembers i).1.filterMap id := by
    rw [show (seenMembers i).1 = i.members.map Outcome.found? from rfl, List.mem_filterMap]
    constructor
    · exact fun hm => ⟨some m, List.mem_map.2 ⟨_, hm, rfl⟩, rfl⟩
    · rintro ⟨o?, ho, rfl⟩
      obtain ⟨o, ho, hsome⟩ := List.mem_map.1 ho
      cases o with
      | found m' => exact Option.some.inj hsome ▸ ho
      | skipped d => cases hsome
  obtain ⟨m, ms, hm⟩ := List.exists_cons_of_ne_nil hmethod
  refine ⟨?_, ?_, ?_, ⟨m, (hmem m).2 (hm ▸ List.mem_cons_self)⟩,
    fun m hm => hmethods m ((hmem m).1 hm), fun d hd => hmarkers _ ?_⟩
  · rw [htype]
    decide +kernel
  · rw [htype]
    decide +kernel
  · rw [htype]
    decide +kernel
  · exact List.mem_map_of_mem (List.mem_filterMap.2 ⟨_, hd, rfl⟩)

/-- A schema whose methods have comments and parameters, with a method that is not called. -/
def blockSchema : String :=
  "pub trait E \x7b\n/// H.\n// From 1.\n#[rpc(name = \"h\")]\nfn height(&self) -> T;\n" ++
    "fn local(&self) -> T;\n" ++
    "#[rpc(name = \"b\")]\nfn block(&self, at: u64, tags: Option<Vec<u8>>) -> RpcResult<B>;\n\x7d"

/-- What is seen of the schema. -/
def blockMembers : List (Option RpcMethod) × List String :=
  ([some ⟨some "/// H.\n// From 1.", "h", "height", "Height", [], .scalar "T"⟩, none,
      some ⟨none, "b", "block", "Block", [⟨"at", .scalar "u64"⟩,
        ⟨"tags", .optional (.sequence (.scalar "u8"))⟩], .scalar "B"⟩],
    ["// ignored method `local`: missing #[rpc(name = \"...\")] attribute"])

/-- Settings with short names. -/
def shortNames : Settings where
  client := { package := "p", coreType := "C", typePrefix := "", typeSuffix := "" }

/-- Two stubs with comments and parameters are found again, and the method between them is not. -/
theorem batchCaller_stubs_block : NamedClient shortNames ∧ ∃ i,
    RpcInterface.readAll ⟨none, shortNames.client.resultWrappers⟩ blockSchema = [i] ∧
    PlainInterface shortNames i ∧ seenMembers i = blockMembers ∧ ∃ stubs client file,
      (Mode.stubs none).run shortNames blockSchema = .ok stubs ∧
      ClientFile.read? ⟨shortNames.bulk.primitives, none⟩ stubs.source = some client ∧
      (Mode.batchCaller none).run shortNames stubs.source = .ok file ∧
      file.generated = stubs.generated ∧
      file.diagnostics = [constructorSkip shortNames.client i.nspace] ∧
      client.functions.filterMap (·.outcome.found?) = (i.members.filterMap Outcome.found?).map
        (Go.readBack shortNames.client shortNames.typeTable i.nspace) := by
  have hs : NamedClient shortNames := by
    refine ⟨⟨?_, ?_, ?_, ?_, ?_⟩, ?_, ?_⟩ <;> decide +kernel
  obtain ⟨i, hone, hnspace, hseen⟩ := @readAll_of_seen
    ⟨none, shortNames.client.resultWrappers⟩ blockSchema "E" blockMembers (by decide +kernel)
  have hi : PlainInterface shortNames i :=
    plainInterface_of_seen hnspace hseen (by decide +kernel) (by decide) (by decide +kernel)
      (by decide +kernel)
  exact ⟨hs, i, hone, hi, hseen, batchCaller_stubs hs hone hi⟩

/-- A schema with one method. -/
def heightSchema : String :=
  "pub trait E \x7b #[rpc(name = \"h\")] fn height(&self) -> T; \x7d"

/-- Settings without imports, under which the core of a client is called as the keyword of
functions. -/
def funcCore : Settings where
  client := { shortNames.client with coreField := "func", imports := [] }

/-- The field of the core is read as a function when it is called as the keyword, so that not the
constructor is left out but a text that begins before it. -/
theorem batchCaller_stubs_funcCore :
    funcCore.fault? = none ∧ funcCore.client.invoke ∈ funcCore.bulk.primitives ∧
      Go.isIdentifier funcCore.client.coreType = true ∧ funcCore.client.imports = [] ∧
      (∀ spec ∈ funcCore.bulk.imports, (Go.Import.ofSpec spec).name ≠ "") ∧ ∃ i,
        RpcInterface.readAll ⟨none, funcCore.client.resultWrappers⟩ heightSchema = [i] ∧
        PlainInterface funcCore i ∧ ∃ stubs file,
          (Mode.stubs none).run funcCore heightSchema = .ok stubs ∧
          (Mode.batchCaller none).run funcCore stubs.source = .ok file ∧
          file.diagnostics ≠ [constructorSkip funcCore.client i.nspace] := by
  obtain ⟨i, hone, hnspace, hseen⟩ := @readAll_of_seen ⟨none, funcCore.client.resultWrappers⟩
    heightSchema "E" ([some ⟨none, "h", "height", "Height", [], .scalar "T"⟩], [])
    (by decide +kernel)
  have hi : PlainInterface funcCore i :=
    plainInterface_of_seen hnspace hseen (by decide +kernel) (by decide) (by decide +kernel) nofun
  have hfault : funcCore.fault? = none := by decide +kernel
  refine ⟨hfault, by decide +kernel, by decide +kernel, rfl, by decide +kernel, i, hone, hi, ?_⟩
  obtain ⟨stubs, hstubs, hparts⟩ : ∃ stubs, (FileBody.stubs funcCore none heightSchema).file
      funcCore.client.package funcCore.client.imports = .ok stubs ∧
      (callerParts? funcCore none stubs.source).map (fun parts =>
        (parts.1.diagnostics.map (·.subject),
          parts.2.all fun spec => (Go.Import.ofSpec spec).name != "")) = some ([none], true) :=
    ⟨⟨_, Go.banner ++ "\n\npackage " ++ "p" ++ "\n\n" ++ Go.importClause []⟩,
      FileBody.file_eq_ok_iff.2 ⟨FileBody.not_endless nofun, rfl⟩, by decide +kernel⟩
  obtain ⟨file, hmade, hsubjects⟩ := exists_batchCaller
    (f := fun body => body.diagnostics.map (·.subject)) hparts
  refine ⟨stubs, file, ?_, ?_, fun hskip => ?_⟩
  · rw [Mode.run_of_fault? hfault, Mode.generate]
    exact hstubs
  · rw [Mode.run_of_fault? hfault, Mode.generate_batchCaller]
    exact hmade
  · simp only [hskip] at hsubjects
    exact absurd hsubjects (by simp [constructorSkip])

end GeneratedFile

end RpcBindings
