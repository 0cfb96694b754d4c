import RpcBindings.Go.ImportClause
import RpcBindings.Proofs.Client.Between
import RpcBindings.Proofs.Client.MethodText
import RpcBindings.Proofs.Go.ImportSearch
import RpcBindings.Proofs.Masked.Shown

/-!
The head of a generated file holds no function.

The lines of an import clause are those of the imports that the code uses. An alias that is selected
from stands in the code, so it begins no comment (`isBare_of_selects`), and a path is hidden. What is
left for a line to begin with is the alias itself. Main statement: `inert_headerText?`.
-/

namespace RpcBindings

open Masked

namespace Masked

/-! ## Names in code -/

theorem isBare_of_no_opener {a : List Char}
    (hquotes : ∀ c ∈ a, c ≠ '"' ∧ c ≠ '`' ∧ c ≠ '\'')
    (hopener : ∀ x y d, d = '/' ∨ d = '*' → a ≠ x ++ '/' :: d :: y) : isBare a = true := by
  induction a with
  | nil => rfl
  | cons c cs ih =>
    obtain ⟨hquote, hback, hsingle⟩ := hquotes c List.mem_cons_self
    have hrest := ih (fun d hd => hquotes d (List.mem_cons_of_mem c hd)) fun x y d hd hcs =>
      hopener (c :: x) y d hd (by rw [hcs]; rfl)
    have hslash : (c == '/' && (cs.head? == some '/' || cs.head? == some '*')) = false := by
      refine Bool.eq_false_iff.2 fun h => ?_
      rw [Bool.and_eq_true, Bool.or_eq_true, beq_iff_eq, beq_iff_eq, beq_iff_eq] at h
      obtain ⟨rfl, hhead⟩ := h
      cases cs with
      | nil => exact absurd hhead (by simp)
      | cons d cs =>
        have hd : d = '/' ∨ d = '*' := hhead.imp Option.some.inj Option.some.inj
        exact hopener [] cs d hd rfl
    rw [isBare, hrest, Bool.and_true]
    unfold beginsNothing
    rw [hslash]
    simp [hquote, hback, hsingle]

/-- Where two ASCII bytes stand next to each other their characters do. -/
theorem exists_split_of_two {cs a b : List Char} {c d : Char} {s : List UInt8} {k : Nat}
    (hc : c.utf8Size = 1) (hd : d.utf8Size = 1) (hc' : c.toUInt8 < 0x80) (hd' : d.toUInt8 < 0x80)
    (h : (Text.bytes cs).drop k = Text.bytes (a ++ c :: d :: b) ++ s) :
    ∃ x y, cs = x ++ c :: d :: y := by
  have hget (n : Nat) : (Text.bytes cs)[k + n]? = (Text.bytes (a ++ c :: d :: b) ++ s)[n]? := by
    rw [← h, List.getElem?_drop]
  have hpair : Text.bytes (a ++ c :: d :: b) ++ s =
      Text.bytes a ++ c.toUInt8 :: d.toUInt8 :: (Text.bytes b ++ s) := by
    rw [Text.bytes_append, Text.bytes_cons_of_narrow hc, Text.bytes_cons_of_narrow hd,
      List.append_assoc]
    rfl
  have hfirst : (Text.bytes cs)[k + (Text.bytes a).length]? = some c.toUInt8 := by
    rw [hget, hpair, List.getElem?_append_right (Nat.le_refl _), Nat.sub_self]
    rfl
  have hsecond : (Text.bytes cs)[k + (Text.bytes a).length + 1]? = some d.toUInt8 := by
    rw [Nat.add_assoc, hget, hpair, List.getElem?_append_right (Nat.le_add_right _ _),
      Nat.add_sub_cancel_left]
    rfl
  obtain ⟨x, c', rest, hcs, hx, hsize, hbyte⟩ := Text.exists_split_of_ascii hfirst hc'
  obtain rfl := Text.eq_of_toUInt8_eq hsize hc hbyte
  rw [hcs, Text.bytes_append, Text.bytes_cons_of_narrow hc, ← hx, ← Text.length_bytes,
    List.getElem?_append_right (Nat.le_add_right _ _), Nat.add_sub_cancel_left,
    List.getElem?_cons_succ] at hsecond
  obtain ⟨x', d', rest', hrest, hx', hsize', hbyte'⟩ := Text.exists_split_of_ascii hsecond hd'
  obtain rfl := Text.byteLength_eq_zero hx'
  obtain rfl := Text.eq_of_toUInt8_eq hsize' hd hbyte'
  exact ⟨x, rest', by rw [hcs, hrest]; rfl⟩

/-- A name that is selected from begins no comment. -/
theorem isBare_of_selects {t : List Char} {name : String}
    (h : (ofSource .go t).selects? name = some true)
    (hquotes : ∀ c ∈ name.toList, c ≠ '"' ∧ c ≠ '`' ∧ c ≠ '\'') : isBare name.toList = true := by
  obtain ⟨k, -, hword, -⟩ := exists_of_selectsFrom? h
  unfold wordAt wordHere at hword
  rw [Bool.and_eq_true, Bool.and_eq_true] at hword
  obtain ⟨s, hs⟩ := List.isPrefixOf_iff_prefix.1 hword.1.1
  refine isBare_of_no_opener hquotes fun x y d hd hname => ?_
  rw [hname] at hs
  have hsize : d.utf8Size = 1 := by rcases hd with rfl | rfl <;> rfl
  have hlt : d.toUInt8 < 0x80 := by rcases hd with rfl | rfl <;> decide
  obtain ⟨x', y', hmask⟩ := exists_split_of_two (by decide) hsize (by decide) hlt hs.symm
  exact mask_ne_append_opener hd hmask

/-- What is named as used is among the imports, and it is used. -/
theorem mem_usedImports? {m : Masked} {used is js : List Go.Import} {i : Go.Import}
    (h : m.usedImports? used is = some js) (hi : i ∈ js) :
    i ∈ is ∧ m.usesImport? i = some true := by
  induction is generalizing used js with
  | nil =>
    rw [usedImports?] at h
    rw [← Option.some.inj h] at hi
    exact absurd hi List.not_mem_nil
  | cons j is ih =>
    have later {used js : List Go.Import} (h : m.usedImports? used is = some js) (hi : i ∈ js) :
        i ∈ j :: is ∧ m.usesImport? i = some true :=
      ⟨List.mem_cons_of_mem j (ih h hi).1, (ih h hi).2⟩
    rw [usedImports?] at h
    split at h
    · exact later h hi
    · split at h
      · cases h
      · rename_i huse
        obtain ⟨js', hjs, rfl⟩ := Option.map_eq_some_iff.1 h
        rcases List.mem_cons.1 hi with rfl | hi
        · exact ⟨List.mem_cons_self, huse⟩
        · exact later hjs hi
      · exact later h hi

end Masked

namespace Go

/-! ## Imports -/

/-- A character that neither ends nor begins a literal, nor escapes the next one. -/
def isSpecChar (c : Char) : Bool :=
  c != '"' && c != '\'' && c != '`' && c != '\\'

/-- A spec whose line of an import clause begins no other literal than its path and no function. -/
structure PlainSpec (spec : String) : Prop where
  chars : spec.toList.all isSpecChar = true
  alias_func : ∀ a, (Import.ofSpec spec).alias? = some a → beginsFunction a.toList = false

instance (spec : String) : Decidable (PlainSpec spec) :=
  decidable_of_iff (spec.toList.all isSpecChar = true ∧
      ∀ a ∈ (Import.ofSpec spec).alias?, beginsFunction a.toList = false)
    ⟨fun ⟨hchars, halias⟩ => ⟨hchars, halias⟩, fun ⟨hchars, halias⟩ => ⟨hchars, halias⟩⟩

/-- An import that stands in a clause as its spec says. -/
structure PlainImport (i : Import) : Prop where
  alias_bare : ∀ a, i.alias? = some a → isBare a.toList = true
  alias_not_blank : ∀ a, i.alias? = some a → ∀ c ∈ a.toList, Text.isBlank c = false
  alias_func : ∀ a, i.alias? = some a → beginsFunction a.toList = false
  path : i.path.toList.all isUnquoted = true

/-- Alias and path of a spec are parts of it. -/
theorem Import.mem_ofSpec (spec : String) :
    (∀ a, (Import.ofSpec spec).alias? = some a →
      ∀ c ∈ a.toList, c ∈ spec.toList ∧ Text.isBlank c = false) ∧
    ∀ c ∈ (Import.ofSpec spec).path.toList, c ∈ spec.toList := by
  cases hsplit : Text.splitAtBlank? (Text.trim spec.toList) with
  | none =>
    have hspec : ofSpec spec = ⟨none, .ofList (Text.trim spec.toList)⟩ := by
      unfold ofSpec
      simp only [hsplit]
    rw [hspec]
    refine ⟨fun a ha => absurd ha (by simp), fun c hc => ?_⟩
    rw [String.toList_ofList] at hc
    exact Text.mem_of_mem_trim hc
  | some parts =>
    obtain ⟨name, path⟩ := parts
    have hspec : ofSpec spec = ⟨some (.ofList name), .ofList (Text.trim path)⟩ := by
      unfold ofSpec
      simp only [hsplit]
    rw [hspec]
    obtain ⟨blank, hcs, -, hname⟩ := Text.splitAtBlank?_eq_some hsplit
    have hmem {c : Char} (hc : c ∈ name ++ blank :: path) : c ∈ spec.toList :=
      Text.mem_of_mem_trim (hcs ▸ hc)
    constructor
    · intro a ha c hc
      obtain rfl := Option.some.inj ha
      rw [String.toList_ofList] at hc
      exact ⟨hmem (List.mem_append_left _ hc), hname c hc⟩
    · intro c hc
      rw [String.toList_ofList] at hc
      exact hmem (List.mem_append_right _ (List.mem_cons_of_mem _ (Text.mem_of_mem_trim hc)))

/-- The imports of a clause are plain when their specs are. -/
theorem plainImport_of_usedImports? {specs : List String} (hspecs : ∀ s ∈ specs, PlainSpec s)
    {body : List Char} {used js : List Import} {i : Import}
    (h : (ofSource .go body).usedImports? used (specs.map Import.ofSpec) = some js)
    (hi : i ∈ js) : PlainImport i := by
  obtain ⟨hmem, huse⟩ := mem_usedImports? h hi
  obtain ⟨spec, hspec, rfl⟩ := List.mem_map.1 hmem
  obtain ⟨halias, hpath⟩ := Import.mem_ofSpec spec
  have hchars {c : Char} (hc : c ∈ spec.toList) : isSpecChar c = true :=
    List.all_eq_true.1 (hspecs spec hspec).chars c hc
  refine ⟨fun a ha => ?_, fun a ha c hc => (halias a ha c hc).2, (hspecs spec hspec).alias_func, ?_⟩
  · have hquotes : ∀ c ∈ a.toList, c ≠ '"' ∧ c ≠ '`' ∧ c ≠ '\'' := by
      intro c hc
      have := hchars (halias a ha c hc).1
      unfold isSpecChar at this
      simp only [Bool.and_eq_true, bne_iff_ne] at this
      exact ⟨this.1.1.1, this.1.2, this.1.1.2⟩
    have hname : (Import.ofSpec spec).name = a := by
      unfold Import.name
      rw [ha]
      rfl
    unfold usesImport? Import.isAlwaysUsed at huse
    rw [hname] at huse
    split at huse
    · rename_i halways
      rw [Bool.or_eq_true, beq_iff_eq, beq_iff_eq] at halways
      rcases halways with rfl | rfl <;> decide
    · exact isBare_of_selects huse hquotes
  · refine List.all_eq_true.2 fun c hc => ?_
    have := hchars (hpath c hc)
    unfold isSpecChar at this
    unfold isUnquoted
    simp only [Bool.and_eq_true, bne_iff_ne] at this ⊢
    exact ⟨this.1.1.1, this.2⟩

/-- What stands before the path on the line of an import. -/
def Import.lead (i : Import) : List Char :=
  match i.alias? with
  | some name => name.toList ++ [' ']
  | none => []

theorem Import.toList_line (i : Import) : i.line.toList = i.lead ++ quoted i.path.toList := by
  unfold line lead quoted
  cases i.alias? <;> simp [String.toList_append]

namespace PlainImport

variable {i : Import}

/-- The alias of a plain import reaches neither over its end nor over its line. -/
theorem lead (h : PlainImport i) : isBare i.lead = true ∧ i.lead.getLast? ≠ some '/' ∧
    '\n'.toUInt8 ∉ Text.bytes i.lead := by
  unfold Import.lead
  cases halias : i.alias? with
  | none => exact ⟨rfl, by decide, List.not_mem_nil⟩
  | some a =>
    refine ⟨isBare_append (h.alias_bare a halias) (by decide) fun _ =>
      detached_cons (by decide) (by decide) [], ?_, fun hmem => ?_⟩
    · rw [List.getLast?_append_of_ne_nil _ (List.cons_ne_nil _ _)]
      decide
    · obtain ⟨c, hc, hsize, hbyte⟩ := Text.exists_of_mem_bytes hmem (by decide)
      rcases List.mem_append.1 hc with hc | hc
      · have hblank := h.alias_not_blank a halias c hc
        rw [Text.eq_of_toUInt8_eq hsize (show '\n'.utf8Size = 1 by decide) hbyte] at hblank
        exact absurd hblank (by decide)
      · rw [List.mem_singleton.1 hc] at hbyte
        exact absurd hbyte (by decide)

/-- Neither the alias nor the path begins a function. -/
theorem beginsFunction_lead (h : PlainImport i) (rest : List Char) :
    beginsFunction (i.lead ++ '"' :: rest) = false := by
  have hquote : beginsFunction ('"' :: rest) = false := rfl
  unfold Import.lead
  cases halias : i.alias? with
  | none => exact hquote
  | some a =>
    simp only
    rw [List.append_assoc]
    cases hchars : a.toList with
    | nil => exact hquote
    | cons c cs =>
      rw [← hchars]
      refine beginsFunction_append_space (h.alias_not_blank a halias) (h.alias_func a halias) ?_ _
      rw [hchars]
      exact List.cons_ne_nil c cs

end PlainImport

/-- The line of an import holds no function, whether blanks stand before it or the keyword of its
clause. -/
theorem inert_import {i : Import} (h : PlainImport i) {first : List Char} (hplain : Plain first)
    (hline : '\n'.toUInt8 ∉ Text.bytes first)
    (hfunc : Text.allBlank first = true ∨ ∀ rest, beginsFunction (first ++ rest) = false) :
    Inert (first ++ i.line.toList ++ ['\n']) := by
  obtain ⟨hbare, hslash, hlead⟩ := h.lead
  rw [Import.toList_line, ← List.append_assoc]
  refine inert_line (isBare_append hplain.isBare hbare fun hs => absurd hs hplain.solid.no_slash)
    ?_ ?_ (solid_quoted h.path) ?_ fun rest => ?_
  · cases hnil : i.lead with
    | nil =>
      rw [List.append_nil]
      exact hplain.solid.no_slash
    | cons c cs =>
      rw [List.getLast?_append_of_ne_nil _ (List.cons_ne_nil c cs), ← hnil]
      exact hslash
  · rw [Text.bytes_append, List.mem_append, not_or]
    exact ⟨hline, hlead⟩
  · rw [mask_quoted h.path]
    intro hmem
    rcases List.mem_cons.1 hmem with heq | hmem
    · exact absurd heq (by decide)
    · rcases List.mem_append.1 hmem with hmem | hmem
      · rcases eq_of_mem_blanks hmem with heq | heq <;> exact absurd heq (by decide)
      · exact absurd hmem (by decide)
  · rw [mask_quoted h.path, List.append_assoc]
    rcases hfunc with hblank | hfunc
    · rw [beginsFunction_append_of_allBlank hblank]
      exact h.beginsFunction_lead _
    · exact hfunc _

/-- A line of bare characters that does not begin with the keyword holds no function. -/
theorem inert_bare {line : List Char} (hbare : line.all isBareChar = true)
    (hline : '\n'.toUInt8 ∉ Text.bytes line)
    (hfunc : ∀ rest, beginsFunction (line ++ rest) = false) : Inert (line ++ ['\n']) := by
  have hslash : line.getLast? ≠ some '/' := fun hlast =>
    absurd (List.all_eq_true.1 hbare _ (List.mem_of_getLast? hlast)) (by decide)
  have := inert_line (isBare_of_all hbare) hslash hline hidden_nil.toSolid
    (fun h => absurd h List.not_mem_nil) hfunc
  rwa [List.append_nil] at this

theorem inert_newline : Inert ['\n'] :=
  @inert_of_hidden [] hidden_newline

/-! ## The head of a file -/

theorem inert_imports {is : List Import} (h : ∀ i ∈ is, PlainImport i) :
    Inert (is.flatMap fun i => '\t' :: i.line.toList ++ ['\n']) := by
  induction is with
  | nil => exact inert_nil
  | cons i is ih =>
    have hfirst : Inert (['\t'] ++ i.line.toList ++ ['\n']) :=
      inert_import (h i List.mem_cons_self) (by unfold Plain; decide) (by decide) (.inl (by decide))
    rw [List.flatMap_cons]
    exact hfirst.append (ih fun j hj => h j (List.mem_cons_of_mem i hj))

/-- An import clause holds no function. -/
theorem inert_importClause {is : List Import} (h : ∀ i ∈ is, PlainImport i) :
    Inert (importClause is).toList := by
  match is, h with
  | [], _ => exact inert_nil
  | [i], h =>
    have hline : Inert ("import ".toList ++ i.line.toList ++ ['\n']) :=
      inert_import (h i List.mem_cons_self) (by unfold Plain; decide) (by decide)
        (.inr fun rest => rfl)
    have htext : (importClause [i]).toList =
        "import ".toList ++ i.line.toList ++ ['\n'] ++ ['\n'] := by
      simp [importClause, String.toList_append]
    rw [htext]
    exact hline.append inert_newline
  | i :: j :: is, h =>
    have hopen : Inert ("import (".toList ++ ['\n']) :=
      inert_bare (by decide) (by decide) fun rest => rfl
    have hclose : Inert ([')'] ++ ['\n']) := inert_bare (by decide) (by decide) fun rest => rfl
    have htext : (importClause (i :: j :: is)).toList = "import (".toList ++ ['\n'] ++
        ((i :: j :: is).flatMap fun i => '\t' :: i.line.toList ++ ['\n']) ++
        ([')'] ++ ['\n']) ++ ['\n'] := by
      simp [importClause, String.toList_append, List.flatMap_map]
    rw [htext]
    exact ((hopen.append (inert_imports h)).append hclose).append inert_newline

/-- A head is that of its package with the clause of the imports that the body uses. -/
theorem exists_usedImports?_of_headerText? {package : String} {specs : List String}
    {body header : String} (h : headerText? package specs body = some header) :
    ∃ used, (ofSource .go body.toList).usedImports? [] (specs.map Import.ofSpec) = some used ∧
      header = banner ++ "\n\npackage " ++ package ++ "\n\n" ++ importClause used := by
  obtain ⟨used, hused, heq⟩ := Option.map_eq_some_iff.1 h
  exact ⟨used, hused, heq.symm⟩

/-- The head of a file holds no function when its specs are plain. -/
theorem inert_headerText? {package : String} {specs : List String} (hpackage : IsName package.toList)
    (hspecs : ∀ s ∈ specs, PlainSpec s) {body header : String}
    (h : headerText? package specs body = some header) : Inert header.toList := by
  obtain ⟨used, hused, rfl⟩ := exists_usedImports?_of_headerText? h
  have hbanner : Inert (banner.toList ++ ['\n']) :=
    inert_of_hidden (hidden_comment (by decide) (by decide))
  have hpackageLine : Inert ("package ".toList ++ package.toList ++ ['\n']) := by
    have hplain : Plain ("package ".toList ++ package.toList) :=
      (show Plain "package ".toList by unfold Plain; decide).append hpackage.plain
    refine inert_bare hplain.all_isBareChar ?_ fun rest => rfl
    rw [Text.bytes_append, List.mem_append, not_or]
    exact ⟨by decide, hpackage.not_mem_bytes (by decide)⟩
  have himports : Inert (importClause used).toList :=
    inert_importClause fun i hi => plainImport_of_usedImports? hspecs hused hi
  have htext : (banner ++ "\n\npackage " ++ package ++ "\n\n" ++ importClause used).toList =
      banner.toList ++ ['\n'] ++ ['\n'] ++
      ("package ".toList ++ package.toList ++ ['\n']) ++ ['\n'] ++ (importClause used).toList := by
    simp [String.toList_append]
  rw [htext]
  exact (((hbanner.append inert_newline).append hpackageLine).append inert_newline).append himports

end Go

end RpcBindings
