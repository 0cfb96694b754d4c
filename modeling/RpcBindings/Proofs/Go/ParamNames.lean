import Mathlib.Data.List.TakeWhile
import RpcBindings.Proofs.Go.ImportLine
import RpcBindings.Proofs.Go.LegalName

/-!
The names that a list of parameters declares.

A list between commas declares names when in one of its entries a name is followed by a type; then all
entries begin with their names, and several may share one type. Otherwise its entries are types, a
qualified one or one with type arguments too. Main statement: of a list that is written as names and
types, these names are read (`ListText.paramNames_eq`).
-/

namespace RpcBindings.Go

open Masked

/-! ## Reading a list -/

/-- The name that code begins with, and the code behind it. -/
def leadingName (code : List Char) : List Char × List Char :=
  let code := Text.trimStart code
  (code.takeWhile isNameChar, Text.trimStart (code.dropWhile isNameChar))

/-- A text of characters of names can be declared: it is there, begins with no digit, and is not
reserved. -/
def isDeclarable (name : List Char) : Bool :=
  name.head?.any (fun c => !c.isDigit) && !keywords.contains (.ofList name)

/-- What follows the bracket that closes the last of some open ones. -/
def behindBrackets : Nat → List Char → List Char
  | _, [] => []
  | depth, c :: cs =>
    if c = '[' then behindBrackets (depth + 1) cs
    else if c = ']' then if depth ≤ 1 then cs else behindBrackets (depth - 1) cs
    else behindBrackets depth cs

/-- Code behind a name is a type, and does not make one of the name, as a selector or type arguments
would. -/
def isTypeBehind : List Char → Bool
  | [] => false
  | '.' :: cs => cs.head? == some '.'
  | '[' :: cs => !Text.allBlank (behindBrackets 1 cs)
  | _ => true

/-- In an entry a name is followed by its type. -/
def declaresName (code : List Char) : Bool :=
  isDeclarable (leadingName code).1 && isTypeBehind (leadingName code).2

/-- The names that the entries of a list declare. -/
def declaredNames (entries : List (List Char)) : List String :=
  if entries.any declaresName then entries.map fun code => .ofList (leadingName code).1 else []

/-- The entries of the list between two parentheses. -/
def listEntries (list : List Char) : List (List Char) :=
  let m := ofSource .go list
  (m.splitTopLevel 0 (Text.byteLength list) ',').map m.spanText

/-- The names that are declared between two parentheses. -/
def paramNames (list : List Char) : List String :=
  declaredNames ((listEntries list).map (mask .go))

/-! ## Lists that are written down -/

/-- A parameter as it is written: its name behind blanks, and its type, unless the next one has it. -/
structure ParamText where
  lead : List Char
  name : String
  type? : Option String

namespace ParamText

def text (p : ParamText) : List Char :=
  p.lead ++ (p.name.toList ++ match p.type? with
    | none => []
    | some type => ' ' :: type.toList)

/-- The parts of a parameter are what they should be. -/
structure Wf (p : ParamText) : Prop where
  lead : Plain p.lead ∧ Text.allBlank p.lead = true
  name : IsLegal p.name
  type : ∀ type, p.type? = some type →
    PlainType type.toList ∧ isTypeBehind (Text.trimStart type.toList) = true

end ParamText

/-- A list is written as parameters with commas between them, the last one with its type. -/
structure ListText (list : List Char) (ps : List ParamText) : Prop where
  params : ∀ p ∈ ps, p.Wf
  last : ∃ p, ps.getLast? = some p ∧ p.type?.isSome = true
  eq : list = [','].intercalate (ps.map ParamText.text)

section Written

variable {p : ParamText} {list : List Char} {ps : List ParamText}

/-- A letter is no digit. -/
theorem isDigit_of_isLetter {c : Char} (h : isLetter c = true) : c.isDigit = false := by
  unfold isLetter Char.isAlpha Char.isUpper Char.isLower at h
  unfold Char.isDigit
  simp only [Bool.or_eq_true, Bool.and_eq_true, decide_eq_true_eq, beq_iff_eq, ge_iff_le,
    UInt32.le_iff_toNat_le] at h
  have hA : 'A'.val.toNat = 65 := rfl
  have ha : 'a'.val.toNat = 97 := rfl
  have hnine : '9'.val.toNat = 57 := rfl
  refine Bool.eq_false_iff.2 fun hdigit => ?_
  simp only [Bool.and_eq_true, decide_eq_true_eq, ge_iff_le, UInt32.le_iff_toNat_le] at hdigit
  rcases h with (h | h) | rfl
  · omega
  · omega
  · exact absurd hdigit (by decide)

theorem isDeclarable_of_isLegal {name : String} (h : IsLegal name) :
    isDeclarable name.toList = true := by
  obtain ⟨c, cs, hname, hc, -⟩ := exists_cons_of_isName (isName_toList h.isIdentifier)
  have hkeyword : keywords.contains name = false := by
    simpa using h.not_keyword
  unfold isDeclarable
  rw [String.ofList_toList, hkeyword, hname, List.head?_cons, Option.any_some,
    isDigit_of_isLetter hc]
  rfl

/-- Behind a name that blanks precede the code of the type is read. -/
theorem leadingName_text (h : p.Wf) :
    leadingName p.text = (p.name.toList, Text.trimStart ((p.type?.map String.toList).getD [])) := by
  obtain ⟨c, cs, hname, hc, hcs⟩ := exists_cons_of_isName (isName_toList h.name.isIdentifier)
  have hblank : Text.isBlank c = false :=
    (isName_toList h.name.isIdentifier).not_isBlank c (hname ▸ List.mem_cons_self)
  have hchars : ∀ d ∈ p.name.toList, isNameChar d = true := by
    intro d hd
    unfold isNameChar
    rw [isLetterOrDigit_of_mem (isName_toList h.name.isIdentifier) hd, Bool.true_or]
  have hstart (rest : List Char) :
      Text.trimStart (p.lead ++ (p.name.toList ++ rest)) = p.name.toList ++ rest := by
    rw [hname]
    exact Text.trimStart_append h.lead.2 hblank _
  unfold leadingName ParamText.text
  extract_lets code
  have hcode : code = _ := hstart _
  rw [hcode]
  cases p.type? with
  | none =>
    rw [List.append_nil, List.takeWhile_eq_self_iff.2 hchars, List.dropWhile_eq_nil_iff.2 hchars]
    rfl
  | some type =>
    have hspace : isNameChar ' ' = false := by decide
    rw [List.takeWhile_append_of_pos hchars, List.dropWhile_append_of_pos hchars,
      List.takeWhile_cons_of_neg (by simp [hspace]), List.dropWhile_cons_of_neg (by simp [hspace]),
      List.append_nil]
    show (_, Text.trimStart (' ' :: type.toList)) = (_, Text.trimStart type.toList)
    rw [show Text.trimStart (' ' :: type.toList) = Text.trimStart type.toList from
      List.dropWhile_cons_of_pos Text.isBlank_space]

/-- A parameter is code, and no comma separates anything in it. -/
theorem lacks_text (h : p.Wf) : Lacks ',' p.text ∧ mask .go p.text = p.text := by
  have hname := isName_toList h.name.isIdentifier
  have hlead : Lacks ',' p.lead := by
    refine h.lead.1.lacks fun hmem => ?_
    obtain ⟨c, hc, hsize, hbyte⟩ := Text.exists_of_mem_bytes hmem (by decide)
    obtain rfl := Text.eq_of_toUInt8_eq hsize (by decide) hbyte
    exact absurd (List.all_eq_true.1 h.lead.2 ',' hc) (by decide)
  have hword : Lacks ',' p.name.toList := hname.plain.lacks (hname.not_mem_bytes (by decide))
  have hstart := hlead.append hword fun hslash => absurd hslash h.lead.1.solid.no_slash
  have hsolid := (h.lead.1.append hname.plain).solid
  unfold ParamText.text
  rw [← List.append_assoc]
  cases htype : p.type? with
  | none =>
    rw [List.append_nil]
    exact ⟨hstart, (h.lead.1.append hname.plain).mask_eq⟩
  | some type =>
    have hplain := (h.type type htype).1
    have hspace : Plain [' '] := by unfold Plain; decide
    have hbehind : Lacks ',' ([' '] ++ type.toList) :=
      (hspace.lacks (by decide)).append hplain.lacks fun hslash =>
        absurd hslash hspace.solid.no_slash
    refine ⟨hstart.append hbehind fun hslash => absurd hslash hsolid.no_slash, ?_⟩
    show mask .go (p.lead ++ p.name.toList ++ ([' '] ++ type.toList)) = _
    rw [hsolid.mask_append, (h.lead.1.append hname.plain).mask_eq, hspace.solid.mask_append,
      hspace.mask_eq, mask_of_isBare hplain.bare]
    rfl

theorem declaresName_text (h : p.Wf) {type : String} (htype : p.type? = some type) :
    declaresName p.text = true := by
  unfold declaresName
  rw [leadingName_text h, htype, isDeclarable_of_isLegal h.name]
  exact (h.type type htype).2

theorem allBlank_text (h : p.Wf) : Text.allBlank p.text = false := by
  obtain ⟨c, cs, hname, -⟩ := exists_cons_of_isName (isName_toList h.name.isIdentifier)
  have hc := (isName_toList h.name.isIdentifier).not_isBlank c (hname ▸ List.mem_cons_self)
  refine Bool.eq_false_iff.2 fun hall => ?_
  have hblank := List.all_eq_true.1 hall c (by unfold ParamText.text; simp [hname])
  rw [hc] at hblank
  exact Bool.false_ne_true hblank

/-- Of a list that is written as parameters the names of these are read. -/
theorem ListText.paramNames_eq (hlist : ListText list ps) : paramNames list = ps.map (·.name) := by
  obtain ⟨h, ⟨last, hlast, hsome⟩, rfl⟩ := hlist
  obtain ⟨type, htype⟩ := Option.isSome_iff_exists.1 hsome
  obtain ⟨first, others, rfl⟩ : ∃ first others, ps = first :: others :=
    List.exists_cons_of_ne_nil fun hnil => by simp [hnil] at hlast
  have hmem : last ∈ first :: others := List.mem_of_getLast? hlast
  have hlacks : ∀ t ∈ (first :: others).map ParamText.text, Lacks ',' t := by
    intro t ht
    obtain ⟨p, hp, rfl⟩ := List.mem_map.1 ht
    exact (lacks_text (h p hp)).1
  have hend : ((first :: others).map ParamText.text).getLast (List.cons_ne_nil _ _) = last.text := by
    refine Option.some.inj ?_
    rw [← List.getLast?_eq_some_getLast, List.getLast?_map, hlast]
    rfl
  have hshows : Text.allBlank
      (mask .go (((first :: others).map ParamText.text).getLast (List.cons_ne_nil _ _))) = false := by
    rw [hend, (lacks_text (h last hmem)).2]
    exact allBlank_text (h last hmem)
  have hstart := TextFrom.start ([','].intercalate ((first :: others).map ParamText.text))
  rw [← List.append_nil ([','].intercalate _)] at hstart
  have hpieces := hstart.splitTopLevel_intercalate hlacks ⟨by simp, by simp⟩ hshows
  rw [List.append_nil, Nat.zero_add] at hpieces
  have hentries : listEntries ([','].intercalate ((first :: others).map ParamText.text)) =
      (first :: others).map ParamText.text := hpieces
  have hmask : ((first :: others).map ParamText.text).map (mask .go) =
      (first :: others).map ParamText.text := by
    rw [List.map_map]
    exact List.map_congr_left fun p hp => (lacks_text (h p hp)).2
  unfold paramNames declaredNames
  rw [hentries, hmask, if_pos, List.map_map]
  · refine List.map_congr_left fun p hp => ?_
    show String.ofList (leadingName p.text).1 = p.name
    rw [leadingName_text (h p hp), String.ofList_toList]
  · refine List.any_eq_true.2 ⟨last.text, List.mem_map_of_mem hmem, ?_⟩
    exact declaresName_text (h last hmem) htype

/-- Two names that share a type. -/
example : ListText "a, b []int".toList [⟨[], "a", none⟩, ⟨[' '], "b", some "[]int"⟩] := by
  refine ⟨fun p hp => ?_, ⟨_, rfl, rfl⟩, by decide⟩
  rcases List.mem_pair.1 hp with rfl | rfl
  · exact ⟨⟨by unfold Plain; decide, rfl⟩, by decide +kernel, nofun⟩
  · refine ⟨⟨by unfold Plain; decide, rfl⟩, by decide +kernel, ?_⟩
    rintro _ ⟨⟩
    decide +kernel

/-- Names on several lines that share a type, a comment, and a function that is variadic. -/
example : paramNames "\n\ta, /* first, */ b [2]int,\n\tfs ...func(x, y int) T,\n".toList =
    ["a", "b", "fs"] := by decide +kernel

end Written

end RpcBindings.Go
