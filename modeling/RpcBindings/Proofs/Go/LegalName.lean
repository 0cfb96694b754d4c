import RpcBindings.Go.Struct
import RpcBindings.Proofs.CamelCase
import RpcBindings.Proofs.Go.Stub
import RpcBindings.Proofs.Schema.SourceName

/-!
Which names of a schema give legal names in Go.

Camel case takes the underscores off the front of a name, so a digit behind them comes first, and
of underscores alone nothing is left. Every other identifier gives a legal name: as a parameter it
is no reserved word, and as a field or function it begins with an upper-case letter. Main statement:
of an ASCII schema the fields, functions and parameters that have illegal names are those without a
letter behind their underscores (`legal_names_iff`).
-/

namespace RpcBindings.Go

open Casing

/-- A name that can be declared. -/
structure IsLegal (name : String) : Prop where
  isIdentifier : isIdentifier name = true
  not_keyword : name ∉ keywords

/-- A name that can be declared and is seen from outside of its package. -/
structure IsExported (name : String) : Prop extends IsLegal name where
  isUpper_head : name.toList.head?.any Char.isUpper = true

/-- The first character of the name that is no separator is a letter. -/
def BeginsWithLetter (name : String) : Prop :=
  (name.toList.find? fun c => !isSeparator c).any Char.isAlpha = true

instance (name : String) : Decidable (IsLegal name) :=
  decidable_of_iff (isIdentifier name = true ∧ name ∉ keywords)
    ⟨fun ⟨h, hk⟩ => ⟨h, hk⟩, fun ⟨h, hk⟩ => ⟨h, hk⟩⟩

instance (name : String) : Decidable (IsExported name) :=
  decidable_of_iff (IsLegal name ∧ name.toList.head?.any Char.isUpper = true)
    ⟨fun ⟨h, hu⟩ => ⟨h, hu⟩, fun ⟨h, hu⟩ => ⟨h, hu⟩⟩

instance (name : String) : Decidable (BeginsWithLetter name) :=
  inferInstanceAs (Decidable (_ = true))

variable {name receiver : String} {cs : List Char}

/-! ## Identifiers -/

/-- Letters and digits are an identifier when a letter comes first. -/
theorem isIdentifier_iff_of_alphanum (h : ∀ c ∈ name.toList, c.isAlphanum = true) :
    isIdentifier name = true ↔ name.toList.head?.any Char.isAlpha = true := by
  unfold isIdentifier
  cases hname : name.toList with
  | nil => exact Iff.rfl
  | cons c cs =>
    rw [hname] at h
    have hcs : cs.all isLetterOrDigit = true := List.all_eq_true.2 fun d hd => by
      unfold isLetterOrDigit
      rw [h d (List.mem_cons_of_mem c hd), Bool.true_or]
    have hc : (c == '_') = false := by
      refine Bool.eq_false_iff.2 fun hc => ?_
      obtain rfl := beq_iff_eq.1 hc
      exact absurd (h '_' List.mem_cons_self) (by decide)
    show (isLetter c && cs.all isLetterOrDigit) = true ↔ c.isAlpha = true
    rw [hcs, Bool.and_true, isLetter, hc, Bool.or_false]

theorem isAlphanum_of_isLetterOrDigit {c : Char} (h : isLetterOrDigit c = true)
    (hc : c ≠ '_') : c.isAlphanum = true := by
  unfold isLetterOrDigit at h
  rwa [beq_eq_false_iff_ne.2 hc, Bool.or_false] at h

theorem isLetterOrDigit_of_mem (h : IsName cs) {c : Char} (hc : c ∈ cs) :
    isLetterOrDigit c = true := by
  obtain ⟨d, ds, rfl, hd, hds⟩ := exists_cons_of_isName h
  rcases List.mem_cons.1 hc with rfl | hc
  · exact isLetterOrDigit_of_isLetter hd
  · exact List.all_eq_true.1 hds c hc

/-- In camel case an identifier is made of letters and digits. -/
theorem isAlphanum_of_mem_joinWords (h : IsName cs) {raised : Bool} :
    ∀ c ∈ joinWords raised cs, c.isAlphanum = true := by
  refine forall_mem_joinWords fun c hc hsep => ?_
  have hne : c ≠ '_' := by
    rintro rfl
    exact absurd hsep (by decide)
  have halphanum := isAlphanum_of_isLetterOrDigit (isLetterOrDigit_of_mem h hc) hne
  exact ⟨halphanum, isAlphanum_toUpper halphanum⟩

theorem trim_toList_of_isIdentifier (h : isIdentifier name = true) :
    Text.trim name.toList = name.toList :=
  Text.trim_of_not_isBlank (isName_toList h).not_isBlank

/-- In camel case an identifier begins with a letter iff a letter follows its underscores. -/
theorem isAlpha_head?_camel_iff (h : isIdentifier name = true) (raised : Bool) :
    (joinWords raised (Text.trim name.toList)).head?.any Char.isAlpha = true ↔
      BeginsWithLetter name := by
  rw [trim_toList_of_isIdentifier h, isAlpha_head?_joinWords]
  exact Iff.rfl

/-! ## Parameters -/

theorem isIdentifier_lowerCamel_iff (h : isIdentifier name = true) :
    isIdentifier (lowerCamel name) = true ↔ BeginsWithLetter name := by
  rw [isIdentifier_iff_of_alphanum, toList_lowerCamel, isAlpha_head?_camel_iff h]
  rw [toList_lowerCamel, trim_toList_of_isIdentifier h]
  exact isAlphanum_of_mem_joinWords (isName_toList h)

/-- An underscore at the end of a text leaves it as much of an identifier as before. -/
theorem isIdentifier_append_underscore (h : isIdentifier name = true) :
    isIdentifier (name ++ "_") = true := by
  obtain ⟨c, cs, hname, hc, hcs⟩ := exists_cons_of_isName (isName_toList h)
  have hlast : (name ++ "_").toList = c :: (cs ++ ['_']) := by
    rw [String.toList_append, hname]
    rfl
  unfold isIdentifier
  rw [hlast]
  refine Bool.and_eq_true_iff.2 ⟨hc, ?_⟩
  rw [List.all_append, hcs]
  rfl

theorem append_underscore_not_keyword (name : String) : name ++ "_" ∉ keywords := by
  intro hmem
  have hkeywords : ∀ k ∈ keywords, '_' ∉ k.toList := by decide +kernel
  refine hkeywords _ hmem ?_
  rw [String.toList_append]
  exact List.mem_append_right _ (by decide)

theorem paramName_not_keyword (name : String) : paramName name ∉ keywords := by
  unfold paramName
  extract_lets camel
  split
  · exact append_underscore_not_keyword camel
  · rename_i hkeyword
    rwa [List.contains_iff_mem] at hkeyword

/-- An identifier gives a legal parameter name iff a letter follows its underscores. -/
theorem isLegal_paramName_iff (h : isIdentifier name = true) :
    IsLegal (paramName name) ↔ BeginsWithLetter name := by
  rw [← isIdentifier_lowerCamel_iff h]
  have hparam : paramName name = lowerCamel name ∨
      (paramName name = lowerCamel name ++ "_" ∧ lowerCamel name ∈ keywords) := by
    unfold paramName
    extract_lets camel
    split
    · rename_i hkeyword
      exact .inr ⟨rfl, List.contains_iff_mem.1 hkeyword⟩
    · exact .inl rfl
  have hlegal : IsLegal (paramName name) ↔ isIdentifier (paramName name) = true :=
    ⟨(·.isIdentifier), fun h => ⟨h, paramName_not_keyword name⟩⟩
  rw [hlegal]
  rcases hparam with hparam | ⟨hparam, hkeyword⟩
  · rw [hparam]
  · have hkeywords : ∀ k ∈ keywords, isIdentifier k = true := by decide +kernel
    rw [hparam]
    exact iff_of_true (isIdentifier_append_underscore (hkeywords _ hkeyword))
      (hkeywords _ hkeyword)

/-- What keeps a parameter from hiding the receiver or the error keeps its name legal. -/
theorem isLegal_stubParamName_iff (h : isIdentifier name = true)
    (hreceiver : isIdentifier receiver = true) :
    IsLegal (stubParamName receiver name) ↔ BeginsWithLetter name := by
  rw [← isLegal_paramName_iff h]
  unfold stubParamName
  extract_lets param
  split
  · rename_i hhides
    have hparam : isIdentifier param = true := by
      rw [Bool.or_eq_true, decide_eq_true_eq, decide_eq_true_eq] at hhides
      rcases hhides with herr | hself
      · rw [herr]
        decide +kernel
      · rwa [hself]
    exact iff_of_true ⟨isIdentifier_append_underscore hparam, append_underscore_not_keyword _⟩
      ⟨hparam, paramName_not_keyword name⟩
  · exact Iff.rfl

/-! ## Fields and functions -/

/-- What begins with an upper-case letter is no reserved word. -/
theorem not_keyword_of_isUpper_head (h : name.toList.head?.any Char.isUpper = true) :
    name ∉ keywords := by
  intro hmem
  have hkeywords : ∀ k ∈ keywords, k.toList.head?.any Char.isUpper = false := by decide +kernel
  rw [hkeywords name hmem] at h
  exact Bool.false_ne_true h

theorem isAlpha_head?_of_isUpper (h : cs.head?.any Char.isUpper = true) :
    cs.head?.any Char.isAlpha = true := by
  cases cs with
  | nil => exact h
  | cons c cs =>
    have hc : c.isUpper = true := h
    show (c.isUpper || c.isLower) = true
    rw [hc, Bool.true_or]

/-- Letters and digits are an exported name when an upper-case letter comes first. -/
theorem isExported_iff_of_alphanum (h : ∀ c ∈ name.toList, c.isAlphanum = true) :
    IsExported name ↔ name.toList.head?.any Char.isUpper = true := by
  refine ⟨(·.isUpper_head), fun hupper => ⟨⟨?_, not_keyword_of_isUpper_head hupper⟩, hupper⟩⟩
  exact (isIdentifier_iff_of_alphanum h).2 (isAlpha_head?_of_isUpper hupper)

theorem isAlphanum_of_mem_upperCamel (h : isIdentifier name = true) :
    ∀ c ∈ (upperCamel name).toList, c.isAlphanum = true := by
  rw [toList_upperCamel, trim_toList_of_isIdentifier h]
  exact isAlphanum_of_mem_joinWords (isName_toList h)

/-- An identifier gives an exported name iff a letter follows its underscores. -/
theorem isExported_upperCamel_iff (h : isIdentifier name = true) :
    IsExported (upperCamel name) ↔ BeginsWithLetter name := by
  rw [isExported_iff_of_alphanum (isAlphanum_of_mem_upperCamel h), ← isAlpha_head?_camel_iff h true,
    toList_upperCamel, isUpper_head?_joinWords]

/-- Without its namespace a function's name is exported, whatever it began with. -/
theorem isExported_strip_iff (h : isIdentifier name = true) (nspace : String) :
    IsExported (Namespace.strip (upperCamel name) nspace) ↔
      BeginsWithLetter name ∨ Namespace.strip (upperCamel name) nspace ≠ upperCamel name := by
  by_cases hstrip : Namespace.strip (upperCamel name) nspace = upperCamel name
  · rw [hstrip, isExported_upperCamel_iff h]
    exact (or_iff_left (not_not_intro rfl)).symm
  · refine iff_of_true ?_ (.inr hstrip)
    obtain ⟨rest, hns, hword, hname⟩ := Namespace.exists_of_strip_ne hstrip
    have halphanum := isAlphanum_of_mem_upperCamel h
    rw [hname] at halphanum
    rw [Namespace.strip_of_append hns hname hword, isExported_iff_of_alphanum, String.toList_ofList]
    · cases rest with
      | nil => exact absurd hword (by decide)
      | cons c rest => exact hword
    · rw [String.toList_ofList]
      exact fun c hc => halphanum c (List.mem_append_right _ hc)

/-! ## Schemas -/

/-- Identifiers that begin with a letter behind their underscores give legal names, and no others
do: as parameters, as fields and, unless a namespace is taken off, as functions. In an ASCII schema
all names are identifiers, so which of its fields, functions and parameters have illegal names can
be seen from their names in the schema. -/
theorem legal_names_iff {s : Settings} (hs : s.fault? = none) (nspace? : Option String)
    {schema : String} (hascii : ∀ c ∈ schema.toList, c.toNat < 0x80) :
    (∀ name, isIdentifier name = true →
      (IsLegal (paramName name) ↔ BeginsWithLetter name) ∧
      (IsExported (upperCamel name) ↔ BeginsWithLetter name)) ∧
    (∀ r, .found r ∈ Record.readAll schema → ∀ f ∈ r.fields,
      (IsExported (FieldRow.ofField s.typeTable f).name ↔ BeginsWithLetter f.sourceName)) ∧
    ∀ i ∈ RpcInterface.readAll ⟨nspace?, s.client.resultWrappers⟩ schema,
      ∀ m, .found m ∈ i.members →
        (IsExported m.functionName ↔
          BeginsWithLetter m.sourceName ∨ m.functionName ≠ upperCamel m.sourceName) ∧
        List.Forall₂ (fun p q => IsLegal q.name ↔ BeginsWithLetter p.name) m.params
          (stubParams s.client s.typeTable m) := by
  refine ⟨fun name h => ⟨isLegal_paramName_iff h, isExported_upperCamel_iff h⟩, ?_, ?_⟩
  · intro r hr f hf
    have hspelled := Record.isSpelled_sourceName hr hf
    exact isExported_upperCamel_iff (hspelled.isIdentifier_of_ascii hascii)
  · intro i hi m hm
    have hnamed := RpcInterface.isNamedIn_of_found hi hm
    constructor
    · rw [hnamed.functionName]
      exact isExported_strip_iff (hnamed.sourceName.isIdentifier_of_ascii hascii) i.nspace
    · unfold stubParams
      refine List.forall₂_map_right_iff.2 (List.forall₂_same.2 fun p hp => ?_)
      dsimp only
      exact isLegal_stubParamName_iff ((hnamed.params p hp).isIdentifier_of_ascii hascii)
        (Settings.names_of_fault? hs).receiver

/-- A schema with names of which some begin with a digit behind their underscores. -/
def digitSchema : String :=
  "pub struct A \x7b pub _1: u8, pub _a: u8 \x7d\n" ++
    "trait T \x7b\n    #[rpc(name = \"a\")]\n    fn a(&self, _1: u8, type_: u8) -> u8;\n\x7d\n"

theorem readAll_digitSchema : Record.readAll digitSchema =
      [.found ⟨"A", [], [⟨"_1", .scalar "u8", [], none⟩, ⟨"_a", .scalar "u8", [], none⟩]⟩] ∧
    (RpcInterface.readAll ⟨none, ({} : Settings).client.resultWrappers⟩ digitSchema).map
        (fun i => (i.name, i.nspace, i.members)) =
      [("T", "T", [.found ⟨none, "a", "a", "A",
        [⟨"_1", .scalar "u8"⟩, ⟨"type_", .scalar "u8"⟩], .scalar "u8"⟩])] := by
  decide +kernel

/-- Of two fields and two parameters one each has a legal name. -/
theorem legal_names_digits :
    ({} : Settings).fault? = none ∧ (∀ c ∈ digitSchema.toList, c.toNat < 0x80) ∧
    isIdentifier "_1" = true ∧ ¬IsLegal (paramName "_1") ∧ IsExported (upperCamel "a") ∧
    ∃ r f i m, .found r ∈ Record.readAll digitSchema ∧ f ∈ r.fields ∧
      IsExported (FieldRow.ofField ({} : Settings).typeTable f).name ∧
      i ∈ RpcInterface.readAll ⟨none, ({} : Settings).client.resultWrappers⟩ digitSchema ∧
      .found m ∈ i.members ∧ IsExported m.functionName ∧
      List.Forall₂ (fun p q => IsLegal q.name ↔ BeginsWithLetter p.name) m.params
        (stubParams ({} : Settings).client ({} : Settings).typeTable m) := by
  have hs : ({} : Settings).fault? = none := by decide +kernel
  have hascii : ∀ c ∈ digitSchema.toList, c.toNat < 0x80 := by decide +kernel
  obtain ⟨hrecords, hinterfaces⟩ := readAll_digitSchema
  obtain ⟨i, hi, heq⟩ := List.mem_map.1 (hinterfaces ▸ List.mem_singleton_self _)
  have hm := List.mem_singleton_self (Outcome.found (⟨none, "a", "a", "A",
    [⟨"_1", .scalar "u8"⟩, ⟨"type_", .scalar "u8"⟩], .scalar "u8"⟩ : RpcMethod))
  rw [← (Prod.mk.inj (Prod.mk.inj heq).2).2] at hm
  have hr := List.mem_singleton_self (Outcome.found (⟨"A", [],
    [⟨"_1", .scalar "u8", [], none⟩, ⟨"_a", .scalar "u8", [], none⟩]⟩ : Record))
  rw [← hrecords] at hr
  have hlegal := legal_names_iff hs none hascii
  have hfield := hlegal.2.1 _ hr ⟨"_a", .scalar "u8", [], none⟩ (by decide)
  have hmethod := hlegal.2.2 i hi _ hm
  refine ⟨hs, hascii, by decide +kernel, ?_, ?_, _, _, i, _, hr, by decide, hfield.2 (by decide),
    hi, hm, hmethod.1.2 (.inl (by decide)), hmethod.2⟩
  · exact fun h => absurd ((hlegal.1 "_1" (by decide +kernel)).1.1 h) (by decide)
  · exact (hlegal.1 "a" (by decide +kernel)).2.2 (by decide)

/-- Underscores before a digit, and underscores alone, give no legal names. -/
theorem digitName_not_legal :
    isIdentifier "_1" = true ∧ paramName "_1" = "1" ∧ ¬IsLegal "1" ∧ upperCamel "_1" = "1" ∧
      ¬IsExported "1" ∧
    isIdentifier "__" = true ∧ paramName "__" = "" ∧ ¬IsLegal "" ∧ upperCamel "__" = "" ∧
      ¬IsExported "" := by
  decide +kernel

end RpcBindings.Go
