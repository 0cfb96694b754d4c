import Mathlib.Data.List.TakeWhile
import RpcBindings.Proofs.Go.TypeText
import RpcBindings.Settings.Fault

/-!
Go types without a name.

A mapping whose text is nothing but markers is refused, unless a blank stands between the markers:
the check strips markers off the text at once, while the text is read marker by marker and the
blanks before each are skipped. Main statement: `Settings.hasNames_iff`.
-/

namespace RpcBindings

namespace GoType

/-- Blanks and whole markers, and nothing else. -/
inductive OnlyMarkers : List Char → Prop
  | nil : OnlyMarkers []
  | blank {c : Char} {cs : List Char} (hc : Text.isBlank c = true) (h : OnlyMarkers cs) :
    OnlyMarkers (c :: cs)
  | star {cs : List Char} (h : OnlyMarkers cs) : OnlyMarkers ('*' :: cs)
  | brackets {cs : List Char} (h : OnlyMarkers cs) : OnlyMarkers ('[' :: ']' :: cs)

/-- What is read has no name under its markers exactly where there is nothing but markers. -/
theorem core_ofChars_eq_empty_iff (cs : List Char) : (ofChars cs).core = "" ↔ OnlyMarkers cs := by
  have hname (c : Char) (cs : List Char) : String.ofList (c :: cs) ≠ "" := fun h =>
    absurd (String.ofList_eq_empty_iff.1 h) (List.cons_ne_nil c cs)
  fun_induction ofChars cs
  case case1 => exact ⟨fun _ => .nil, fun _ => rfl⟩
  case case2 c rest hc ih =>
    refine ih.trans ⟨.blank hc, fun h => ?_⟩
    cases h with
    | blank _ h => exact h
    | star h => exact absurd hc (by decide)
    | brackets h => exact absurd hc (by decide)
  case case3 rest hc ih =>
    refine ih.trans ⟨.star, fun h => ?_⟩
    cases h with
    | blank hc' _ => exact absurd hc' hc
    | star h => exact h
  case case4 c hc hstar =>
    refine iff_of_false (hname c []) fun h => ?_
    cases h with
    | blank hc' _ => exact hc hc'
    | star _ => exact hstar rfl
  case case5 c hc hstar d rest hbrackets ih =>
    rw [Bool.and_eq_true, decide_eq_true_eq, decide_eq_true_eq] at hbrackets
    obtain ⟨rfl, rfl⟩ := hbrackets
    refine ih.trans ⟨.brackets, fun h => ?_⟩
    cases h with
    | blank hc' _ => exact absurd hc' hc
    | brackets h => exact h
  case case6 c hc hstar d rest hbrackets =>
    refine iff_of_false (hname c (d :: rest)) fun h => ?_
    cases h with
    | blank hc' _ => exact hc hc'
    | star _ => exact hstar rfl
    | brackets _ => exact hbrackets rfl

instance (cs : List Char) : Decidable (OnlyMarkers cs) :=
  decidable_of_iff _ (core_ofChars_eq_empty_iff cs)

theorem OnlyMarkers.of_append {a b : List Char} (h : OnlyMarkers (a ++ b))
    (hb : Text.allBlank b = true) : OnlyMarkers a := by
  generalize hcs : a ++ b = cs at h
  induction h generalizing a with
  | nil =>
    rw [(List.append_eq_nil_iff.1 hcs).1]
    exact .nil
  | blank hc h ih =>
    cases a with
    | nil => exact .nil
    | cons d a =>
      obtain ⟨rfl, hrest⟩ := List.cons.inj hcs
      exact .blank hc (ih hrest)
  | star h ih =>
    cases a with
    | nil => exact .nil
    | cons d a =>
      obtain ⟨rfl, hrest⟩ := List.cons.inj hcs
      exact .star (ih hrest)
  | brackets h ih =>
    match a, hcs with
    | [], _ => exact .nil
    | [d], hcs =>
      -- The blanks behind cannot begin with the second half of a marker.
      have hclose : b = ']' :: _ := (List.cons.inj hcs).2
      rw [hclose] at hb
      exact absurd hb nofun
    | d :: e :: a, hcs =>
      obtain ⟨hopen, hcs⟩ := List.cons.inj hcs
      obtain ⟨hclose, hcs⟩ := List.cons.inj hcs
      rw [hopen, hclose]
      exact .brackets (ih hcs)

theorem OnlyMarkers.append {a b : List Char} (h : OnlyMarkers a) (hb : OnlyMarkers b) :
    OnlyMarkers (a ++ b) := by
  induction h with
  | nil => exact hb
  | blank hc _ ih => exact .blank hc ih
  | star _ ih => exact .star ih
  | brackets _ ih => exact .brackets ih

theorem onlyMarkers_of_allBlank {b : List Char} (h : Text.allBlank b = true) : OnlyMarkers b := by
  induction b with
  | nil => exact .nil
  | cons c b ih =>
    rw [Text.allBlank, List.all_cons, Bool.and_eq_true] at h
    exact .blank h.1 (ih h.2)

theorem core_ofText_eq_empty_iff (text : String) :
    (ofText text).core = "" ↔ OnlyMarkers text.toList := by
  obtain ⟨tail, htext, htail⟩ := Text.exists_trimEnd text.toList
  refine (core_ofChars_eq_empty_iff _).trans ⟨fun h => ?_, fun h => ?_⟩
  · rw [htext]
    exact h.append (onlyMarkers_of_allBlank htail)
  · rw [htext] at h
    exact h.of_append htail

theorem OnlyMarkers.mem {cs : List Char} (h : OnlyMarkers cs) {c : Char} (hc : c ∈ cs) :
    Text.isBlank c = true ∨ Settings.isMarker c = true := by
  induction h with
  | nil => exact absurd hc List.not_mem_nil
  | blank hblank _ ih =>
    rcases List.mem_cons.1 hc with rfl | hc
    · exact .inl hblank
    · exact ih hc
  | star _ ih =>
    rcases List.mem_cons.1 hc with rfl | hc
    · exact .inr rfl
    · exact ih hc
  | brackets _ ih =>
    rcases List.mem_cons.1 hc with rfl | hc
    · exact .inr rfl
    · rcases List.mem_cons.1 hc with rfl | hc
      · exact .inr rfl
      · exact ih hc

/-- A text ends in the marker of a pointer or of a slice. -/
def EndsInMarker (text : String) : Prop :=
  ['*'] <:+ text.toList ∨ ['[', ']'] <:+ text.toList

instance (text : String) : Decidable (EndsInMarker text) :=
  inferInstanceAs (Decidable (['*'] <:+ text.toList ∨ ['[', ']'] <:+ text.toList))

/-- A marker before a text is not at the end of both. -/
theorem endsInMarker_append {marker text : String} (hmarker : marker = "*" ∨ marker = "[]")
    (htext : text ≠ "") : EndsInMarker (marker ++ text) ↔ EndsInMarker text := by
  unfold EndsInMarker
  rw [String.toList_append, ← List.reverse_prefix, ← List.reverse_prefix, ← List.reverse_prefix,
    ← List.reverse_prefix, List.reverse_append]
  cases hrev : text.toList.reverse with
  | nil =>
    rw [List.reverse_eq_nil_iff, String.toList_eq_nil_iff] at hrev
    exact absurd hrev htext
  | cons c cs =>
    cases cs with
    | nil => rcases hmarker with rfl | rfl <;> simp [List.cons_prefix_cons]
    | cons d cs => simp [List.cons_prefix_cons]

theorem core_indirect (t : GoType) : t.indirect.core = t.core := by
  unfold indirect
  split <;> rfl

theorem text_ne_empty {t : GoType} (h : t.core ≠ "") : t.text ≠ "" := by
  have hmarked (marker text : String) (hmarker : marker ≠ "") : marker ++ text ≠ "" := fun heq =>
    hmarker (String.append_eq_empty_iff.1 heq).1
  cases t with
  | named name => exact h
  | pointer elem => exact hmarked "*" elem.text (by decide)
  | slice elem => exact hmarked "[]" elem.text (by decide)

/-- A type with a name ends in a marker only where its name does. -/
theorem endsInMarker_text {t : GoType} (h : t.core ≠ "") :
    EndsInMarker t.text ↔ EndsInMarker t.core := by
  induction t with
  | named name => rfl
  | pointer elem ih =>
    have helem : elem.text ≠ "" := text_ne_empty h
    exact (endsInMarker_append (.inl rfl) helem).trans (ih h)
  | slice elem ih =>
    have helem : elem.text ≠ "" := text_ne_empty h
    exact (endsInMarker_append (.inr rfl) helem).trans (ih h)

end GoType

namespace Settings

/-- The text of a mapping is only blanks and markers, with a blank that has a marker on each side. -/
def SplitMarkers (text : String) : Prop :=
  GoType.OnlyMarkers text.toList ∧ ∃ c ∈ Text.trim text.toList, Text.isBlank c = true

instance (text : String) : Decidable (SplitMarkers text) :=
  inferInstanceAs (Decidable
    (GoType.OnlyMarkers text.toList ∧ ∃ c ∈ Text.trim text.toList, Text.isBlank c = true))

/-- A mapping is accepted when its name is not blank and something in its text is no marker. -/
theorem typeFault?_eq_none_iff {mapping : String × String} :
    typeFault? mapping = none ↔
      Text.allBlank mapping.1.toList = false ∧
        ∃ c ∈ Text.trim mapping.2.toList, isMarker c = false := by
  unfold typeFault?
  cases Text.allBlank mapping.1.toList with
  | true => simp
  | false => simp [List.isEmpty_iff, List.dropWhile_eq_nil_iff]

/-- Among the mappings that are accepted, markers with a blank between them are all that is read
without a name. -/
theorem core_eq_empty_iff_of_typeFault? {mapping : String × String}
    (h : typeFault? mapping = none) :
    (GoType.ofText mapping.2).core = "" ↔ SplitMarkers mapping.2 := by
  obtain ⟨-, c, hc, hmarker⟩ := typeFault?_eq_none_iff.1 h
  refine (GoType.core_ofText_eq_empty_iff mapping.2).trans ⟨fun honly => ⟨honly, c, hc, ?_⟩, And.left⟩
  rcases honly.mem (Text.mem_of_mem_trim hc) with hblank | hmarked
  · exact hblank
  · exact absurd (hmarked.symm.trans hmarker) nofun

theorem typeFault?_of_fault? {s : Settings} (h : s.fault? = none) {mapping : String × String}
    (hmem : mapping ∈ s.types) : typeFault? mapping = none := by
  unfold fault? at h
  simp only [Option.or_eq_none_iff] at h
  obtain ⟨-, -, -, htypes, -⟩ := h
  exact List.findSome?_eq_none_iff.1 htypes mapping hmem

end Settings

namespace TypeTable

theorem core_resolve (table : TypeTable) (e : SchemaType) :
    (table.resolve e).core = (table.resolve (.scalar e.scalarName)).core := by
  induction e with
  | scalar name => rfl
  | optional elem ih => exact (GoType.core_indirect _).trans ih
  | sequence elem ih => exact ih

theorem core_ne_empty_of_mem_standard :
    ∀ e ∈ standard.entries, e.2.core ≠ "" := by
  decide +kernel

end TypeTable

namespace Settings

/-- Every Go type of the settings has a name exactly when no mapping is markers with a blank between
them. Then every type with a name is resolved to one, and its text ends in a marker only where that
name does. -/
theorem hasNames_iff (s : Settings) (h : s.fault? = none)
    (hne : s.types.Pairwise fun a b => a.1 ≠ b.1) :
    ((∀ e ∈ s.typeTable.entries, e.2.core ≠ "") ↔ ∀ m ∈ s.types, ¬SplitMarkers m.2) ∧
      ((∀ m ∈ s.types, ¬SplitMarkers m.2) → ∀ e : SchemaType, e.scalarName ≠ "" →
        (s.typeTable.resolve e).core ≠ "" ∧
          (GoType.EndsInMarker (s.typeTable.resolve e).text ↔
            GoType.EndsInMarker (s.typeTable.resolve e).core)) := by
  have hentries : (∀ e ∈ s.typeTable.entries, e.2.core ≠ "") ↔
      ∀ m ∈ s.types, ¬SplitMarkers m.2 := by
    constructor
    · intro hnames m hm hsplit
      have hget : s.typeTable.get? m.1 = some (.ofText m.2) :=
        TypeTable.get?_withOverrides_of_mem hne hm
      have hempty := (core_eq_empty_iff_of_typeFault? (typeFault?_of_fault? h hm)).2 hsplit
      exact hnames _ (TypeTable.mem_of_get? hget) hempty
    · intro hsplit e he hempty
      rcases TypeTable.mem_withOverrides he with he | ⟨m, hm, rfl⟩
      · exact TypeTable.core_ne_empty_of_mem_standard e he hempty
      · exact hsplit m hm ((core_eq_empty_iff_of_typeFault? (typeFault?_of_fault? h hm)).1 hempty)
  refine ⟨hentries, fun hsplit e he => ?_⟩
  have hcore : (s.typeTable.resolve e).core ≠ "" := by
    rw [TypeTable.core_resolve, TypeTable.resolve]
    cases hget : s.typeTable.get? e.scalarName with
    | none => exact he
    | some target => exact hentries.2 hsplit _ (TypeTable.mem_of_get? hget)
  exact ⟨hcore, GoType.endsInMarker_text hcore⟩

/-- Settings with a type without blanks among its markers. -/
theorem hasNames_bigInt :
    fault? { types := [("U256", " *[] big.Int")] } = none ∧
      ∀ e : SchemaType, e.scalarName ≠ "" →
        ((typeTable { types := [("U256", " *[] big.Int")] }).resolve e).core ≠ "" := by
  have hfault : fault? { types := [("U256", " *[] big.Int")] } = none := by decide +kernel
  have hnames := hasNames_iff { types := [("U256", " *[] big.Int")] } hfault
    (List.pairwise_singleton _ _)
  exact ⟨hfault, fun e he => (hnames.2 (by decide +kernel) e he).1⟩

/-- Settings are accepted with a type of two stars, and what they resolve ends in these. -/
theorem noName_spacedStars :
    fault? { types := [("U256", "* *")] } = none ∧
      (∃ e ∈ (typeTable { types := [("U256", "* *")] }).entries, e.2.core = "") ∧
      ((typeTable { types := [("U256", "* *")] }).resolve (.sequence (.scalar "U256"))).text =
        "[]**" := by
  decide +kernel

end Settings

end RpcBindings
