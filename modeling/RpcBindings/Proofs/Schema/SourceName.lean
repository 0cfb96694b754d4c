import RpcBindings.Proofs.Rust.Spelling
import RpcBindings.Proofs.Schema.Comment
import RpcBindings.Proofs.Text.Cut

/-!
Names that a schema gives.

Fields, methods and parameters have their names from the text of their declaration, which is cut
out of the schema. Main statements: each of these names is an identifier spelled in the schema
(`Record.isSpelled_sourceName`, `RpcInterface.isNamedIn_of_found`), and so is the name of a method
that is left out, where it could be read (`RpcInterface.isSpelled_subject`).
-/

namespace RpcBindings

open Rust

/-! ## Identifiers -/

namespace Rust

variable {text : List Char} {n : String}

theorem IsIdentifier.not_mem {w : List Char} {c : Char}
    (hc : Text.Identifier.isContinue c = false) (h : IsIdentifier w) : c ∉ w := by
  obtain ⟨d, ds, rfl, hd, hds⟩ := h
  intro hmem
  rcases List.mem_cons.1 hmem with rfl | hmem
  · exact Bool.false_ne_true (hc.symm.trans (Text.Identifier.isContinue_of_isStart hd))
  · exact Bool.false_ne_true (hc.symm.trans (hds c hmem))

theorem IsIdentifier.newline_not_mem {w : List Char} (h : IsIdentifier w) : '\n' ∉ w :=
  h.not_mem (by decide)

/-- In ASCII the identifiers of Rust are those of Go. -/
theorem isIdentifier_of_ascii (h : IsIdentifier n.toList)
    (hascii : ∀ c ∈ n.toList, c.toNat < 0x80) : Go.isIdentifier n = true := by
  obtain ⟨c, cs, hn, hc, hcs⟩ := h
  rw [hn] at hascii
  unfold Go.isIdentifier
  rw [hn]
  refine Bool.and_eq_true_iff.2 ⟨?_, List.all_eq_true.2 fun d hd => ?_⟩
  · unfold Text.Identifier.isStart at hc
    rwa [if_pos (hascii c List.mem_cons_self)] at hc
  · have hd' := hcs d hd
    unfold Text.Identifier.isContinue at hd'
    rwa [if_pos (hascii d (List.mem_cons_of_mem _ hd))] at hd'

/-- What an ASCII text spells is an identifier of Go, too. -/
theorem IsSpelled.isIdentifier_of_ascii (h : IsSpelled text n)
    (hascii : ∀ c ∈ text, c.toNat < 0x80) : Go.isIdentifier n = true := by
  rcases h.subset with hsubset | rfl
  · exact Rust.isIdentifier_of_ascii h.isIdentifier fun c hc => hascii c (hsubset hc)
  · decide +kernel

end Rust

/-! ## Fields -/

namespace Record

variable {source : String} {r : Record}

theorem exists_field_of_ofText {text : String} (h : ofText text = .ok r) {f : RecordField}
    (hf : f ∈ r.fields) :
    ∃ s fields g, StructItem.ofText? text = some s ∧ s.fields? = some fields ∧ g ∈ fields ∧
      f.sourceName = plainName g.name := by
  unfold ofText at h
  split at h
  · exact absurd h nofun
  rename_i s hs
  unfold ofStruct at h
  split at h
  · exact absurd h nofun
  split at h
  · exact absurd h nofun
  split at h
  · exact absurd h nofun
  rename_i fields hfields
  obtain rfl := Except.ok.inj h
  obtain ⟨g, hg, hfield⟩ := List.mem_filterMap.1 hf
  refine ⟨s, fields, g, hs, hfields, hg, ?_⟩
  unfold fieldOf? at hfield
  split at hfield
  · exact absurd hfield nofun
  · exact Option.some.inj hfield ▸ rfl

/-- The names of a record's fields are spelled in the schema. -/
theorem isSpelled_sourceName (hr : .found r ∈ readAll source) {f : RecordField}
    (hf : f ∈ r.fields) : IsSpelled source.toList f.sourceName := by
  obtain ⟨i, -, hrecord⟩ := Masked.mem_recordsFrom (fun j hj => (Masked.mem_wordStarts.1 hj).2) hr
  unfold Masked.recordAt at hrecord
  extract_lets fragment subject? skip at hrecord
  split at hrecord
  · exact absurd hrecord nofun
  split at hrecord
  · rename_i record hok
    obtain rfl := Outcome.found.inj hrecord
    obtain ⟨s, fields, g, hs, hfields, hg, hname⟩ := exists_field_of_ofText hok hf
    obtain ⟨ts, hts, hnames⟩ := StructItem.nameIn_of_ofText? hs hfields
    rw [hname]
    refine (isSpelled_of_nameIn hts (hnames g hg)).mono ?_
    rw [String.toList_ofList]
    exact (Text.isInfix_cut _ _ _).subset
  · exact absurd hrecord nofun

end Record

/-! ## Methods and parameters -/

namespace RpcMethod

variable {options : InterfaceOptions} {nspace : String}

theorem exists_of_paramOf {q : FnParam} {p : RpcParam} (h : paramOf q = .ok p) :
    ∃ n t, q = .typed (.name n) t ∧ p.name = plainName n := by
  unfold paramOf at h
  split at h
  · exact absurd h nofun
  · exact ⟨_, _, rfl, Except.ok.inj h ▸ rfl⟩
  · exact absurd h nofun

theorem exists_of_mem_mapM {α β ε : Type} {f : α → Except ε β} {as : List α} {bs : List β}
    (h : as.mapM f = .ok bs) {b : β} (hb : b ∈ bs) : ∃ a ∈ as, f a = .ok b := by
  induction as generalizing bs with
  | nil =>
    obtain rfl := Except.ok.inj h
    exact absurd hb List.not_mem_nil
  | cons a as ih =>
    rw [List.mapM_cons] at h
    cases ha : f a with
    | error e =>
      rw [ha] at h
      exact absurd h nofun
    | ok b' =>
      rw [ha] at h
      cases has : as.mapM f with
      | error e =>
        rw [has] at h
        exact absurd h nofun
      | ok bs' =>
        rw [has] at h
        obtain rfl := Except.ok.inj h
        rcases List.mem_cons.1 hb with rfl | hb
        · exact ⟨a, List.mem_cons_self, ha⟩
        · obtain ⟨a', ha', hb'⟩ := ih has hb
          exact ⟨a', List.mem_cons_of_mem _ ha', hb'⟩

theorem exists_of_paramsOf {qs : List FnParam} {ps : List RpcParam} (h : paramsOf qs = .ok ps)
    {p : RpcParam} (hp : p ∈ ps) : ∃ n t, .typed (.name n) t ∈ qs ∧ p.name = plainName n := by
  unfold paramsOf at h
  split at h
  · obtain ⟨q, hq, hparam⟩ := exists_of_mem_mapM h hp
    obtain ⟨n, t, rfl, hname⟩ := exists_of_paramOf hparam
    exact ⟨n, t, List.mem_cons_of_mem _ hq, hname⟩
  · exact absurd h nofun

/-- The method has its names from a trait's method, and the function's name from its own. -/
structure IsNamedAs (m : RpcMethod) (nspace : String) (t : TraitMethod) : Prop where
  sourceName : m.sourceName = plainName t.signature.name
  functionName : m.functionName = Namespace.strip (Casing.upperCamel m.sourceName) nspace
  params : ∀ p ∈ m.params, ∃ n u, .typed (.name n) u ∈ t.signature.params ∧ p.name = plainName n

theorem isNamedAs_of_ofMethod {docComment? : Option String} {t : TraitMethod} {m : RpcMethod}
    (h : ofMethod options nspace docComment? t = .ok m) : m.IsNamedAs nspace t := by
  obtain ⟨-, _, params, _, -, hparams, -, rfl⟩ := ofMethod_eq_ok h
  exact {
    sourceName := by dsimp only
    functionName := by dsimp only
    params := fun p hp => exists_of_paramsOf hparams hp }

/-- The names of a method are spelled in a text, the function's name aside, which is made from the
method's. -/
structure IsNamedIn (m : RpcMethod) (nspace : String) (text : List Char) : Prop where
  sourceName : IsSpelled text m.sourceName
  functionName : m.functionName = Namespace.strip (Casing.upperCamel m.sourceName) nspace
  params : ∀ p ∈ m.params, IsSpelled text p.name

theorem IsNamedIn.mono {m : RpcMethod} {text text' : List Char} (h : m.IsNamedIn nspace text)
    (htext : text ⊆ text') : m.IsNamedIn nspace text' :=
  ⟨h.sourceName.mono htext, h.functionName, fun p hp => (h.params p hp).mono htext⟩

theorem isNamedIn_of_ofText [ParserMessages] {text : List Char} {m : RpcMethod}
    (h : ofText options nspace text = .found m) : m.IsNamedIn nspace text := by
  obtain ⟨t, ht, hmethod⟩ := ofText_eq_found h
  obtain ⟨ts, hts, hname, hparams⟩ := TraitMember.nameIn_of_ofText? ht
  rw [String.toList_ofList] at hts
  obtain ⟨hsource, hfunction, hps⟩ := isNamedAs_of_ofMethod hmethod
  refine ⟨hsource ▸ isSpelled_of_nameIn hts hname, hfunction, fun p hp => ?_⟩
  obtain ⟨n, u, hn, heq⟩ := hps p hp
  exact heq ▸ isSpelled_of_nameIn hts (hparams n u hn)

/-- The name of a method that is left out is spelled in its text. -/
theorem isSpelled_of_ofText [ParserMessages] {text : List Char} {d : Diagnostic}
    (h : ofText options nspace text = .skipped d) {n : String} (hn : d.subject = some n) :
    IsSpelled text n := by
  unfold ofText at h
  extract_lets fragment at h
  split at h
  · obtain rfl := Outcome.skipped.inj h
    exact absurd hn nofun
  · obtain rfl := Outcome.skipped.inj h
    exact absurd hn nofun
  · rename_i t ht
    split at h
    · exact absurd h nofun
    · obtain rfl := Outcome.skipped.inj h
      obtain rfl := Option.some.inj hn
      obtain ⟨ts, hts, hname, -⟩ := TraitMember.nameIn_of_ofText? ht
      rw [String.toList_ofList] at hts
      exact isSpelled_of_nameIn hts hname

end RpcMethod

/-! ## Interfaces -/

namespace RpcInterface

variable [ParserMessages] {options : InterfaceOptions} {source : String} {i : RpcInterface}

/-- The members of an interface are read from texts whose characters stand in the schema. -/
theorem exists_text_of_mem (hi : i ∈ readAll options source) {o : Outcome RpcMethod}
    (ho : o ∈ i.members) :
    ∃ text, text ⊆ source.toList ∧ RpcMethod.ofText options i.nspace text = o := by
  obtain ⟨_, -, _, _, _, -, -, -, rfl⟩ :=
    Masked.mem_interfacesFrom (fun j hj => (Masked.mem_wordStarts.1 hj).2) hi
  obtain ⟨text, htext, hread⟩ := List.mem_map.1 ho
  obtain ⟨span, -, rfl⟩ := List.mem_map.1 htext
  exact ⟨_, (Text.isInfix_cut _ _ _).subset, hread⟩

/-- The names of a method of an interface and of its parameters are spelled in the schema. -/
theorem isNamedIn_of_found (hi : i ∈ readAll options source) {m : RpcMethod}
    (hm : .found m ∈ i.members) : m.IsNamedIn i.nspace source.toList := by
  obtain ⟨text, hsubset, hread⟩ := exists_text_of_mem hi hm
  exact (RpcMethod.isNamedIn_of_ofText hread).mono hsubset

/-- The name of a method that is left out of an interface is spelled in the schema. -/
theorem isSpelled_subject (hi : i ∈ readAll options source) {d : Diagnostic}
    (hd : .skipped d ∈ i.members) {n : String} (hn : d.subject = some n) :
    IsSpelled source.toList n := by
  obtain ⟨text, hsubset, hread⟩ := exists_text_of_mem hi hd
  exact (RpcMethod.isSpelled_of_ofText hread hn).mono hsubset

end RpcInterface

end RpcBindings
