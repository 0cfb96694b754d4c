import RpcBindings.Proofs.Go.Header
import RpcBindings.Proofs.Masked.InCode

/-!
Which imports the head of a generated file holds.

An import is referred to when the code selects from its name: the name stands whole, not after a dot
and directly before one. The search for such a place passes over all other places of the name and
misses none, since a character begins behind every ASCII byte (`selects?_iff`). What is selected
from stands in code (`SelectsAt.inCode`). An import is told from another one by its line, so that what
is kept are the lines of the imports referred to, each once (`map_line_keptImports`). Main statement:
`headerText?_eq`.
-/

namespace RpcBindings

open Masked

namespace Text

theorem byteLength_of_narrow {cs : List Char} (h : ∀ c ∈ cs, c.utf8Size = 1) :
    byteLength cs = cs.length := by
  induction cs with
  | nil => rfl
  | cons c cs ih =>
    rw [byteLength_cons, h c List.mem_cons_self, ih fun d hd => h d (List.mem_cons_of_mem c hd),
      List.length_cons, Nat.add_comm]

end Text

namespace Masked

/-! ## Places that are selected from -/

/-- The code selects from a name at an offset: the name stands there whole, not after a dot and
directly before one. -/
def SelectsAt (m : Masked) (name : String) (i : Nat) : Prop :=
  m.wordAt name.toList i = true ∧ m.byteBefore i ≠ some '.'.toUInt8 ∧
    m.hasChar (i + Text.byteLength name.toList) '.' = true

instance (m : Masked) (name : String) (i : Nat) : Decidable (m.SelectsAt name i) :=
  inferInstanceAs (Decidable (_ ∧ _ ∧ _))

theorem selectsAt_iff {m : Masked} {name : String} {i : Nat} :
    m.SelectsAt name i ↔ m.wordAt name.toList i = true ∧ m.isSelectedAt name.toList i = true := by
  unfold SelectsAt isSelectedAt
  rw [Bool.and_eq_true, bne_iff_ne]

/-- Whether the code selects from an identifier is whether there is a place where it does. -/
theorem selects?_iff {m : Masked} {name : String} (hname : Go.isIdentifier name = true) :
    m.selects? name = some true ↔ ∃ i < m.size, m.SelectsAt name i := by
  have hword := Go.isName_toList hname
  unfold selects?
  rw [selectsFrom?_eq_some_true_iff hword.ne_nil (fun b hb => hword.isWordByte_bytes hb)
    (fun c hc => (hword.isWordByte_char hc).1) (Text.isBoundary_zero m.code)]
  refine exists_congr fun i => ?_
  rw [selectsAt_iff]
  refine and_congr_left fun h => iff_of_true (Nat.zero_le i) ?_
  exact (standsAlone_iff.2 h.1).lt_size hword.ne_nil

/-! ## Places in code -/

variable {source : List Char}

theorem isCodeChar_of_isWordByte {c : Char} (hc : c.utf8Size = 1 ∧ isWordByte c.toUInt8 = true) :
    isCodeChar c = true := by
  have hne (d : Char) (hd : isWordByte d.toUInt8 = false) : c ≠ d := Go.ne_of_isWordByte hc.2 hd
  unfold isCodeChar
  simp only [Bool.and_eq_true, bne_iff_ne, beq_iff_eq]
  exact ⟨⟨⟨⟨⟨hc.1, hne _ (by decide)⟩, hne _ (by decide)⟩, hne _ (by decide)⟩, hne _ (by decide)⟩,
    hne _ (by decide)⟩

/-- What is selected from stands in the source, with the dot behind it, and the scan is in code
before each of these characters. -/
theorem SelectsAt.inCode {name : String} {i : Nat} (hname : Go.isIdentifier name = true)
    (h : (ofSource .go source).SelectsAt name i) :
    (∃ rest, (ofSource .go source).SourceFrom i (name.toList ++ '.' :: rest)) ∧
      ∀ k ≤ name.toList.length, (ofSource .go source).InCode (i + k) := by
  obtain ⟨hword, -, hdot⟩ := h
  have hchars := fun c (hc : c ∈ name.toList) => (Go.isName_toList hname).isWordByte_char hc
  have hnarrow : ∀ c ∈ name.toList, c.utf8Size = 1 := fun c hc => (hchars c hc).1
  have hname' : ∀ k c, name.toList[k]? = some c → (ofSource .go source).hasChar (i + k) c = true :=
    fun k c hc => hasChar_of_wordAt hword (getElem?_bytes_of_narrow hnarrow hc)
  rw [Text.byteLength_of_narrow hnarrow] at hdot
  have hend := lt_size_of_hasChar hdot
  have hcode : ∀ k ≤ name.toList.length, (ofSource .go source).InCode (i + k) := by
    intro k hk
    obtain ⟨c, cs, hcs, -⟩ := Go.exists_cons_of_isName (Go.isName_toList hname)
    have hpos : 0 < name.toList.length := by rw [hcs]; exact Nat.succ_pos _
    cases k with
    | zero =>
      exact (inCode_of_hasChar (hname' 0 c (by rw [hcs]; rfl))
        (isCodeChar_of_isWordByte (hchars c (hcs ▸ List.mem_cons_self))) (by omega)).1
    | succ k =>
      exact (inCode_of_hasChar (hname' k _ (List.getElem?_eq_getElem hk))
        (isCodeChar_of_isWordByte (hchars _ (List.getElem_mem hk))) (by omega)).2
  have hchar : ∀ k c, (name.toList ++ ['.'])[k]? = some c →
      (ofSource .go source).hasChar (i + k) c = true := by
    intro k c hc
    by_cases hk : k < name.toList.length
    · rw [List.getElem?_append_left hk] at hc
      exact hname' k c hc
    · rw [List.getElem?_append_right (Nat.le_of_not_lt hk), List.getElem?_singleton] at hc
      obtain ⟨hzero, hdot'⟩ := Option.ite_none_right_eq_some.1 hc
      obtain rfl : k = name.toList.length := by omega
      exact Option.some.inj hdot' ▸ hdot
  have hcut := (hcode 0 (Nat.zero_le _)).cutsAt
  obtain ⟨rest, hrest⟩ := sourceFrom_of_hasChar hcut hchar fun c hc => by
    rcases List.mem_append.1 hc with hc | hc
    · exact ⟨hnarrow c hc, Go.ne_of_isWordByte (hchars c hc).2 (by decide)⟩
    · rw [List.mem_singleton.1 hc]
      decide
  rw [List.append_assoc] at hrest
  exact ⟨⟨rest, hrest⟩, hcode⟩

end Masked

/-! ## Names of imports -/

namespace Text

theorem splitAtBlank?_eq_none_iff {cs : List Char} :
    splitAtBlank? cs = none ↔ ∀ c ∈ cs, isBlank c = false := by
  have hsplit := List.takeWhile_append_dropWhile (p := fun c => !isBlank c) (l := cs)
  have hall := List.all_takeWhile (p := fun c => !isBlank c) (l := cs)
  unfold splitAtBlank?
  cases h : cs.dropWhile fun c => !isBlank c with
  | nil =>
    rw [h, List.append_nil] at hsplit
    rw [hsplit] at hall
    exact ⟨fun _ c hc => by simpa using List.all_eq_true.1 hall c hc, fun _ => rfl⟩
  | cons c rest =>
    refine ⟨fun hnone => absurd hnone (Option.some_ne_none _), fun hno => ?_⟩
    have hc := List.head?_dropWhile_not (fun c => !isBlank c) cs
    have hmem : c ∈ cs := hsplit ▸ List.mem_append_right _ (h ▸ List.mem_cons_self)
    rw [h] at hc
    exact absurd (hno c hmem) (by simpa using hc)

theorem splitOn_ne_nil (c : Char) (cs : List Char) : splitOn c cs ≠ [] := by
  cases cs with
  | nil => exact List.cons_ne_nil _ _
  | cons d cs =>
    rw [splitOn]
    split
    · exact List.cons_ne_nil _ _
    · split <;> exact List.cons_ne_nil _ _

theorem splitOn_of_not_mem {c : Char} {cs : List Char} (h : c ∉ cs) : splitOn c cs = [cs] := by
  induction cs with
  | nil => rfl
  | cons d cs ih =>
    rw [List.mem_cons, not_or] at h
    rw [splitOn, if_neg fun hd => h.1 hd.symm, ih h.2]

/-- The pieces of two texts with an occurrence between them are those of both. -/
theorem splitOn_append_cons (c : Char) (a b : List Char) :
    splitOn c (a ++ c :: b) = splitOn c a ++ splitOn c b := by
  induction a with
  | nil => simp [splitOn]
  | cons d a ih =>
    rw [List.cons_append, splitOn, splitOn, ih]
    split
    · rfl
    · obtain ⟨piece, pieces, hpieces⟩ := List.exists_cons_of_ne_nil (splitOn_ne_nil c a)
      rw [hpieces]
      rfl

end Text

namespace Go

/-- A path ends in an element, which a slash sets off from what stands before it. -/
def EndsIn (path : List Char) (front? : Option (List Char)) (element : List Char) : Prop :=
  '/' ∉ element ∧ path = (front?.elim [] fun front => front ++ ['/']) ++ element

/-- What an import is called in a file: its alias if it has one, else the last element of its path,
or the one before it when the last one names a major version. -/
inductive Called : Import → String → Prop
  | byAlias (a path : String) : Called ⟨some a, path⟩ a
  | byElement {path : String} {front? : Option (List Char)} {element : List Char}
      (ends : EndsIn path.toList front? element)
      (plain : front? = none ∨ Import.isVersion element = false) :
      Called ⟨none, path⟩ (.ofList element)
  | byPrevious {path : String} {front version element : List Char}
      {front? : Option (List Char)} (ends : EndsIn path.toList (some front) version)
      (versioned : Import.isVersion version = true) (before : EndsIn front front? element) :
      Called ⟨none, path⟩ (.ofList element)

theorem exists_endsIn (path : List Char) : ∃ front? element, EndsIn path front? element := by
  by_cases h : '/' ∈ path
  · obtain ⟨element, front, hpath, helement⟩ := List.eq_append_cons_of_mem (List.mem_reverse.2 h)
    refine ⟨some front.reverse, element.reverse, fun hmem => helement (List.mem_reverse.1 hmem), ?_⟩
    rw [← List.reverse_reverse path, hpath]
    simp
  · exact ⟨none, path, h, rfl⟩

namespace EndsIn

variable {path front element : List Char}

theorem splitOn_none (h : EndsIn path none element) : Text.splitOn '/' path = [element] := by
  obtain ⟨helement, rfl⟩ := h
  exact Text.splitOn_of_not_mem helement

theorem splitOn_some (h : EndsIn path (some front) element) :
    Text.splitOn '/' path = Text.splitOn '/' front ++ [element] := by
  obtain ⟨helement, rfl⟩ := h
  rw [Option.elim_some, List.append_assoc, List.singleton_append, Text.splitOn_append_cons,
    Text.splitOn_of_not_mem helement]

end EndsIn

/-- What an import is called is its name. -/
theorem Called.eq_name {i : Import} {n : String} (h : Called i n) : i.name = n := by
  have hlast {front : List Char} {front? : Option (List Char)} {element : List Char}
      (h : EndsIn front front? element) :
      ∃ rest, (Text.splitOn '/' front).reverse = element :: rest := by
    cases front? with
    | none => exact ⟨[], by rw [h.splitOn_none]; rfl⟩
    | some front => exact ⟨_, by rw [h.splitOn_some, List.reverse_concat]⟩
  cases h with
  | byAlias => rfl
  | @byElement path front? element ends plain =>
    show Import.packageOf path = _
    unfold Import.packageOf
    cases front? with
    | none =>
      have hpath : path.toList = element := ends.2
      rw [ends.splitOn_none, ← hpath, String.ofList_toList]
      rfl
    | some front =>
      have hplain : Import.isVersion element = false := plain.resolve_left (Option.some_ne_none _)
      obtain ⟨front?, previous, hfront⟩ := exists_endsIn front
      obtain ⟨rest, hrest⟩ := hlast hfront
      rw [ends.splitOn_some, List.reverse_concat, hrest]
      show String.ofList (if Import.isVersion element = true then previous else element) = _
      rw [hplain, if_neg Bool.false_ne_true]
  | @byPrevious path front version element front? ends versioned before =>
    show Import.packageOf path = _
    obtain ⟨rest, hrest⟩ := hlast before
    unfold Import.packageOf
    rw [ends.splitOn_some, List.reverse_concat, hrest]
    show String.ofList (if Import.isVersion version = true then element else version) = _
    rw [if_pos versioned]

theorem called_iff {i : Import} {n : String} : Called i n ↔ i.name = n := by
  refine ⟨Called.eq_name, ?_⟩
  rintro rfl
  obtain ⟨alias?, path⟩ := i
  cases alias? with
  | some a => exact .byAlias a path
  | none =>
    have hcalled : ∃ n, Called ⟨none, path⟩ n := by
      obtain ⟨front?, element, h⟩ := exists_endsIn path.toList
      cases front? with
      | none => exact ⟨_, .byElement h (.inl rfl)⟩
      | some front =>
        cases hversion : Import.isVersion element with
        | false => exact ⟨_, .byElement h (.inr hversion)⟩
        | true =>
          obtain ⟨front?, previous, hfront⟩ := exists_endsIn front
          exact ⟨_, .byPrevious h hversion hfront⟩
    obtain ⟨n, hn⟩ := hcalled
    exact hn.eq_name ▸ hn

/-- A path is called as one of the elements between its slashes. -/
theorem Import.exists_packageOf (path : String) :
    ∃ e ∈ Text.splitOn '/' path.toList, packageOf path = .ofList e := by
  unfold packageOf
  split
  · rename_i last previous rest helements
    have hmem {e : List Char} (he : e = last ∨ e = previous) :
        e ∈ Text.splitOn '/' path.toList := by
      rw [← List.mem_reverse, helements]
      rcases he with rfl | rfl
      · exact List.mem_cons_self
      · exact List.mem_cons_of_mem _ List.mem_cons_self
    exact ⟨_, hmem (by split <;> simp), rfl⟩
  · rename_i hshort
    obtain ⟨front?, element, h⟩ := exists_endsIn path.toList
    cases front? with
    | none =>
      have hpath : path.toList = element := h.2
      exact ⟨element, h.splitOn_none ▸ List.mem_cons_self, by rw [← hpath, String.ofList_toList]⟩
    | some front =>
      obtain ⟨e, es, hfront⟩ := List.exists_cons_of_ne_nil
        (List.reverse_ne_nil_iff.2 (Text.splitOn_ne_nil '/' front))
      exact absurd (by rw [h.splitOn_some, List.reverse_concat, hfront]) (hshort element e es)

/-! ## Lines of imports -/

namespace Import

/-- A spec without an alias has no blank in its path. -/
theorem path_not_isBlank {spec : String} (h : (ofSpec spec).alias? = none) :
    ∀ c ∈ (ofSpec spec).path.toList, Text.isBlank c = false := by
  intro c hc
  unfold ofSpec at h hc
  simp only at h hc
  cases hsplit : Text.splitAtBlank? (Text.trim spec.toList) with
  | some parts =>
    rw [hsplit] at h
    exact absurd h (Option.some_ne_none _)
  | none =>
    rw [hsplit, String.toList_ofList] at hc
    exact Text.splitAtBlank?_eq_none_iff.1 hsplit c hc

/-- The first blank of a line stands behind the alias. -/
theorem splitAtBlank?_line (spec : String) :
    Text.splitAtBlank? (ofSpec spec).line.toList =
      (ofSpec spec).alias?.map fun a => (a.toList, quoted (ofSpec spec).path.toList) := by
  have halias := (mem_ofSpec spec).1
  rw [toList_line]
  unfold lead
  cases h : (ofSpec spec).alias? with
  | some a =>
    have := Text.splitAtBlank?_append (b := quoted (ofSpec spec).path.toList)
      (fun c hc => (halias a h c hc).2) Text.isBlank_space
    simpa using this
  | none =>
    refine Text.splitAtBlank?_eq_none_iff.2 fun c hc => ?_
    unfold quoted at hc
    simp only [List.nil_append, List.mem_cons, List.mem_append, List.not_mem_nil, or_false] at hc
    rcases hc with rfl | hc | rfl
    · decide
    · exact path_not_isBlank h c hc
    · decide

/-- An import is told from another one by its line. -/
theorem eq_of_line_eq {s t : String} (h : (ofSpec s).line = (ofSpec t).line) :
    ofSpec s = ofSpec t := by
  have hsplit := splitAtBlank?_line s
  rw [h, splitAtBlank?_line t] at hsplit
  have halias : (ofSpec s).alias? = (ofSpec t).alias? := by
    cases hs : (ofSpec s).alias? <;> cases ht : (ofSpec t).alias? <;> rw [hs, ht] at hsplit
    · exact absurd hsplit (by simp)
    · exact absurd hsplit (by simp)
    · exact congrArg some (String.toList_injective (Prod.mk.inj (Option.some.inj hsplit)).1.symm)
  have hpath : (ofSpec s).path = (ofSpec t).path := by
    have hlines := congrArg String.toList h
    rw [toList_line, toList_line] at hlines
    unfold lead at hlines
    rw [halias] at hlines
    have := (List.cons.inj (List.append_cancel_left hlines)).2
    exact String.toList_injective (List.append_cancel_right this)
  calc ofSpec s = ⟨(ofSpec s).alias?, (ofSpec s).path⟩ := rfl
    _ = ⟨(ofSpec t).alias?, (ofSpec t).path⟩ := by rw [halias, hpath]

end Import

/-! ## The imports of a header -/

/-- An import clause with some lines and the empty line after it; nothing without lines. -/
def clauseText : List String → String
  | [] => ""
  | [l] => "import " ++ l ++ "\n\n"
  | ls => "import (\n" ++ String.join (ls.map fun l => "\t" ++ l ++ "\n") ++ ")\n\n"

theorem importClause_eq (is : List Import) : importClause is = clauseText (is.map Import.line) := by
  match is with
  | [] => rfl
  | [i] => rfl
  | i :: j :: is =>
    have hlines : (i :: j :: is).map (fun k => "\t" ++ k.line ++ "\n") =
        ((i :: j :: is).map Import.line).map fun l => "\t" ++ l ++ "\n" := by
      rw [List.map_map]
      rfl
    exact congrArg (fun ls => "import (\n" ++ String.join ls ++ ")\n\n") hlines

end Go

namespace Masked

/-- The code refers to an import: it is called `_` or `.`, or the code selects from what it is
called. -/
def RefersTo (m : Masked) (i : Go.Import) : Prop :=
  ∃ n, Go.Called i n ∧ (n = "_" ∨ n = "." ∨ ∃ k < m.size, m.SelectsAt n k)

theorem refersTo_iff {m : Masked} {i : Go.Import} :
    m.RefersTo i ↔ i.name = "_" ∨ i.name = "." ∨ ∃ k < m.size, m.SelectsAt i.name k := by
  unfold RefersTo
  simp only [Go.called_iff, exists_eq_left']

instance (m : Masked) (i : Go.Import) : Decidable (m.RefersTo i) :=
  decidable_of_iff _ refersTo_iff.symm

theorem usesImport?_iff {m : Masked} {i : Go.Import}
    (hname : Go.isIdentifier i.name = true ∨ i.name = ".") :
    m.usesImport? i = some true ↔ m.RefersTo i := by
  rw [refersTo_iff]
  unfold usesImport? Go.Import.isAlwaysUsed
  split
  · rename_i halways
    rw [Bool.or_eq_true, beq_iff_eq, beq_iff_eq] at halways
    exact iff_of_true rfl (halways.imp_right .inl)
  · rename_i halways
    rw [Bool.or_eq_true, beq_iff_eq, beq_iff_eq, not_or] at halways
    rw [or_iff_right halways.1, or_iff_right halways.2]
    exact selects?_iff (hname.resolve_right halways.2)

/-- The imports that are named as used are those that the code uses, each where it stands first. -/
theorem eq_of_usedImports? {m : Masked} {used is js : List Go.Import}
    (h : m.usedImports? used is = some js) :
    js = ((is.filter fun i => m.usesImport? i == some true).filter
      fun i => !used.contains i).eraseDups := by
  induction is generalizing used js with
  | nil => exact (Option.some.inj h).symm
  | cons i is ih =>
    rw [usedImports?] at h
    split at h
    · rename_i hused
      rw [ih h, List.filter_cons]
      split
      · rw [List.filter_cons_of_neg (by rw [hused]; decide)]
      · rfl
    · rename_i hused
      split at h
      · cases h
      · rename_i huse
        obtain ⟨later, hlater, rfl⟩ := Option.map_eq_some_iff.1 h
        rw [ih hlater, List.filter_cons_of_pos (by rw [huse]; rfl),
          List.filter_cons_of_pos (by rw [Bool.eq_false_iff.2 hused]; rfl), List.eraseDups_cons,
          List.filter_filter (p := fun j => !j == i)]
        refine congrArg (fun is => i :: List.eraseDups is) (List.filter_congr fun j _ => ?_)
        rw [List.contains_cons, Bool.not_or]
      · rename_i huse
        rw [ih h, List.filter_cons_of_neg (by rw [huse]; decide)]

end Masked

namespace Go

/-- A map that tells the members of a list apart keeps which of them stand there first. -/
theorem map_eraseDups {α β : Type} [DecidableEq α] [DecidableEq β] {f : α → β} {l : List α}
    (h : ∀ a ∈ l, ∀ b ∈ l, f a = f b → a = b) : l.eraseDups.map f = (l.map f).eraseDups := by
  match l with
  | [] => rfl
  | a :: l =>
    have hlen : (l.filter fun b => !b == a).length < (a :: l).length :=
      Nat.lt_succ_of_le (List.length_filter_le _ l)
    have hlater := map_eraseDups (f := f) (l := l.filter fun b => !b == a) fun b hb c hc =>
      h b (List.mem_cons_of_mem a (List.mem_filter.1 hb).1) c
        (List.mem_cons_of_mem a (List.mem_filter.1 hc).1)
    rw [List.eraseDups_cons, List.map_cons, List.map_cons, List.eraseDups_cons, hlater,
      List.filter_map]
    refine congrArg (fun bs => f a :: List.eraseDups (List.map f bs))
      (List.filter_congr fun b hb => ?_)
    have hiff : b = a ↔ f b = f a :=
      ⟨congrArg f, h b (List.mem_cons_of_mem a hb) a List.mem_cons_self⟩
    rw [Function.comp_apply]
    exact congrArg (!·) (decide_eq_decide.2 hiff)
termination_by l.length
decreasing_by exact hlen

/-- The imports that the header of a body keeps of some specs, when it keeps any. -/
def keptImports (specs : List String) (body : String) : List Import :=
  ((specs.map Import.ofSpec).filter fun i =>
    (ofSource .go body.toList).usesImport? i == some true).eraseDups

theorem mem_keptImports {i : Import} {specs : List String} {body : String} :
    i ∈ keptImports specs body ↔
      (∃ s ∈ specs, Import.ofSpec s = i) ∧
        (ofSource .go body.toList).usesImport? i = some true := by
  unfold keptImports
  rw [List.mem_eraseDups, List.mem_filter, List.mem_map, beq_iff_eq]

/-- Whether the search for the use of one of some specs in a body never ends. -/
def EndlessHeader (specs : List String) (body : String) : Prop :=
  ∃ s ∈ specs, (ofSource .go body.toList).SearchesForever (Import.ofSpec s).name

/-- A body has no header exactly when the search for the use of a spec never ends. -/
theorem headerText?_eq_none_iff (package : String) {body : String} {specs : List String} :
    headerText? package specs body = none ↔ EndlessHeader specs body := by
  unfold headerText? EndlessHeader
  simp only
  rw [Option.map_eq_none_iff, usedImports?_eq_none_iff (fun _ hi => absurd hi List.not_mem_nil)]
  constructor
  · rintro ⟨i, hi, h⟩
    obtain ⟨s, hs, rfl⟩ := List.mem_map.1 hi
    exact ⟨s, hs, h⟩
  · rintro ⟨s, hs, h⟩
    exact ⟨_, List.mem_map_of_mem hs, h⟩

theorem usedImports?_of_headerText? {package body header : String} {specs : List String}
    (h : headerText? package specs body = some header) :
    (ofSource .go body.toList).usedImports? [] (specs.map Import.ofSpec) =
      some (keptImports specs body) := by
  obtain ⟨used, hused, -⟩ := exists_usedImports?_of_headerText? h
  rw [hused, eq_of_usedImports? hused]
  exact congrArg some (congrArg List.eraseDups (List.filter_eq_self.2 fun _ _ => rfl))

/-- A body has its header when every search ends, with the clause of the imports that are kept. -/
theorem headerText?_eq_some_iff {package body header : String} {specs : List String} :
    headerText? package specs body = some header ↔ ¬EndlessHeader specs body ∧
      header = banner ++ "\n\npackage " ++ package ++ "\n\n" ++
        importClause (keptImports specs body) := by
  rw [← headerText?_eq_none_iff package]
  constructor
  · intro h
    obtain ⟨used, hused, hheader⟩ := exists_usedImports?_of_headerText? h
    obtain rfl := Option.some.inj (hused.symm.trans (usedImports?_of_headerText? h))
    exact ⟨h ▸ Option.some_ne_none _, hheader⟩
  · rintro ⟨hsome, rfl⟩
    obtain ⟨header, h⟩ := Option.ne_none_iff_exists'.1 hsome
    obtain ⟨used, hused, rfl⟩ := exists_usedImports?_of_headerText? h
    obtain rfl := Option.some.inj (hused.symm.trans (usedImports?_of_headerText? h))
    exact h

/-- When every spec has a name, every search ends. -/
theorem not_endlessHeader {specs : List String} (h : ∀ s ∈ specs, (Import.ofSpec s).name ≠ "")
    (body : String) : ¬EndlessHeader specs body :=
  fun ⟨s, hs, hforever⟩ => h s hs (eq_empty_of_searchesForever hforever)

/-- When every spec has a name, a header is made. -/
theorem headerText?_of_names {specs : List String} (h : ∀ s ∈ specs, (Import.ofSpec s).name ≠ "")
    (package body : String) : headerText? package specs body =
      some (banner ++ "\n\npackage " ++ package ++ "\n\n" ++
        importClause (keptImports specs body)) :=
  headerText?_eq_some_iff.2 ⟨not_endlessHeader h body, rfl⟩

/-- The lines of the imports that a body uses are those that it refers to, each where it stands
first. -/
theorem map_line_keptImports {specs : List String} {body : String}
    (hnames : ∀ s ∈ specs,
      isIdentifier (Import.ofSpec s).name = true ∨ (Import.ofSpec s).name = ".") :
    (keptImports specs body).map Import.line =
      (((specs.map Import.ofSpec).filter fun i =>
        (ofSource .go body.toList).RefersTo i).map Import.line).eraseDups := by
  have huse : ((specs.map Import.ofSpec).filter fun i =>
        (ofSource .go body.toList).usesImport? i == some true) =
      (specs.map Import.ofSpec).filter fun i => (ofSource .go body.toList).RefersTo i := by
    refine List.filter_congr fun i hi => ?_
    obtain ⟨s, hs, rfl⟩ := List.mem_map.1 hi
    rw [Bool.eq_iff_iff, beq_iff_eq, decide_eq_true_iff]
    exact usesImport?_iff (hnames s hs)
  unfold keptImports
  rw [huse]
  refine map_eraseDups fun i hi j hj => ?_
  obtain ⟨s, -, rfl⟩ := List.mem_map.1 (List.mem_filter.1 hi).1
  obtain ⟨t, -, rfl⟩ := List.mem_map.1 (List.mem_filter.1 hj).1
  exact Import.eq_of_line_eq

/-- The head of a file imports what its body refers to. The lines of its import clause are those of
the specs that the body refers to, in order and each where it stands first; and what a body refers to
a spec by stands in its code, whole and with the dot behind it. -/
theorem headerText?_eq (package body : String) {specs : List String}
    (hnames : ∀ s ∈ specs,
      isIdentifier (Import.ofSpec s).name = true ∨ (Import.ofSpec s).name = ".") :
    headerText? package specs body = some (banner ++ "\n\npackage " ++ package ++ "\n\n" ++
        clauseText (((specs.map Import.ofSpec).filter fun i =>
          (ofSource .go body.toList).RefersTo i).map Import.line).eraseDups) ∧
      ∀ name i, isIdentifier name = true → (ofSource .go body.toList).SelectsAt name i →
        (∃ rest, (ofSource .go body.toList).SourceFrom i (name.toList ++ '.' :: rest)) ∧
          ∀ k ≤ name.toList.length, (ofSource .go body.toList).InCode (i + k) := by
  have hne : ∀ s ∈ specs, (Import.ofSpec s).name ≠ "" := by
    intro s hs hempty
    rcases hnames s hs with hname | hdot
    · rw [hempty] at hname
      exact absurd hname (by decide)
    · rw [hempty] at hdot
      exact absurd hdot (by decide)
  refine ⟨?_, fun name i hname h => h.inCode hname⟩
  rw [headerText?_of_names hne, importClause_eq, map_line_keptImports hnames]

/-- A selector, a comment and a literal use no package; the second of two equal specs is left
out. -/
theorem headerText?_eq_selectors :
    (∀ s ∈ ["x/fmt", "os", "y/a/v2", " x/fmt ", ". dot", "io"],
      isIdentifier (Import.ofSpec s).name = true ∨ (Import.ofSpec s).name = ".") ∧
    headerText? "p" ["x/fmt", "os", "y/a/v2", " x/fmt ", ". dot", "io"]
        "a.os.X // io.R\nfmtfmt.fmt.Y(\"io.\", fmt.Z)" =
      some (banner ++ "\n\npackage p\n\n" ++
        clauseText ["\"x/fmt\"", "\"y/a/v2\"", ". \"dot\""]) := by
  have hnames : ∀ s ∈ ["x/fmt", "os", "y/a/v2", " x/fmt ", ". dot", "io"],
      isIdentifier (Import.ofSpec s).name = true ∨ (Import.ofSpec s).name = "." := by decide +kernel
  exact ⟨hnames, (headerText?_eq "p" _ hnames).1.trans (by decide +kernel)⟩

end Go

end RpcBindings
