import RpcBindings.Proofs.Generated.BrokenCut
import RpcBindings.Proofs.Go.ImportLine
import RpcBindings.Proofs.Masked.Append

/-!
Reading back the imports that a header was written with.

A reader looks for lines that begin with `import` and takes what a clause holds from the source.
Before the clause of a header no line begins with the keyword (`importlessLines_preamble`), what stands
in the clause is passed over, and behind it there is the body. So when no line of the body begins with
the keyword the clause of the header is the only one (`importsFrom?_clause`), and it holds the imports
that it was written with (`exists_clauseParts`). Main statement: `ClientFile.imports_headerText`.
-/

namespace RpcBindings

open Masked

namespace Masked

variable {m a b : Masked}

/-! ## Lines that begin with the keyword -/

/-- No line of the masked copy begins with the keyword `import`. -/
def Importless (m : Masked) : Prop :=
  ∀ p ∈ m.wordStarts "import", m.beginsLine p = false

instance (m : Masked) : Decidable m.Importless :=
  inferInstanceAs (Decidable (∀ p ∈ m.wordStarts "import", m.beginsLine p = false))

/-- Places whose lines begin otherwise hold no clause. -/
theorem importsFrom?_of_not_beginsLine {places : List Nat} {start : Nat}
    (h : ∀ p ∈ places, start ≤ p → m.beginsLine p = false) :
    m.importsFrom? places start = some [] := by
  induction places generalizing start with
  | nil => rfl
  | cons p places ih =>
    have hlater : ∀ q ∈ places, start ≤ q → m.beginsLine q = false :=
      fun q hq => h q (List.mem_cons_of_mem p hq)
    rw [importsFrom?]
    split
    · exact ih hlater
    · rename_i hle
      simp only
      rw [h p List.mem_cons_self (Nat.le_of_not_lt hle), if_neg Bool.false_ne_true]
      exact ih fun q hq hle => hlater q hq (by omega)

/-- A clause is the only one when the places before it and behind it hold none. -/
theorem importsFrom?_clause {places : List Nat} {start k : Nat} {clause : Span} {text : List Char}
    (hsorted : places.Pairwise (· < ·)) (hk : k ∈ places) (hstart : start ≤ k)
    (hbefore : ∀ p ∈ places, p < k → m.beginsLine p = false ∧ p + "import".length ≤ k)
    (hbegins : m.beginsLine k = true) (hclause : m.clauseAfter? (k + "import".length) = some clause)
    (hcut : Text.cut? clause.start clause.stop m.source = some text)
    (hbehind : ∀ p ∈ places, clause.stop ≤ p → m.beginsLine p = false) :
    m.importsFrom? places start = some (clauseImports text) := by
  induction places generalizing start with
  | nil => exact absurd hk List.not_mem_nil
  | cons p places ih =>
    obtain ⟨hfirst, hsorted⟩ := List.pairwise_cons.1 hsorted
    have hbehind' : ∀ q ∈ places, clause.stop ≤ q → m.beginsLine q = false :=
      fun q hq => hbehind q (List.mem_cons_of_mem p hq)
    rw [importsFrom?]
    rcases List.mem_cons.1 hk with rfl | hk
    · rw [if_neg (Nat.not_lt.2 hstart)]
      simp only [hbegins, if_true, hclause, hcut, importsFrom?_of_not_beginsLine hbehind',
        Option.map_some, List.append_nil]
    · have hpk : p < k := hfirst k hk
      have hlater {start : Nat} (hstart : start ≤ k) :=
        ih hsorted hk hstart (fun q hq => hbefore q (List.mem_cons_of_mem p hq)) hbehind'
      obtain ⟨hbegins', hle⟩ := hbefore p List.mem_cons_self hpk
      split
      · exact hlater hstart
      · simp only
        rw [hbegins', if_neg Bool.false_ne_true]
        exact hlater hle

theorem Importless.beginsLine_of_lt (hlined : a.Lined) (ha : a.Importless) {p : Nat}
    (hp : p ∈ (a.append b).wordStarts "import") (hlt : p < a.size) :
    (a.append b).beginsLine p = false := by
  rw [hlined.wordStarts_append b (by decide), List.mem_append] at hp
  rw [hlined.beginsLine_append b (Nat.le_of_lt hlt)]
  rcases hp with hp | hp
  · exact ha p hp
  · obtain ⟨q, -, rfl⟩ := List.mem_map.1 hp
    omega

theorem Importless.beginsLine_of_le (hlined : a.Lined) (hb : b.Importless) {p : Nat}
    (hp : p ∈ (a.append b).wordStarts "import") (hle : a.size ≤ p) :
    (a.append b).beginsLine p = false := by
  rw [hlined.wordStarts_append b (by decide), List.mem_append] at hp
  rcases hp with hp | hp
  · have := (mem_wordStarts.1 hp).1
    omega
  · obtain ⟨q, hq, rfl⟩ := List.mem_map.1 hp
    rw [hlined.beginsLine_append_add]
    exact hb q hq

/-- No line begins with the keyword in two texts when none does in each of them. -/
theorem Importless.append (hlined : a.Lined) (ha : a.Importless) (hb : b.Importless) :
    (a.append b).Importless := by
  intro p hp
  by_cases hlt : p < a.size
  · exact ha.beginsLine_of_lt hlined hp hlt
  · exact hb.beginsLine_of_le hlined hp (Nat.le_of_not_lt hlt)

/-- The keyword stands nowhere when its first letter does not show. -/
theorem wordStarts_import_eq_nil (h : 'i' ∉ m.code) : m.wordStarts "import" = [] := by
  refine List.eq_nil_iff_forall_not_mem.2 fun p hp => h ?_
  have hfirst : m.bytes[p]? = some 'i'.toUInt8 :=
    getElem?_of_wordAt (k := 0) (mem_wordStarts.1 hp).2 rfl
  rw [m.bytes_eq] at hfirst
  obtain ⟨x, c, y, hcode, -, hc, hbyte⟩ := Text.exists_split_of_ascii hfirst (by decide)
  rw [hcode, Text.eq_of_toUInt8_eq hc (by decide) hbyte]
  simp

theorem importless_of_not_mem (h : 'i' ∉ m.code) : m.Importless := by
  intro p hp
  rw [wordStarts_import_eq_nil h] at hp
  exact absurd hp List.not_mem_nil

/-- A line that begins with another character does not begin with the keyword. -/
theorem importless_line {c : Char} {line : List Char} (hcode : m.code = c :: line ++ ['\n'])
    (hc : c ≠ 'i') (hblank : Text.isBlank c = false) (hline : '\n' ∉ c :: line) : m.Importless := by
  intro p hp
  have hfirst : m.bytes[p]? = some 'i'.toUInt8 :=
    getElem?_of_wordAt (k := 0) (mem_wordStarts.1 hp).2 rfl
  rw [m.bytes_eq] at hfirst
  obtain ⟨x, d, y, hsplit, rfl, hd, hbyte⟩ := Text.exists_split_of_ascii hfirst (by decide)
  obtain rfl : d = 'i' := Text.eq_of_toUInt8_eq hd (by decide) hbyte
  -- what stands before the keyword is the beginning of the line
  obtain ⟨z, hz, hx⟩ : ∃ z, x = c :: z ∧ '\n' ∉ x := by
    rw [hcode] at hsplit
    cases x with
    | nil => exact absurd (List.cons.inj hsplit).1 hc
    | cons e z =>
      obtain rfl := (List.cons.inj hsplit).1
      refine ⟨z, rfl, fun hmem => ?_⟩
      obtain ⟨mid, heq, -⟩ | ⟨mid, heq, hrest⟩ := List.append_eq_append_iff.1 hsplit
      · have hlen := congrArg List.length hsplit
        simp only [heq, List.length_append, List.length_cons, List.length_nil] at hlen
        have : mid = [] := List.eq_nil_of_length_eq_zero (by omega)
        subst this
        rw [List.append_nil] at heq
        exact hline (heq ▸ hmem)
      · exact hline (heq ▸ List.mem_append_left mid hmem)
  have hfrom : m.CodeFrom 0 (x ++ 'i' :: y) := ⟨[], hsplit, rfl⟩
  have hstart := hfrom.lineStart_add (fun hmem =>
    absurd (bne_newline_of_mem_bytes hx _ hmem) (by simp))
  have hslice := hfrom.codeSlice
  rw [Nat.zero_add] at hstart hslice
  unfold beginsLine isBlank
  rw [hstart, (isLineStart_zero m).lineStart_eq, hslice, hz]
  unfold Text.allBlank
  rw [List.all_cons, hblank, Bool.false_and]

/-! ## Whole lines before a text -/

/-- Whole lines that the scan leaves as it enters them. -/
structure SolidLines (t : List Char) : Prop extends Solid t where
  last : ∀ c ∈ t.getLast?, c = '\n'

namespace SolidLines

variable {s t : List Char}

theorem lined (h : SolidLines s) : (ofSource .go s).Lined :=
  lined_ofSource h.last

theorem size_eq (h : SolidLines s) : (ofSource .go s).size = Text.byteLength s :=
  h.lined.size_eq

/-- A text behind whole lines is masked on its own. -/
theorem ofSource_append (h : SolidLines s) (t : List Char) :
    ofSource .go (s ++ t) = (ofSource .go s).append (ofSource .go t) :=
  Masked.ofSource_append (h.toSolid.mask_append t)

theorem prepend (ht : SolidLines t) (hs : Solid s) (hne : t ≠ []) : SolidLines (s ++ t) := by
  refine ⟨hs.append ht.toSolid, fun c hc => ?_⟩
  rw [List.getLast?_append_of_ne_nil _ hne] at hc
  exact ht.last c hc

theorem append (hs : SolidLines s) (ht : SolidLines t) : SolidLines (s ++ t) := by
  cases t with
  | nil =>
    rw [List.append_nil]
    exact hs
  | cons d t => exact ht.prepend hs.toSolid (List.cons_ne_nil d t)

theorem of_newline (h : Solid (s ++ ['\n'])) : SolidLines (s ++ ['\n']) := by
  refine ⟨h, fun c hc => ?_⟩
  rw [List.getLast?_concat] at hc
  exact (Option.some.inj hc).symm

/-- A line begins behind whole lines. -/
theorem isLineStart (h : SolidLines s) (t : List Char) :
    (ofSource .go (s ++ t)).IsLineStart (Text.byteLength s) := by
  rw [h.ofSource_append, ← h.size_eq]
  rcases h.lined.isLineStart_size with hzero | ⟨n, hn, hbyte⟩
  · exact .inl hzero
  · refine .inr ⟨n, hn, ?_⟩
    rw [getElem?_append_of_lt (by omega)]
    exact hbyte

end SolidLines

/-- Whole lines none of which begins with the keyword. -/
structure ImportlessLines (t : List Char) : Prop extends SolidLines t where
  importless : (ofSource .go t).Importless

theorem ImportlessLines.append {s t : List Char} (hs : ImportlessLines s) (ht : ImportlessLines t) :
    ImportlessLines (s ++ t) := by
  refine ⟨hs.toSolidLines.append ht.toSolidLines, ?_⟩
  rw [hs.ofSource_append]
  exact hs.importless.append hs.lined ht.importless

theorem importlessLines_of_hidden {t : List Char} (h : Hidden (t ++ ['\n'])) :
    ImportlessLines (t ++ ['\n']) :=
  ⟨.of_newline h.toSolid, importless_of_not_mem fun hmem => by
    rcases h.blank _ hmem with heq | heq <;> exact absurd heq (by decide)⟩

theorem importlessLines_bare {c : Char} {line : List Char} (hc : c ≠ 'i')
    (hblank : Text.isBlank c = false)
    (hline : ∀ d ∈ c :: line, d ≠ '\n' ∧ isBareChar d = true ∧ isDelimiter d = false) :
    ImportlessLines (c :: line ++ ['\n']) := by
  have hflat : Flat (c :: line ++ ['\n']) :=
    (flat_of_chars fun d hd => (hline d hd).2).append (flat_of_chars (by decide))
  have hcode : (ofSource .go (c :: line ++ ['\n'])).code = c :: line ++ ['\n'] := by
    refine mask_of_isBare (isBare_of_all (List.all_eq_true.2 fun d hd => ?_))
    rcases List.mem_append.1 hd with hd | hd
    · exact (hline d hd).2.1
    · rw [List.mem_singleton.1 hd]
      decide
  exact ⟨.of_newline hflat.toSolid,
    importless_line hcode hc hblank fun hmem => (hline _ hmem).1 rfl⟩

theorem CodeFrom.eq_of_hasChar {i : Nat} {c d : Char} {rest : List Char}
    (h : m.CodeFrom i (c :: rest)) (hd : d.utf8Size = 1) (hchar : m.hasChar i d = true) :
    c = d := by
  have hbyte := h.getElem? 0
  rw [Nat.add_zero, hasChar_iff.1 hchar, Text.bytes_cons] at hbyte
  by_cases hc : c.utf8Size = 1
  · rw [Text.utf8EncodeChar_of_narrow hc] at hbyte
    exact Text.eq_of_toUInt8_eq hc hd (Option.some.inj hbyte).symm
  · have hpos : 0 < (String.utf8EncodeChar c).length := by
      rw [String.length_utf8EncodeChar]
      exact c.utf8Size_pos
    rw [List.getElem?_append_left hpos] at hbyte
    have := Text.le_of_mem_wide hc (List.mem_of_getElem? hbyte.symm)
    exact absurd (Text.toUInt8_lt_of_narrow hd) (UInt8.not_lt.2 this)

/-- A place of the keyword at the start of a line. -/
theorem TextFrom.mem_wordStarts_import {rest : List Char} {k : Nat}
    (h : m.TextFrom k ("import".toList ++ ' ' :: rest)) (hstart : m.IsLineStart k) :
    k ∈ m.wordStarts "import" := by
  have hcode := h.code_plain (show Plain "import".toList by unfold Plain; decide)
  rw [mask_cons (by decide)] at hcode
  refine mem_wordStarts.2 ⟨?_, ?_⟩
  · rw [hcode.size_eq, Text.byteLength_append]
    have : Text.byteLength "import".toList = 6 := by decide
    omega
  · have hbytes := hcode.drop_bytes
    rw [Text.bytes_append, Text.bytes_cons_of_narrow (by decide)] at hbytes
    unfold wordAt wordHere
    rw [hbytes, List.drop_left, Bool.and_eq_true, Bool.and_eq_true]
    exact ⟨⟨List.isPrefixOf_iff_prefix.2 (List.prefix_append _ _), hstart.breaksWord⟩, rfl⟩

end Masked

namespace Go

/-! ## The head of a file -/

/-- What stands before the import clause of a file. -/
def preamble (package : String) : List Char :=
  (banner ++ "\n\npackage " ++ package ++ "\n\n").toList

theorem toList_of_headerText? {package body header : String} {specs : List String}
    (h : headerText? package specs body = some header) :
    header.toList = preamble package ++ (importClause (keptImports specs body)).toList := by
  obtain ⟨-, rfl⟩ := headerText?_eq_some_iff.1 h
  exact String.toList_append

/-- No line before the import clause begins with the keyword. -/
theorem importlessLines_preamble {package : String} (h : IsNameText package.toList) :
    ImportlessLines (preamble package) := by
  have hbanner : ImportlessLines (banner.toList ++ ['\n']) :=
    importlessLines_of_hidden (hidden_comment (by decide) (by decide))
  have hnewline : ImportlessLines ['\n'] := @importlessLines_of_hidden [] hidden_newline
  have hpackage : ImportlessLines ("package ".toList ++ package.toList ++ ['\n']) := by
    refine @importlessLines_bare 'p' ("ackage ".toList ++ package.toList) (by decide) (by decide)
      fun d hd => ?_
    rcases List.mem_append.1 (show d ∈ "package ".toList ++ package.toList from hd) with hd | hd
    · exact (show ∀ d ∈ "package ".toList,
        d ≠ '\n' ∧ isBareChar d = true ∧ isDelimiter d = false by decide) d hd
    · obtain ⟨hblank, hchar⟩ := isNameChar_spec (List.all_eq_true.1 h.2 d hd)
      refine ⟨?_, hchar⟩
      rintro rfl
      exact absurd hblank (by decide)
  have hparts : preamble package = banner.toList ++ ['\n'] ++ ['\n'] ++
      ("package ".toList ++ package.toList ++ ['\n']) ++ ['\n'] := by
    unfold preamble
    simp [String.toList_append]
  rw [hparts]
  exact ((hbanner.append hnewline).append hpackage).append hnewline

/-! ## The clause of a header -/

/-- The parts of a clause: its opening, what is read of it, and its closing. -/
structure ClauseParts (is : List Import) (opening text closing : List Char) : Prop where
  imports : clauseImports text = is
  keyword : ∃ rest, opening = "import".toList ++ ' ' :: rest
  solid_opening : Solid opening
  solid_text : Solid text
  lines_closing : SolidLines closing
  closing_ne_nil : closing ≠ []
  /-- The keyword does not stand in the closing. -/
  closing_code : 'i' ∉ mask .go closing
  found : ∀ {m : Masked} {k : Nat} {rest : List Char},
    m.TextFrom k (opening ++ (text ++ (closing ++ rest))) →
      m.clauseAfter? (k + "import".length) = some ⟨k + Text.byteLength opening,
        k + Text.byteLength opening + Text.byteLength text⟩

/-- A clause of one line. -/
theorem clauseParts_line {i : Import} (h : i.WellFormed) :
    ClauseParts [i] "import ".toList i.line.toList ['\n', '\n'] := by
  have hclosing : Hidden ['\n', '\n'] := hidden_newline.append hidden_newline
  refine ⟨clauseImports_line h, ⟨[], rfl⟩, solid_of_bare rfl, (flat_line h).toSolid,
    @SolidLines.of_newline ['\n'] hclosing.toSolid, by decide, fun hmem => ?_,
    fun {m k rest} ht => ?_⟩
  · rcases hclosing.blank _ hmem with heq | heq <;> exact absurd heq (by decide)
  · obtain ⟨c, cs, hmask, hc⟩ := exists_mask_line h
    have hkeyword : m.TextFrom (k + 6) (' ' :: (i.line.toList ++ ('\n' :: ('\n' :: rest)))) :=
      TextFrom.drop_plain (a := "import".toList) ht (by unfold Plain; decide)
    have hline := hkeyword.drop_char (by decide)
    have hcode := hkeyword.2
    have hlineCode := hline.2
    rw [mask_cons (by decide)] at hcode
    rw [(flat_line h).toSolid.mask_append, hmask] at hcode hlineCode
    rw [mask_cons (c := '\n') (by decide)] at hlineCode
    have hskip : m.skipBlank? (k + 6) = some (k + 7) :=
      CodeFrom.skipBlank? (a := [' ']) hcode (by decide) hc
    have hparen : m.hasChar (k + 7) '(' = false := by
      refine Bool.eq_false_iff.2 fun hchar => ?_
      have := (flat_line h).undelimited c (hmask ▸ List.mem_cons_self)
      rw [hlineCode.eq_of_hasChar (by decide) hchar] at this
      exact absurd this (by decide)
    have hstop : m.lineStop (k + 7) = k + 7 + Text.byteLength i.line.toList := by
      have hnewline := @newline_not_mem_mask .go _ h.newline_not_mem_line
      rw [hmask] at hnewline
      rw [hlineCode.lineStop hnewline, ← hmask, byteLength_mask (flat_line h).closed]
    show m.clauseAfter? (k + 6) = some ⟨k + 7, k + 7 + _⟩
    unfold Masked.clauseAfter?
    simp only [hskip, hparen, Bool.false_eq_true, if_false, hstop]

/-- A clause with parentheses. -/
theorem clauseParts_block {is : List Import} (h : ∀ i ∈ is, i.WellFormed) :
    ClauseParts is "import (".toList (blockText is) [')', '\n', '\n'] := by
  have hclosing : Solid [')', '\n', '\n'] := solid_of_bare rfl
  refine ⟨clauseImports_block h, ⟨['('], rfl⟩, solid_of_bare rfl, (flat_block h).toSolid,
    @SolidLines.of_newline [')', '\n'] hclosing, by decide, by decide, fun {m k rest} ht => ?_⟩
  have hkeyword : m.TextFrom (k + 6)
      (' ' :: ('(' :: (blockText is ++ (')' :: ('\n' :: '\n' :: rest))))) :=
    TextFrom.drop_plain (a := "import".toList) ht (by unfold Plain; decide)
  have hopened := hkeyword.drop_char (by decide)
  have hcode := hkeyword.2
  rw [mask_cons (by decide), mask_cons (by decide)] at hcode
  have hskip : m.skipBlank? (k + 6) = some (k + 7) :=
    CodeFrom.skipBlank? (a := [' ']) hcode (by decide) (by decide)
  have hparen : m.hasChar (k + 7) '(' = true := hopened.hasChar (by decide) (by decide)
  have hcloser : m.closer? (k + 7) = some (k + 8 + Text.byteLength (blockText is)) :=
    hopened.closer? (d := .paren) (flat_block h).regular
  show m.clauseAfter? (k + 6) = some ⟨k + 8, k + 8 + _⟩
  unfold Masked.clauseAfter?
  simp only [hskip, hparen, if_true, hcloser, Option.map_some]

/-- A clause of imports has parts. -/
theorem exists_clauseParts {is : List Import} (h : ∀ i ∈ is, i.WellFormed) (hne : is ≠ []) :
    ∃ opening text closing, (importClause is).toList = opening ++ (text ++ closing) ∧
      ClauseParts is opening text closing := by
  match is, hne with
  | [i], _ =>
    refine ⟨_, _, _, ?_, clauseParts_line (h i List.mem_cons_self)⟩
    simp [importClause, String.toList_append]
  | i :: j :: is, _ =>
    refine ⟨_, _, _, ?_, clauseParts_block h⟩
    simp [importClause, blockText, String.toList_append, List.flatMap_map]

end Go

namespace Masked

open Go

variable {is : List Import} {before opening text closing body : List Char}

/-- The clause of a header is the only one when no line of the body begins with the keyword. -/
theorem imports?_of_clauseParts (hbefore : ImportlessLines before)
    (h : ClauseParts is opening text closing) (hbody : (ofSource .go body).Importless) :
    (ofSource .go (before ++ (opening ++ (text ++ (closing ++ body))))).imports? = some is := by
  generalize hm : ofSource .go (before ++ (opening ++ (text ++ (closing ++ body)))) = m
  have hfirst : m = (ofSource .go before).append
      (ofSource .go (opening ++ (text ++ (closing ++ body)))) := by
    rw [← hm, hbefore.ofSource_append]
  have hhead : SolidLines (before ++ (opening ++ (text ++ closing))) := by
    have htext := h.lines_closing.prepend h.solid_text h.closing_ne_nil
    have hopening := htext.prepend h.solid_opening (List.append_ne_nil_of_right_ne_nil _
      h.closing_ne_nil)
    exact hbefore.toSolidLines.append hopening
  have hlast : m = (ofSource .go (before ++ (opening ++ (text ++ closing)))).append
      (ofSource .go body) := by
    rw [← hm, ← hhead.ofSource_append]
    simp only [List.append_assoc]
  have htext : m.TextFrom (Text.byteLength before) (opening ++ (text ++ (closing ++ body))) := by
    have := (TextFrom.start (before ++ (opening ++ (text ++ (closing ++ body))))).drop_solid
      hbefore.toSolid
    rwa [Nat.zero_add, hm] at this
  have hstart : m.IsLineStart (Text.byteLength before) := hm ▸ hbefore.isLineStart _
  have hclause := h.found htext
  have hread := htext.drop_solid h.solid_opening
  have hbehind := hread.drop_solid h.solid_text
  -- the keyword stands nowhere in what closes the clause
  have hclosing : ∀ p ∈ m.wordStarts "import",
      Text.byteLength before + Text.byteLength opening + Text.byteLength text ≤ p →
        m.beginsLine p = false := by
    intro p hp hle
    by_cases hlt : p < (ofSource .go (before ++ (opening ++ (text ++ closing)))).size
    · have hfirst : m.bytes[p]? = some 'i'.toUInt8 :=
        getElem?_of_wordAt (k := 0) (mem_wordStarts.1 hp).2 rfl
      have hcode := hbehind.code_append h.lines_closing.closed fun hslash =>
        absurd hslash h.lines_closing.no_slash
      obtain ⟨j, rfl⟩ := Nat.exists_eq_add_of_le hle
      rw [hhead.size_eq] at hlt
      simp only [Text.byteLength_append] at hlt
      rw [hcode.getElem?, Text.bytes_append, List.getElem?_append_left (by
        rw [Text.length_bytes, byteLength_mask h.lines_closing.closed]
        omega)] at hfirst
      obtain ⟨x, c, y, hmask, -, hc, hbyte⟩ := Text.exists_split_of_ascii hfirst (by decide)
      obtain rfl := Text.eq_of_toUInt8_eq hc (by decide) hbyte
      exact absurd (by rw [hmask]; simp) h.closing_code
    · rw [hlast] at hp ⊢
      exact hbody.beginsLine_of_le hhead.lined hp (Nat.le_of_not_lt hlt)
  obtain ⟨rest, hkeyword⟩ := h.keyword
  have hmem : Text.byteLength before ∈ m.wordStarts "import" := by
    rw [hkeyword, List.append_assoc] at htext
    exact htext.mem_wordStarts_import hstart
  have hpassed : ∀ p ∈ m.wordStarts "import", p < Text.byteLength before →
      m.beginsLine p = false ∧ p + "import".length ≤ Text.byteLength before := by
    intro p hp hlt
    refine ⟨?_, ?_⟩
    · rw [hfirst] at hp ⊢
      exact hbefore.importless.beginsLine_of_lt hbefore.lined hp (by rwa [hbefore.size_eq])
    · exact add_length_le_of_lt (by decide) (mem_wordStarts.1 hp).2 (mem_wordStarts.1 hmem).2 hlt
  have hcut : Text.cut? (Text.byteLength before + Text.byteLength opening)
      (Text.byteLength before + Text.byteLength opening + Text.byteLength text) m.source =
        some text := by
    obtain ⟨a, hsource, ha⟩ := hread.1
    exact Text.cut?_eq_some_iff.2 ⟨a, _, hsource, ha, rfl⟩
  have := importsFrom?_clause (pairwise_wordStarts m "import") hmem (Nat.zero_le _) hpassed
    hstart.beginsLine hclause hcut hclosing
  rwa [h.imports] at this

/-- Behind lines without a clause a text has its own imports, here none. -/
theorem imports?_of_importless (hbefore : ImportlessLines before)
    (hbody : (ofSource .go body).Importless) :
    (ofSource .go (before ++ body)).imports? = some [] := by
  unfold imports?
  rw [hbefore.ofSource_append]
  exact importsFrom?_of_not_beginsLine fun p hp _ =>
    hbefore.importless.append hbefore.lined hbody p hp

end Masked

namespace Go

theorem keptImports_spec {specs : List String} {body : String}
    (hspecs : ∀ s ∈ specs, ∃ i : Import, i.WellFormed ∧ i.IsWrittenAs s) :
    ∀ i ∈ keptImports specs body, i.WellFormed ∧ ∃ s ∈ specs, i.IsWrittenAs s := by
  intro i hi
  obtain ⟨⟨s, hs, rfl⟩, -⟩ := mem_keptImports.1 hi
  obtain ⟨i, hi, hwritten⟩ := hspecs s hs
  rw [hi.ofSpec_eq hwritten]
  exact ⟨hi, s, hs, hwritten⟩

/-- The imports of a header before its body are those that it keeps. -/
theorem imports?_headerText? {package body header : String} {specs : List String}
    (hpackage : IsNameText package.toList)
    (hspecs : ∀ s ∈ specs, ∃ i : Import, i.WellFormed ∧ i.IsWrittenAs s)
    (hbody : (ofSource .go body.toList).Importless)
    (h : headerText? package specs body = some header) :
    (ofSource .go (header ++ body).toList).imports? = some (keptImports specs body) := by
  have hkept : ∀ i ∈ keptImports specs body, i.WellFormed := fun i hi =>
    (keptImports_spec hspecs i hi).1
  have hpreamble := importlessLines_preamble hpackage
  rw [String.toList_append, toList_of_headerText? h]
  generalize keptImports specs body = kept at hkept ⊢
  by_cases hnil : kept = []
  · rw [hnil, show (importClause []).toList = [] from rfl, List.append_nil]
    exact imports?_of_importless hpreamble hbody
  · obtain ⟨opening, text, closing, hclause, hparts⟩ := exists_clauseParts hkept hnil
    rw [hclause]
    simp only [List.append_assoc]
    exact imports?_of_clauseParts hpreamble hparts hbody

end Go

namespace ClientFile

open Go

/-- Well-formed specs have a header before every body. It is written with the clause of the imports
that it keeps, which are well formed as their specs are, and it is read back before the body with
these imports, in order. Only statements of the body that cannot be laid out keep the file from being
read. -/
theorem imports_headerText {package body : String} {specs : List String}
    (hpackage : IsNameText package.toList)
    (hspecs : ∀ s ∈ specs, ∃ i : Import, i.WellFormed ∧ i.IsWrittenAs s)
    (hbody : (ofSource .go body.toList).Importless) (options : ClientOptions) :
    ∃ header, headerText? package specs body = some header ∧
      header = banner ++ "\n\npackage " ++ package ++ "\n\n" ++
        importClause (keptImports specs body) ∧
      (∀ i ∈ keptImports specs body, i.WellFormed ∧ ∃ s ∈ specs, i.IsWrittenAs s) ∧
      (∀ file, read? options (header ++ body) = some file →
        file.imports = keptImports specs body) ∧
      (read? options (header ++ body) = none ↔
        ∃ t, (ofSource .go (header ++ body).toList).StatementText options.primitives t ∧
          Text.Ragged (Client.without t 0 (ofSource .go t).errorBlocks)) := by
  have hnames : ∀ s ∈ specs, (Import.ofSpec s).name ≠ "" := by
    intro s hs
    obtain ⟨i, hi, hwritten⟩ := hspecs s hs
    rw [hi.ofSpec_eq hwritten]
    exact hi.name_ne_empty
  have hheader := headerText?_of_names hnames package body
  have himports := imports?_headerText? hpackage hspecs hbody hheader
  refine ⟨_, hheader, rfl, keptImports_spec hspecs, fun file hfile => ?_, ?_⟩
  · exact Option.some.inj ((isReadFrom hfile).imports.symm.trans himports)
  · rw [read?_eq_none_iff, ← imports?_eq_none_iff, himports]
    exact or_iff_left (Option.some_ne_none _)

/-- A clause with parentheses and an alias is read back. -/
theorem imports_headerText_alias :
    IsNameText "p".toList ∧
    (∀ s ∈ ["fmt", " _ \t a-b/c.d"], ∃ i : Import, i.WellFormed ∧ i.IsWrittenAs s) ∧
    (ofSource .go "fmt.X()\n".toList).Importless ∧
    ∃ header, headerText? "p" ["fmt", " _ \t a-b/c.d"] "fmt.X()\n" = some header ∧
      ∃ file, read? ⟨["CallRPC"], none⟩ (header ++ "fmt.X()\n") = some file ∧
        file.imports = [⟨none, "fmt"⟩, ⟨some "_", "a-b/c.d"⟩] := by
  have hpackage : IsNameText "p".toList := by decide
  have hbody : (ofSource .go "fmt.X()\n".toList).Importless := by decide +kernel
  have helement {t : List Char} (h : t ≠ [] ∧ t.all isElementChar = true) : IsElement t := h
  have hpath : IsPath "a-b/c.d".toList :=
    .more (e := "a-b".toList) (t := "c.d".toList) (helement (by decide))
      (.element (helement (by decide)))
  have hspecs : ∀ s ∈ ["fmt", " _ \t a-b/c.d"], ∃ i : Import, i.WellFormed ∧ i.IsWrittenAs s := by
    intro s hs
    rcases List.mem_cons.1 hs with rfl | hs
    · exact ⟨⟨none, "fmt"⟩, ⟨nofun, .element (helement (by decide))⟩, [], _, [], rfl, rfl, rfl, rfl⟩
    · obtain rfl := List.mem_singleton.1 hs
      refine ⟨⟨some "_", "a-b/c.d"⟩, ⟨fun a ha => .inl ?_, hpath⟩, [' '], _, [], rfl, by decide,
        by decide, ' ', ['\t', ' '], by decide, by decide, rfl⟩
      obtain rfl := Option.some.inj ha
      decide
  have hkept : keptImports ["fmt", " _ \t a-b/c.d"] "fmt.X()\n" =
      [⟨none, "fmt"⟩, ⟨some "_", "a-b/c.d"⟩] := by decide +kernel
  obtain ⟨header, hheader, heq, -, hread, -⟩ :=
    imports_headerText hpackage hspecs hbody ⟨["CallRPC"], none⟩
  have hsome : (read? ⟨["CallRPC"], none⟩ (header ++ "fmt.X()\n")).isSome = true := by
    rw [heq, hkept]
    decide +kernel
  obtain ⟨file, hfile⟩ := Option.isSome_iff_exists.1 hsome
  exact ⟨hpackage, hspecs, hbody, header, hheader, file, hfile, (hread file hfile).trans hkept⟩

/-- A method that uses a package and whose statements are indented by different blanks. -/
def raggedBody : String :=
  "func (c *C) A() (y T, err error) \x7b\n\u00a0fmt.X()\n z()\n" ++
    "\terr = c.CallRPC(&y, \"a\")\n\treturn\n\x7d\n"

/-- The header of such a body is not read back, though it keeps a well-formed import. -/
theorem imports_headerText_raggedBody :
    IsNameText "p".toList ∧ (∃ i : Import, i.WellFormed ∧ i.IsWrittenAs "fmt") ∧
      (ofSource .go raggedBody.toList).Importless ∧
      keptImports ["fmt"] raggedBody = [⟨none, "fmt"⟩] ∧
      ∃ header, headerText? "p" ["fmt"] raggedBody = some header ∧
        read? ⟨["CallRPC"], none⟩ (header ++ raggedBody) = none := by
  have hpath : IsPath "fmt".toList := .element (by unfold IsElement; decide)
  have hbody : (ofSource .go raggedBody.toList).Importless := by decide +kernel
  have hkept : keptImports ["fmt"] raggedBody = [⟨none, "fmt"⟩] := by decide +kernel
  have hheader := @headerText?_of_names ["fmt"] (by decide) "p" raggedBody
  have hread : (read? ⟨["CallRPC"], none⟩ (banner ++ "\n\npackage " ++ "p" ++ "\n\n" ++
      importClause [⟨none, "fmt"⟩] ++ raggedBody)).isNone = true := by decide +kernel
  rw [← hkept] at hread
  exact ⟨by decide, ⟨⟨none, "fmt"⟩, ⟨nofun, hpath⟩, [], _, [], rfl, rfl, rfl, rfl⟩, hbody, hkept,
    _, hheader, Option.isNone_iff_eq_none.1 hread⟩

end ClientFile

end RpcBindings
