import RpcBindings.Proofs.Client.BlockCut
import RpcBindings.Proofs.Client.Entries
import RpcBindings.Proofs.Client.KeptStatements
import RpcBindings.Proofs.Masked.Index
import RpcBindings.Proofs.Masked.Splitting

/-!
Cuts that read a client file.

`FileCut` lists the parts that are cut out of a client file and of its masked copy while its functions
are read. Main statement (`FileCut.isSome_cut?`): each of them falls between characters, in order and
inside the text, whatever the file holds. Not in the list are the clauses of imports and the
indentation of statements, which may fall elsewhere.
-/

namespace RpcBindings.Masked

variable {m : Masked} {primitives : List String} {i j : Nat}

/-! ## Statements around a call -/

/-- The texts before and behind the call of a method. -/
def siteTexts (m : Masked) (c : CallSite) : List (List Char) :=
  [m.slice c.bodyStart c.statement, afterCall (m.slice (c.args.stop + 1) c.returnAt)]

/-- The text stands before or behind the call of some function. -/
def StatementText (m : Masked) (primitives : List String) (t : List Char) : Prop :=
  ∃ f ∈ m.functions, ∃ c, m.siteOf? primitives f = some c ∧ t ∈ m.siteTexts c

section Source

variable {source : List Char}

/-- The statements before a call tear no character: they end with a border of one byte. -/
theorem unsplit_before {f : FunctionSpan} {name : Span} {c : CallSite}
    (hf : f ∈ (ofSource .go source).functions)
    (hc : (ofSource .go source).callSite primitives f name = .ok c) :
    Unsplit (glyphs .go ((ofSource .go source).slice c.bodyStart c.statement)) := by
  have hcode := siteInCode hf hc
  refine unsplit_glyphs fun ⟨hmode, d, hlast, hwide⟩ => ?_
  obtain ⟨-, heq | ⟨k, b, hk, hle, hb, hborder⟩⟩ := statement_spec hf hc
  · have hempty : (ofSource .go source).slice c.bodyStart c.statement = [] := by
      rw [heq]
      unfold slice Text.cut
      rw [Nat.sub_self, Text.takeBytes]
    rw [hempty] at hlast
    exact absurd hlast (by simp)
  · obtain ⟨e, rfl, hnarrow, hspace, -⟩ := exists_border hborder
    have hchar := hasChar_iff.2 hb
    have hcut := cutsAt_of_hasChar hchar hnarrow hspace
    rw [hk, slice_append hcode.bodyStart.cutsAt hcut.1 hcut.2 hle (Nat.le_succ k),
      slice_of_hasChar hchar hnarrow hspace, List.getLast?_concat] at hlast
    exact hwide (Option.some.inj hlast ▸ hnarrow)

/-- The statements behind a call tear no character: they end in code. -/
theorem unsplit_after {f : FunctionSpan} {name : Span} {c : CallSite}
    (hf : f ∈ (ofSource .go source).functions)
    (hc : (ofSource .go source).callSite primitives f name = .ok c) :
    Unsplit (glyphs .go (afterCall ((ofSource .go source).slice (c.args.stop + 1) c.returnAt))) := by
  have hcode := siteInCode hf hc
  obtain ⟨a, t, rest, w, -, -, -, hslice, hend, -, -⟩ :=
    hcode.args_end.exists_between hcode.returnAt hcode.args_lt
  obtain ⟨line, ht, hmask, -⟩ := exists_mask_afterCall t
  rw [hslice]
  refine unsplit_of_byteLength_eq ?_
  have hlen := (whole_of_endMode hend).unsplit.byteLength_mask
  rw [hmask, Text.byteLength_append] at hlen
  have hsplit := congrArg Text.byteLength ht
  rw [Text.byteLength_append] at hsplit
  omega

theorem StatementText.unsplit {t : List Char}
    (h : (ofSource .go source).StatementText primitives t) : Unsplit (glyphs .go t) := by
  obtain ⟨f, hf, c, hsite, ht⟩ := h
  obtain ⟨receiver, name, -, -, hc⟩ := siteOf?_eq_some hsite
  simp only [siteTexts, List.mem_cons, List.not_mem_nil, or_false] at ht
  rcases ht with rfl | rfl
  · exact unsplit_before hf hc
  · exact unsplit_after hf hc

end Source

/-! ## The cuts -/

/-- The cuts that are made while the functions of a file are read: the text that is cut, and the
offsets. -/
inductive FileCut (m : Masked) (primitives : List String) : List Char → Nat → Nat → Prop
  /-- What stands before a keyword on its line. -/
  | line {word : String} {i : Nat} (mem : word ∈ ["func", "import"])
      (keyword : i ∈ m.wordStarts word) : FileCut m primitives m.code (m.lineStart i) i
  /-- What stands before a brace that may open a body. -/
  | opener {start opened : Nat} (brace : m.findTopLevel? start m.size '\x7b' = some opened) :
      FileCut m primitives m.code 0 opened
  /-- A line above a function that may be a comment. -/
  | above {start : Nat} (line : m.IsLineStart start) (pos : 0 < start) :
      FileCut m primitives m.source (m.lineStart (start - 1)) start
  /-- What stands before the line feed above a line. -/
  | newline {start : Nat} (line : m.IsLineStart start) (pos : 0 < start) :
      FileCut m primitives m.code (m.lineStart (start - 1)) (start - 1)
  /-- The comments above the first function. -/
  | leading {f : FunctionSpan} {fs : List FunctionSpan} (first : m.functions = f :: fs) :
      FileCut m primitives m.source (m.decorationStart f.start) f.start
  /-- The comments between two functions. -/
  | between {f g : FunctionSpan} {before after : List FunctionSpan}
      (next : m.functions = before ++ f :: g :: after) :
      FileCut m primitives m.source (f.closed + 1) g.start
  /-- The comments behind the last function. -/
  | behind {f : FunctionSpan} {before : List FunctionSpan} (last : m.functions = before ++ [f]) :
      FileCut m primitives m.source (f.closed + 1) m.sourceSize
  | whole {f : FunctionSpan} (mem : f ∈ m.functions) :
      FileCut m primitives m.source f.start (f.closed + 1)
  | receiver {i : Nat} {s : Span} (parens : m.parensAfter? i = some s) :
      FileCut m primitives m.source (s.start + 1) s.stop
  | name {i : Nat} {s : Span} (ident : m.nameAfter? i = some s) :
      FileCut m primitives m.source s.start s.stop
  | signature {i : Nat} {name params : Span} (ident : m.nameAfter? i = some name)
      (parens : m.parensAfter? name.stop = some params) :
      FileCut m primitives m.source name.start (params.stop + 1)
  /-- A result or an argument. -/
  | piece {opened closed : Nat} {s : Span} (opens : m.hasChar opened '(' = true)
      (closes : m.closer? opened = some closed)
      (mem : s ∈ m.splitTopLevel (opened + 1) closed ',') :
      FileCut m primitives m.source s.start s.stop
  /-- What stands behind the last comma of a list. -/
  | lastPiece {opened closed : Nat} (opens : m.hasChar opened '(' = true)
      (closes : m.closer? opened = some closed) :
      FileCut m primitives m.code (piecesFrom ','.toUInt8 0 (opened + 1) (opened + 1)
        (m.byteSlice (opened + 1) closed)).2 closed
  | body {f : FunctionSpan} (mem : f ∈ m.functions) :
      FileCut m primitives m.code f.body.start f.body.stop
  /-- What stands in a body before its first call. -/
  | toCall {f : FunctionSpan} {offset : Nat} {primitive : String} (mem : f ∈ m.functions)
      (call : firstCall? (m.byteSlice f.body.start f.body.stop) primitives =
        some (offset, primitive)) :
      FileCut m primitives m.code f.body.start (f.body.start + offset)
  /-- What stands in a statement before its call. -/
  | assigned {f : FunctionSpan} {offset : Nat} {primitive : String} (mem : f ∈ m.functions)
      (call : firstCall? (m.byteSlice f.body.start f.body.stop) primitives =
        some (offset, primitive)) :
      FileCut m primitives m.code (m.statementStart f.body.start (f.body.start + offset))
        (f.body.start + offset)
  /-- The statements before a call. -/
  | before {f : FunctionSpan} {c : CallSite} (mem : f ∈ m.functions)
      (site : m.siteOf? primitives f = some c) :
      FileCut m primitives m.source c.bodyStart c.statement
  /-- The statements behind a call. -/
  | after {f : FunctionSpan} {c : CallSite} (mem : f ∈ m.functions)
      (site : m.siteOf? primitives f = some c) :
      FileCut m primitives m.source (c.args.stop + 1) c.returnAt
  /-- A cut that leaves out error blocks of some statements. -/
  | block {t text : List Char} {i j : Nat} (statements : m.StatementText primitives t)
      (cut : (ofSource .go t).BlockCut text i j) : FileCut m primitives text i j

section Source

variable {source : List Char}

/-- A name begins and ends where a source can be cut. -/
theorem cutsAt_name {s : Span} (h : (ofSource .go source).nameAfter? i = some s) :
    (ofSource .go source).CutsAt s.start ∧ (ofSource .go source).CutsAt s.stop ∧
      s.start ≤ s.stop := by
  obtain ⟨-, hident⟩ := nameAfter?_eq_some h
  exact cutsAt_of_identAt? hident

/-- The braces of a function's body stand in order behind its keyword, where a source can be cut. -/
theorem cutsAt_function {f : FunctionSpan} (hf : f ∈ (ofSource .go source).functions) :
    (ofSource .go source).CutsAt f.start ∧ (ofSource .go source).CutsAt (f.opened + 1) ∧
      (ofSource .go source).CutsAt f.closed ∧ (ofSource .go source).CutsAt (f.closed + 1) ∧
      f.start ≤ f.opened ∧ f.opened + 1 ≤ f.closed := by
  obtain ⟨hkeyword, -, hopener, hcloses⟩ := mem_functions hf
  obtain ⟨hle, hopens⟩ := bodyOpener?_eq_some hopener
  have hfirst := hasChar_of_wordAt (k := 0) (c := 'f') hkeyword rfl
  have hcloser := cutsAt_of_closer? hcloses
  exact ⟨(cutsAt_of_hasChar hfirst (by decide) (by decide)).1,
    (cutsAt_of_hasChar hopens (by decide) (by decide)).2, hcloser.1, hcloser.2,
    Nat.le_trans (Nat.le_add_right _ _) hle, (lt_of_closer? hcloses).1⟩

/-- The pieces of a list between parentheses, and what stands behind its last comma, begin and end where
a source can be cut. -/
theorem cutsAt_pieces {opened closed : Nat} (hopens : (ofSource .go source).hasChar opened '(' = true)
    (hcloses : (ofSource .go source).closer? opened = some closed) {p : Span}
    (hp : p ∈ (piecesFrom ','.toUInt8 0 (opened + 1) (opened + 1)
        ((ofSource .go source).byteSlice (opened + 1) closed)).1 ++
      [⟨(piecesFrom ','.toUInt8 0 (opened + 1) (opened + 1)
        ((ofSource .go source).byteSlice (opened + 1) closed)).2, closed⟩]) :
    (ofSource .go source).CutsAt p.start ∧ (ofSource .go source).CutsAt p.stop ∧
      p.start ≤ p.stop := by
  obtain ⟨-, hstart, hstop, -, hle⟩ := cutsAt_parens hopens hcloses
  have hlaid := laid_piecesFrom ','.toUInt8 hle (Nat.le_of_lt (lt_of_closer? hcloses).2)
  exact hlaid.forall_ends (fun _ _ _ hend =>
    cutsAt_of_hasChar (hasChar_of_endsAt hend) (by decide) (by decide)) hstart hstop p hp

/-- The call of a body, and its statement, begin where a source can be cut. -/
theorem cutsAt_call {f : FunctionSpan} {offset : Nat} {primitive : String}
    (hf : f ∈ (ofSource .go source).functions)
    (hcall : firstCall? ((ofSource .go source).byteSlice f.body.start f.body.stop) primitives =
      some (offset, primitive)) :
    (ofSource .go source).CutsAt (f.body.start + offset) ∧
      (ofSource .go source).CutsAt
        ((ofSource .go source).statementStart f.body.start (f.body.start + offset)) ∧
      (ofSource .go source).statementStart f.body.start (f.body.start + offset) ≤
        f.body.start + offset := by
  obtain ⟨-, hprefix, -⟩ := firstCall?_eq_some hcall
  obtain ⟨hdot, -⟩ := call_spec (isPrefixOf_of_byteSlice hprefix)
  have hoffset := Nat.le_add_right f.body.start offset
  obtain ⟨-, hle, -⟩ := statementStart_spec (ofSource .go source) hoffset
  exact ⟨(cutsAt_of_hasChar hdot (by decide) (by decide)).1,
    cutsAt_statementStart_ofSource (cutsAt_function hf).2.1 hoffset, hle⟩

/-- A client file is read without a cut inside a character or outside a text. -/
theorem FileCut.isSome_cut? {text : List Char}
    (h : (ofSource .go source).FileCut primitives text i j) :
    (Text.cut? i j text).isSome = true := by
  cases h with
  | line mem keyword =>
    have hword := (mem_wordStarts.1 keyword).2
    have hcut : (ofSource .go source).CutsAt j := by
      simp only [List.mem_cons, List.not_mem_nil, or_false] at mem
      rcases mem with rfl | rfl
      · exact (cutsAt_of_hasChar (hasChar_of_wordAt (k := 0) (c := 'f') hword rfl)
          (by decide) (by decide)).1
      · exact (cutsAt_of_hasChar (hasChar_of_wordAt (k := 0) (c := 'i') hword rfl)
          (by decide) (by decide)).1
    exact (isLineStart_lineStart _ _).cutsAt.isSome_cut?_code hcut (lineStart_le _ _)
  | opener brace =>
    exact (cutsAt_zero _).isSome_cut?_code
      (cutsAt_of_hasChar (hasChar_of_findTopLevel? brace) (by decide) (by decide)).1 (Nat.zero_le _)
  | above line pos =>
    have hle := (ofSource .go source).lineStart_le (j - 1)
    exact (isLineStart_lineStart _ _).cutsAt.isSome_cut?_source line.cutsAt (by omega)
  | newline line pos =>
    obtain hzero | ⟨k, hk, hchar⟩ := line
    · omega
    · rw [hk, Nat.add_sub_cancel]
      exact (isLineStart_lineStart _ _).cutsAt.isSome_cut?_code
        (cutsAt_of_byte hchar (by decide) (by decide)).1 (lineStart_le _ _)
  | leading first =>
    exact (isLineStart_decorationFrom (isLineStart_lineStart _ _)).cutsAt.isSome_cut?_source
      (cutsAt_function (first ▸ List.mem_cons_self)).1
      (Nat.le_trans (decorationFrom_le _ _) (lineStart_le _ _))
  | between next =>
    rename_i f g before after
    have hpairwise := pairwise_functions (ofSource .go source)
    rw [next] at hpairwise
    have hlt : f.closed < g.start :=
      List.rel_of_pairwise_cons (List.pairwise_append.1 hpairwise).2.1 List.mem_cons_self
    exact (cutsAt_function (next ▸ by simp : f ∈ _)).2.2.2.1.isSome_cut?_source
      (cutsAt_function (next ▸ by simp : g ∈ _)).1 hlt
  | behind last => exact (cutsAt_function (last ▸ by simp)).2.2.2.1.isSome_cut?_rest
  | whole mem =>
    obtain ⟨hstart, -, -, hstop, hle, hlt⟩ := cutsAt_function mem
    exact hstart.isSome_cut?_source hstop (by omega)
  | receiver parens =>
    obtain ⟨-, -, hopens, hcloses⟩ := parensAfter?_eq_some parens
    obtain ⟨-, hstart, hstop, -, hle⟩ := cutsAt_parens hopens hcloses
    exact hstart.isSome_cut?_source hstop hle
  | name ident =>
    obtain ⟨hstart, hstop, hle⟩ := cutsAt_name ident
    exact hstart.isSome_cut?_source hstop hle
  | signature ident parens =>
    obtain ⟨hstart, -, hle⟩ := cutsAt_name ident
    obtain ⟨hle', -, hopens, hcloses⟩ := parensAfter?_eq_some parens
    obtain ⟨-, -, -, hstop, hlt⟩ := cutsAt_parens hopens hcloses
    exact hstart.isSome_cut?_source hstop (by omega)
  | piece opens closes mem =>
    obtain ⟨hstart, hstop, hle⟩ := cutsAt_pieces opens closes (mem_pieces mem)
    exact hstart.isSome_cut?_source hstop hle
  | lastPiece opens closes =>
    obtain ⟨hstart, hstop, hle⟩ :=
      cutsAt_pieces opens closes (List.mem_append_right _ (List.mem_singleton_self _))
    exact hstart.isSome_cut?_code hstop hle
  | body mem =>
    obtain ⟨-, hstart, hstop, -, -, hle⟩ := cutsAt_function mem
    exact hstart.isSome_cut?_code hstop hle
  | toCall mem call =>
    exact (cutsAt_function mem).2.1.isSome_cut?_code (cutsAt_call mem call).1 (Nat.le_add_right _ _)
  | assigned mem call =>
    obtain ⟨hdot, hstatement, hle⟩ := cutsAt_call mem call
    exact hstatement.isSome_cut?_code hdot hle
  | before mem site =>
    obtain ⟨receiver, name, -, -, hc⟩ := siteOf?_eq_some site
    have hcode := siteInCode mem hc
    exact hcode.bodyStart.cutsAt.isSome_cut?_source (statement_spec mem hc).1 hcode.body_le
  | after mem site =>
    obtain ⟨receiver, name, -, -, hc⟩ := siteOf?_eq_some site
    have hcode := siteInCode mem hc
    exact hcode.args_end.cutsAt.isSome_cut?_source hcode.returnAt.cutsAt hcode.args_lt
  | block statements cut => exact cut.isSome_cut? statements.unsplit

end Source

end RpcBindings.Masked
