import RpcBindings.Proofs.Client.Batch
import RpcBindings.Proofs.Go.Stub
import RpcBindings.Proofs.Masked.Lexeme
import RpcBindings.Proofs.Text.Reindent

/-!
The wire name of a method, and the argument that it is read from.

A name is read off an argument that begins and ends with a double quote, whatever stands between the
two. So of an expression that begins and ends with literals all between the outermost quotes is taken,
and a literal with a comment beside it gives no name. Main statement: the name of a method is the
inside of the string literal that it is called with, and none without one, iff its argument begins and
ends with quotes where it is a single literal, and only there (`wireName_literal_iff`).
-/

namespace RpcBindings

namespace Text

variable {t u : List Char} {c : Char}

/-- A character that is not blank stays at the end. -/
theorem exists_collapse_concat (hc : isBlank c = false) (t : List Char) :
    ∃ u, collapse (t ++ [c]) = u ++ [c] := by
  induction t with
  | nil => exact ⟨[], collapse_cons hc []⟩
  | cons d t ih =>
    obtain ⟨u, hu⟩ := ih
    rw [List.cons_append, collapse, hu]
    split
    · split
      · exact ⟨u, rfl⟩
      · exact ⟨' ' :: u, rfl⟩
    · exact ⟨d :: u, rfl⟩

end Text

namespace Masked

open Text Go

variable {arg body : List Char}

/-- A text is a single string literal among blanks and comments, and this stands between its quotes. -/
structure IsStringLiteral (arg body : List Char) : Prop where
  tokens_eq : tokens arg = [.literal (quoted body)]
  isStringBody : Lexeme.isStringBody body = true
  one_line : '\n' ∉ body

instance (arg body : List Char) : Decidable (IsStringLiteral arg body) :=
  decidable_of_iff (tokens arg = [.literal (quoted body)] ∧ Lexeme.isStringBody body = true ∧
      '\n' ∉ body)
    ⟨fun ⟨htokens, hbody, hline⟩ => ⟨htokens, hbody, hline⟩, fun h => ⟨h.1, h.2, h.3⟩⟩

/-! ## Quotes around a text -/

theorem quoted_inj {t u : List Char} (h : quoted t = quoted u) : t = u :=
  List.append_cancel_right (List.cons.inj h).2

theorem not_mem_quoted {t : List Char} (h : '\n' ∉ t) : '\n' ∉ quoted t := by
  intro hmem
  rcases List.mem_cons.1 hmem with hmem | hmem
  · exact absurd hmem (by decide)
  · rcases List.mem_append.1 hmem with hmem | hmem
    · exact h hmem
    · exact absurd hmem (by decide)

theorem ink_quoted (body : List Char) : ink (quoted body) = quoted (ink body) := by
  unfold quoted
  rw [ink_cons (by decide), ink_append]
  rfl

/-- A text without blanks around it begins and ends with quotes when it does so without its blanks. -/
theorem exists_quoted_of_ink {t u : List Char} (htrim : trim t = t) (h : ink t = quoted u) :
    ∃ body, t = quoted body := by
  cases t with
  | nil => exact absurd h nofun
  | cons c t =>
    have hends : EndsInInk (c :: t) := by
      rw [← htrim]
      exact endsInInk_trimEnd _
    rw [ink_cons (not_isBlank_of_trim_eq htrim)] at h
    obtain ⟨rfl, hrest⟩ := List.cons.inj h
    rcases List.eq_nil_or_concat' t with rfl | ⟨body, d, rfl⟩
    · exact absurd hrest.symm (List.append_ne_nil_of_right_ne_nil u (List.cons_ne_nil '"' []))
    · rw [← List.cons_append] at hends
      have hd : Text.isBlank d = false := hends d List.getLast?_concat
      rw [ink_append, ink_cons hd] at hrest
      obtain ⟨-, hlast⟩ := List.append_inj' hrest rfl
      obtain ⟨rfl, -⟩ := List.cons.inj hlast
      exact ⟨body, rfl⟩

/-! ## An argument on one line -/

theorem onOneLine_cases (arg : List Char) :
    onOneLine arg = trim arg ∨ onOneLine arg = collapse (trim arg) := by
  unfold onOneLine
  dsimp only
  split
  · rw [intercalate_words, trimStart_trim]
    exact .inr rfl
  · exact .inl rfl

/-- An argument begins and ends with quotes on one line iff it does so in the source, blanks apart. -/
theorem exists_quoted_onOneLine_iff :
    (∃ t, onOneLine arg = quoted t) ↔ ∃ t, trim arg = quoted t := by
  constructor
  · intro ⟨t, ht⟩
    refine exists_quoted_of_ink (trim_trim arg) (u := ink t) ?_
    rw [ink_trim, ← ink_onOneLine, ht, ink_quoted]
  · intro ⟨t, ht⟩
    rcases onOneLine_cases arg with h | h
    · exact ⟨t, h.trans ht⟩
    · obtain ⟨u, hu⟩ := exists_collapse_concat (c := '"') (by decide) t
      refine ⟨u, ?_⟩
      rw [h, ht, quoted, collapse_cons (by decide), hu]
      rfl

/-! ## Where the first literal stands -/

/-- The literal in which a text begins is the next token, up to some place in the text. -/
theorem exists_tokensFrom_literal {mode : ScanMode} {run t : List Char}
    (h : inLiteral mode = true) : ∃ read rest later,
      t = read ++ rest ∧ tokensFrom mode run t = .literal (run.reverse ++ read) :: later := by
  induction t generalizing mode run with
  | nil =>
    refine ⟨[], [], [], rfl, ?_⟩
    rw [tokensFrom, if_pos h, List.append_nil]
  | cons c t ih =>
    rw [tokensFrom_cons rfl, tokenStep, if_pos h]
    split
    · rename_i hnext
      obtain ⟨read, rest, later, rfl, hread⟩ := @ih _ (c :: run) hnext
      refine ⟨c :: read, rest, later, rfl, ?_⟩
      rw [hread, List.reverse_cons, List.append_assoc]
      rfl
    · refine ⟨[c], t, tokensFrom (step .go mode c t).2 [] t, rfl, ?_⟩
      rw [← List.reverse_cons]
      rfl

/-- An argument that is a single literal but for blanks and comments is the literal when it begins with
its quote and, blanks apart, holds no more than it. -/
theorem trim_eq_quoted {t : List Char} (htokens : tokens arg = [.literal (quoted body)])
    (hquote : trim arg = '"' :: t) (hink : ink (trim arg) = ink (quoted body)) :
    trim arg = quoted body := by
  obtain ⟨head, tail, harg, hhead, htail⟩ := exists_trim arg
  have hopens : tokens ('"' :: (t ++ tail)) =
      tokensFrom (.quoted '"' true) ['"'] (t ++ tail) := rfl
  obtain ⟨read, rest, later, hsplit, hread⟩ :=
    @exists_tokensFrom_literal (.quoted '"' true) ['"'] (t ++ tail) rfl
  rw [harg, tokens_blank_append hhead, hquote, List.cons_append, hopens, hread] at htokens
  obtain ⟨hliteral, -⟩ := List.cons.inj htokens
  have hwhole : trim arg ++ tail = quoted body ++ rest := by
    rw [hquote, List.cons_append, hsplit, ← GoToken.literal.inj hliteral]
    rfl
  -- what follows the literal is blank
  have hrest : ink rest = [] := by
    have hsame := congrArg ink hwhole
    rw [ink_append, ink_append, ink_of_allBlank htail, List.append_nil, hink] at hsame
    exact List.self_eq_append_right.1 hsame
  have hblank : allBlank rest = true := List.all_eq_true.2 fun c hc => by
    simpa using List.filter_eq_nil_iff.1 hrest c hc
  calc trim arg = trim (trim arg ++ tail) := by rw [trim_append_blank htail, trim_trim]
    _ = trim (quoted body ++ rest) := congrArg trim hwhole
    _ = quoted body := by rw [trim_append_blank hblank, trim_quoted]

/-- A name is read off an argument exactly where it is a string literal, iff it begins and ends with
quotes exactly where it is one. -/
theorem onOneLine_literal_iff (arg : List Char) :
    (∀ t, onOneLine arg = quoted t ↔ IsStringLiteral arg t) ↔
      ∀ t, trim arg = quoted t ↔ IsStringLiteral arg t := by
  constructor
  · intro hnames t
    have hwhole {t : List Char} (ht : onOneLine arg = quoted t) : trim arg = quoted t := by
      obtain ⟨u, hu⟩ := exists_quoted_onOneLine_iff.1 ⟨t, ht⟩
      refine trim_eq_quoted ((hnames t).1 ht).tokens_eq hu ?_
      rw [ink_trim, ← ink_onOneLine, ht]
    constructor
    · intro ht
      obtain ⟨u, hu⟩ := exists_quoted_onOneLine_iff.2 ⟨t, ht⟩
      obtain rfl := quoted_inj (ht.symm.trans (hwhole hu))
      exact (hnames t).1 hu
    · intro hliteral
      exact hwhole ((hnames t).2 hliteral)
  · intro hliterals t
    constructor
    · intro ht
      obtain ⟨u, hu⟩ := exists_quoted_onOneLine_iff.1 ⟨t, ht⟩
      have hliteral := (hliterals u).1 hu
      have hline := onOneLine_eq hu (not_mem_quoted hliteral.one_line)
      obtain rfl := quoted_inj (ht.symm.trans hline)
      exact hliteral
    · intro hliteral
      exact onOneLine_eq ((hliterals t).2 hliteral) (not_mem_quoted hliteral.one_line)

/-! ## The argument of a call -/

/-- The arguments of a call site in the source: the address of the result, and what follows it. -/
theorem exists_arguments {source : List Char} {primitives : List String} {f : FunctionSpan}
    {name : Span} {c : CallSite} (hf : f ∈ (ofSource .go source).functions)
    (hc : (ofSource .go source).callSite primitives f name = .ok c) :
    ∃ first arg others, ((ofSource .go source).splitTopLevel c.args.start c.args.stop ',').map
        (ofSource .go source).spanText = first :: arg :: others ∧
      onOneLine first = '&' :: c.resultName.toList ∧ c.rest = (arg :: others).map onOneLine := by
  obtain ⟨params, hsite⟩ := callSite_eq_ok.1 hc
  have hcode := siteInCode hf hc
  obtain ⟨b, rest, hrest⟩ := List.exists_cons_of_ne_nil hsite.rest_ne_nil
  have hlt := hcode.args_lt
  have hreturn := hcode.return_le
  have hclosed := hcode.closed_lt
  obtain ⟨first, arg, others, hpieces, hfirst, hothers, -⟩ :=
    arguments_spec hcode.args_start hcode.args_stop hcode.args_le (by omega)
      (hrest ▸ hsite.arguments_eq)
  refine ⟨first, arg, others, hpieces, ?_, hrest.trans hothers⟩
  rw [← hfirst]
  exact String.toList_append

end Masked

namespace ClientFile

open Masked Go

/-- The wire name of every method that is found in a client file is what stands between the quotes of
the argument behind the address of the result, where the argument begins and ends with quotes. It is
the inside of the single string literal that the argument is, and missing where the argument is no
such literal, iff arguments that begin and end with quotes are literals and literals stand without
comments beside them. -/
theorem wireName_literal_iff {options : ClientOptions} {source : String} {file : ClientFile}
    {k : Nat} {g : ClientFunction} {s : SyncMethod}
    (hfile : ClientFile.read? options source = some file) (hg : file.functions[k]? = some g)
    (hs : g.outcome = .found s) :
    ∃ f c first arg others, (ofSource .go source.toList).functions[k]? = some f ∧
      (ofSource .go source.toList).siteOf? options.primitives f = some c ∧
      ((ofSource .go source.toList).splitTopLevel c.args.start c.args.stop ',').map
        (ofSource .go source.toList).spanText = first :: arg :: others ∧
      onOneLine first = '&' :: s.resultName.toList ∧
      (∀ name : String, s.wireName? = some name ↔ onOneLine arg = quoted name.toList) ∧
      ((∀ name : String, s.wireName? = some name ↔ IsStringLiteral arg name.toList) ↔
        ∀ t, Text.trim arg = quoted t ↔ IsStringLiteral arg t) := by
  obtain ⟨f, receiver, c, hf, hc, -, hmethod⟩ := exists_site hfile hg hs
  obtain ⟨-, name, -, -, hsite⟩ := siteOf?_eq_some hc
  obtain ⟨first, arg, others, hpieces, hfirst, hrest⟩ :=
    exists_arguments (List.mem_of_getElem? hf) hsite
  obtain ⟨-, -, -, -, -, hresult, -, hwire, -⟩ := methodAt?_eq_some hmethod
  have hname (name : String) : s.wireName? = some name ↔ onOneLine arg = quoted name.toList := by
    rw [hwire, hrest, List.map_cons, List.head?_cons, Option.bind_some, Option.map_eq_some_iff,
      ← unquote?_eq_some_iff]
    constructor
    · intro ⟨t, ht, heq⟩
      rw [← heq, String.toList_ofList, ht]
    · intro h
      exact ⟨name.toList, h, String.ofList_toList⟩
  refine ⟨f, c, first, arg, others, hf, hc, hpieces, hresult ▸ hfirst, hname, ?_⟩
  rw [← onOneLine_literal_iff]
  constructor
  · intro hnames t
    have ht := (hname (.ofList t)).symm.trans (hnames (.ofList t))
    rwa [String.toList_ofList] at ht
  · intro hnames name
    exact (hname name).trans (hnames name.toList)

/-- A method whose call spans lines, with blanks and an escaped quote in the name. -/
def nameOnLines : String :=
  "func (c *C) M() (y T, err error) \x7b\n\terr = c.CallRPC(&y,\n\t\t\"a  \\\"b\",\n\t\tx)\n" ++
  "\treturn\n\x7d\n"

theorem wireName_literal_iff_nameOnLines :
    ∃ (file : ClientFile) (g : ClientFunction) (s : SyncMethod) (arg : List Char),
      ClientFile.read? ⟨["CallRPC"], none⟩ nameOnLines = some file ∧
      file.functions[0]? = some g ∧ g.outcome = .found s ∧
      arg = "\n\t\t\"a  \\\"b\"".toList ∧
      ∀ name : String, s.wireName? = some name ↔ IsStringLiteral arg name.toList := by
  have hread : ((ClientFile.read? ⟨["CallRPC"], none⟩ nameOnLines).bind
      (·.functions[0]?)).bind (·.outcome.found?) =
      some ⟨"c", "C", "M()", "y", .named "T", "", some "a  \\\"b", "\"a  \\\"b\", x", ""⟩ := by
    decide +kernel
  have hpiece : ∀ c ∈ ((ofSource .go nameOnLines.toList).functions[0]?).bind
        ((ofSource .go nameOnLines.toList).siteOf? ["CallRPC"]),
      (((ofSource .go nameOnLines.toList).splitTopLevel c.args.start c.args.stop ',').map
        (ofSource .go nameOnLines.toList).spanText)[1]? = some "\n\t\t\"a  \\\"b\"".toList := by
    decide +kernel
  obtain ⟨g, hg, hs⟩ := Option.bind_eq_some_iff.1 hread
  obtain ⟨file, hfile, hg⟩ := Option.bind_eq_some_iff.1 hg
  have hs := eq_found_of_found? hs
  obtain ⟨f, c, first, arg, others, hf, hc, hpieces, -, -, hnames⟩ :=
    wireName_literal_iff hfile hg hs
  have hc : c ∈ ((ofSource .go nameOnLines.toList).functions[0]?).bind
      ((ofSource .go nameOnLines.toList).siteOf? ["CallRPC"]) :=
    Option.bind_eq_some_iff.2 ⟨f, hf, hc⟩
  have harg := hpiece c hc
  rw [hpieces] at harg
  obtain rfl : arg = _ := Option.some.inj harg
  refine ⟨file, g, _, _, hfile, hg, hs, rfl, hnames.2 fun t => ?_⟩
  have hliteral : IsStringLiteral "\n\t\t\"a  \\\"b\"".toList "a  \\\"b".toList := by decide +kernel
  have htrim : Text.trim "\n\t\t\"a  \\\"b\"".toList = quoted "a  \\\"b".toList := by decide +kernel
  constructor
  · intro ht
    exact quoted_inj (htrim.symm.trans ht) ▸ hliteral
  · intro ht
    have hsame := hliteral.tokens_eq.symm.trans ht.tokens_eq
    rw [htrim, GoToken.literal.inj (List.cons.inj hsame).1]

/-- A method that is called by two literals that are put together, and one whose name has a comment
before it. -/
def joinedName : String :=
  "func (c *C) M() (y T, err error) \x7b\n\terr = c.CallRPC(&y, \"a\" + \"b\")\n\treturn\n\x7d\n\n" ++
  "func (c *C) N() (y T, err error) \x7b\n\terr = c.CallRPC(&y, /* n */ \"b\")\n\treturn\n\x7d\n"

/-- The first gets a name that no literal gives, and the second none. -/
theorem joinedName_wireNames :
    ∃ (file : ClientFile) (g h : ClientFunction) (s t : SyncMethod),
      ClientFile.read? ⟨["CallRPC"], none⟩ joinedName = some file ∧
      file.functions[0]? = some g ∧ g.outcome = .found s ∧
      file.functions[1]? = some h ∧ h.outcome = .found t ∧
      s.callArgs = "\"a\" + \"b\"" ∧ s.wireName? = some "a\" + \"b" ∧
      (∀ body, ¬IsStringLiteral " \"a\" + \"b\"".toList body) ∧
      t.callArgs = "/* n */ \"b\"" ∧ t.wireName? = none ∧
      IsStringLiteral " /* n */ \"b\"".toList "b".toList := by
  have hread : (ClientFile.read? ⟨["CallRPC"], none⟩ joinedName).map
      (·.functions.map (·.outcome.found?)) =
      some [some ⟨"c", "C", "M()", "y", .named "T", "", some "a\" + \"b", "\"a\" + \"b\"", ""⟩,
        some ⟨"c", "C", "N()", "y", .named "T", "", none, "/* n */ \"b\"", ""⟩] := by
    decide +kernel
  obtain ⟨file, hfile, hread⟩ := Option.map_eq_some_iff.1 hread
  obtain ⟨g, gs, hgs, hs, hread⟩ := List.map_eq_cons_iff.1 hread
  obtain ⟨h, hs', rfl, ht, -⟩ := List.map_eq_cons_iff.1 hread
  have htokens : tokens " \"a\" + \"b\"".toList =
      [.literal "\"a\"".toList, .code ['+'], .literal "\"b\"".toList] := by decide +kernel
  refine ⟨file, g, h, _, _, hfile, by rw [hgs]; rfl, eq_found_of_found? hs, by rw [hgs]; rfl,
    eq_found_of_found? ht, rfl, rfl, fun body hliteral => ?_, rfl, rfl, by decide +kernel⟩
  have hsame := htokens.symm.trans hliteral.tokens_eq
  exact absurd (List.cons.inj hsame).2 (List.cons_ne_nil _ _)

end ClientFile

end RpcBindings
