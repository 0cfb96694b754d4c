import RpcBindings.Proofs.Client.Conditional

/-!
Statements made of conditionals.

A text of statements is a tree: lines, conditionals that are kept and whose blocks are such texts again,
and error blocks. Main statement: what is kept of the text is the text of the tree without its error
blocks, laid out anew (`BlockTree.exists_kept`). Each part of the text takes what is kept one step further
(`Keeps`), and the tree is the induction over them (`BlockTree.Wf.keeps`).
-/

namespace RpcBindings

namespace Masked

/-! ## Texts without conditionals -/

/-- A text without the keywords of conditionals. -/
structure Quiet (t : List Char) : Prop where
  closed : Closed t
  no_if : "if".toList ∉ symbols (mask .go t)
  no_else : elseSymbol ∉ symbols (mask .go t)

theorem Quiet.of_settles {t : List Char} (h : settles t = true ∧
    "if".toList ∉ symbols (mask .go t) ∧ elseSymbol ∉ symbols (mask .go t)) : Quiet t :=
  ⟨closed_of_settles h.1, h.2.1, h.2.2⟩

theorem Regular.of_settles {t : List Char} (h : settles t = true ∧
    WellNested (Text.bytes (mask .go t))) : Regular t :=
  ⟨closed_of_settles h.1, h.2⟩

theorem Lacks.of_settles {t : List Char} {c : Char} (h : settles t = true ∧
    WellNested (Text.bytes (mask .go t)) ∧
      topLevelOffset c.toUInt8 0 (Text.bytes (mask .go t)) = none) : Lacks c t :=
  ⟨.of_settles ⟨h.1, h.2.1⟩, h.2.2⟩

/-- The head of a conditional that does not test for an error, with no conditional in its condition. -/
structure Head.Kept (h : Head) : Prop extends Head.Wf h where
  no_if : "if".toList ∉ symbols (mask .go h.condition)
  passes : ¬Client.TestsError (Text.trim h.condition)

/-- What stands between the two blocks of a conditional: the start of the line on which the first one
ends, and what stands before and behind the keyword. -/
structure Turn where
  last : List Char
  gap : List Char
  gap' : List Char

def Turn.text (t : Turn) : List Char :=
  t.last ++ '\x7d' :: (t.gap ++ ("else".toList ++ (t.gap' ++ ['\x7b'])))

structure Turn.Wf (t : Turn) : Prop where
  last : Quiet t.last
  gap : Gap t.gap
  gap' : Gap t.gap'

/-- What stands around the brace that ends a conditional on its line. -/
structure Foot where
  last : List Char
  rest : List Char

def Foot.text (f : Foot) : List Char :=
  f.last ++ '\x7d' :: f.rest

structure Foot.Wf (f : Foot) : Prop where
  last : Quiet f.last
  rest : Quiet f.rest

/-! ## Trees -/

/-- Statements one after the other. Behind the brace that opens a block stands the rest of its line. -/
inductive BlockTree where
  | nil
  | lines (chunk : List Char) (rest : BlockTree)
  | conditional (head : Head) (opened : List Char) (body : BlockTree) (foot : Foot) (rest : BlockTree)
  | alternative (head : Head) (opened : List Char) (body : BlockTree) (turn : Turn)
      (opened' : List Char) (other : BlockTree) (foot : Foot) (rest : BlockTree)
  | errorBlock (block : ErrorBlock) (rest : BlockTree)

namespace BlockTree

def text : BlockTree → List Char
  | nil => []
  | lines chunk rest => chunk ++ rest.text
  | conditional head opened body foot rest =>
    head.text ++ (opened ++ (body.text ++ (foot.text ++ rest.text)))
  | alternative head opened body turn opened' other foot rest =>
    head.text ++ (opened ++ (body.text ++ (turn.text ++ (opened' ++ (other.text ++
      (foot.text ++ rest.text))))))
  | errorBlock block rest => block.text ++ rest.text

/-- The text without its error blocks. -/
def kept : BlockTree → List Char
  | nil => []
  | lines chunk rest => chunk ++ rest.kept
  | conditional head opened body foot rest =>
    head.text ++ (opened ++ (body.kept ++ (foot.text ++ rest.kept)))
  | alternative head opened body turn opened' other foot rest =>
    head.text ++ (opened ++ (body.kept ++ (turn.text ++ (opened' ++ (other.kept ++
      (foot.text ++ rest.kept))))))
  | errorBlock _ rest => rest.kept

/-- The text ends its line, or the statements behind it are none and end the whole text. -/
def EndsLine (final : Bool) (t : List Char) (rest : BlockTree) : Prop :=
  t.getLast? = some '\n' ∨ (final = true ∧ rest = nil)

/-- The rest of a line behind the brace that opens a block: statements begin on the next line. -/
structure Opens (t : List Char) (body : BlockTree) : Prop extends Quiet t where
  ends : t.getLast? = some '\n' ∨ (t = [] ∧ body = nil)

/-- All parts of the statements are what they are taken for, and stand on lines of their own. The flag
says that the text ends with them. -/
inductive Wf : Bool → BlockTree → Prop
  | nil {final : Bool} : Wf final nil
  | lines {final : Bool} {chunk : List Char} {rest : BlockTree} (quiet : Quiet chunk)
      (ends : EndsLine final chunk rest) (behind : Wf final rest) : Wf final (lines chunk rest)
  | conditional {final : Bool} {head : Head} {opened : List Char} {body : BlockTree} {foot : Foot}
      {rest : BlockTree} (kept : head.Kept) (opens : Opens opened body) (inside : Wf false body)
      (closes : foot.Wf) (ends : EndsLine final foot.rest rest) (behind : Wf final rest) :
      Wf final (conditional head opened body foot rest)
  | alternative {final : Bool} {head : Head} {opened : List Char} {body : BlockTree} {turn : Turn}
      {opened' : List Char} {other : BlockTree} {foot : Foot} {rest : BlockTree} (kept : head.Kept)
      (opens : Opens opened body) (inside : Wf false body) (turns : turn.Wf)
      (opens' : Opens opened' other) (inside' : Wf false other) (closes : foot.Wf)
      (ends : EndsLine final foot.rest rest) (behind : Wf final rest) :
      Wf final (alternative head opened body turn opened' other foot rest)
  | errorBlock {final : Bool} {block : ErrorBlock} {rest : BlockTree} (tests : block.Wf)
      (ends : EndsLine final block.trail rest) (behind : Wf final rest) :
      Wf final (errorBlock block rest)

end BlockTree

/-! ## Symbols of the parts -/

section Symbols

variable {x rest : List Char}

theorem Quiet.symbols_brace (hx : Quiet x) (rest : List Char) :
    symbols (mask .go (x ++ '\x7d' :: rest)) =
      symbols (mask .go x) ++ ['\x7d'] :: symbols (mask .go rest) := by
  rw [hx.closed.mask_append_char (by decide), symbols_append_char rfl (by decide)]

/-- A quiet text before something that is no `else` does not begin with one. -/
theorem Quiet.head?_append (hx : Quiet x) {ss : List (List Char)}
    (hss : ss.head? ≠ some elseSymbol) :
    (symbols (mask .go x) ++ ss).head? ≠ some elseSymbol := by
  cases hsymbols : symbols (mask .go x) with
  | nil => exact hss
  | cons s ss' =>
    intro helse
    obtain rfl : s = elseSymbol := Option.some.inj helse
    exact hx.no_else (hsymbols ▸ List.mem_cons_self)

theorem Quiet.head?_symbols_brace (hx : Quiet x) (rest : List Char) :
    (symbols (mask .go (x ++ '\x7d' :: rest))).head? ≠ some elseSymbol := by
  rw [hx.symbols_brace]
  exact hx.head?_append (by simp [elseSymbol])

theorem Foot.Wf.head?_symbols {f : Foot} (hf : f.Wf) (rest : List Char) :
    (symbols (mask .go (f.text ++ rest))).head? ≠ some elseSymbol := by
  rw [Foot.text, List.append_assoc]
  exact hf.last.head?_symbols_brace _

theorem Turn.Wf.head?_symbols {t : Turn} (ht : t.Wf) (rest : List Char) :
    (symbols (mask .go (t.text ++ rest))).head? ≠ some elseSymbol := by
  rw [Turn.text, List.append_assoc]
  exact ht.last.head?_symbols_brace _

/-- A head begins with its keyword. -/
theorem Head.Wf.head?_symbols {h : Head} (hh : h.Wf) (rest : List Char) :
    (symbols (mask .go (h.text ++ rest))).head? ≠ some elseSymbol := by
  have hbegins : beginsNoWord (mask .go (h.condition ++ '\x7b' :: rest)) = true := by
    rw [hh.condition.closed.mask_append_char (by decide)]
    exact beginsNoWord_append hh.whole rfl
  rw [h.text_append, mask_blank_append hh.indent, symbols_blank_append hh.indent,
    plain_if.solid.mask_append, plain_if.mask_eq,
    symbols_word_append (by decide) (by decide) hbegins]
  exact fun helse => absurd (Option.some.inj helse) (by decide)

end Symbols

/-! ## Parts that are closed -/

section Closed

variable {final : Bool} {x rest : List Char}

/-- A turn ends with the brace that opens the other block. -/
theorem Turn.Wf.exists_brace {t : Turn} (ht : t.Wf) :
    ∃ a, t.text = a ++ ['\x7b'] ∧ Closed a := by
  have helse : Closed ("else".toList ++ t.gap') :=
    plain_else.solid.closed.append ht.gap'.closed fun hslash => absurd hslash plain_else.solid.no_slash
  have hbrace := solid_append_brace ht.last.closed _ (.inr rfl)
  refine ⟨t.last ++ ['\x7d'] ++ (t.gap ++ ("else".toList ++ t.gap')), ?_, ?_⟩
  · unfold Turn.text
    simp
  · exact hbrace.closed.append (ht.gap.closed.append helse fun _ => detached_else _) fun hslash =>
      absurd hslash hbrace.no_slash

theorem Turn.Wf.solid {t : Turn} (ht : t.Wf) : Solid t.text := by
  obtain ⟨a, ha, hclosed⟩ := ht.exists_brace
  exact ha ▸ solid_append_brace hclosed _ (.inl rfl)

/-- A turn holds no conditional. -/
theorem Turn.Wf.no_if {t : Turn} (ht : t.Wf) : "if".toList ∉ symbols (mask .go t.text) := by
  have hgap : mask .go (t.gap ++ ("else".toList ++ (t.gap' ++ ['\x7b']))) =
      mask .go t.gap ++ ("else".toList ++ (mask .go t.gap' ++ ['\x7b'])) := by
    rw [mask_append ht.gap.closed fun _ => detached_else _,
      plain_else.solid.mask_append, plain_else.mask_eq,
      ht.gap'.closed.mask_append_char (by decide)]
    rfl
  have hbegins : beginsNoWord (mask .go t.gap' ++ ['\x7b']) = true :=
    beginsNoWord_append (beginsNoWord_of_allBlank ht.gap'.blank) rfl
  unfold Turn.text
  rw [ht.last.symbols_brace, hgap, symbols_blank_append ht.gap.blank,
    symbols_word_append (by decide) (by decide) hbegins, symbols_blank_append ht.gap'.blank]
  intro hmem
  rcases List.mem_append.1 hmem with hmem | hmem
  · exact ht.last.no_if hmem
  · revert hmem
    decide

theorem Foot.Wf.closed {f : Foot} (hf : f.Wf) : Closed f.text := by
  unfold Foot.text
  rw [List.append_cons]
  exact (solid_append_brace hf.last.closed _ (.inr rfl)).closed.append hf.rest.closed fun hslash =>
    absurd hslash (solid_append_brace hf.last.closed _ (.inr rfl)).no_slash

theorem Foot.Wf.no_if {f : Foot} (hf : f.Wf) : "if".toList ∉ symbols (mask .go f.text) := by
  unfold Foot.text
  rw [hf.last.symbols_brace]
  intro hmem
  rcases List.mem_append.1 hmem with hmem | hmem
  · exact hf.last.no_if hmem
  · exact hf.rest.no_if ((List.mem_cons.1 hmem).resolve_left (by decide))

namespace BlockTree

variable {s body : BlockTree}

theorem EndsLine.foot {f : Foot} (h : EndsLine final f.rest s) : EndsLine final f.text s := by
  refine h.imp_left fun hline => ?_
  unfold Foot.text
  rw [List.append_cons, List.getLast?_append, hline]
  rfl

theorem EndsLine.errorBlock {b : ErrorBlock} (h : EndsLine final b.trail s) :
    EndsLine final b.text s :=
  h.imp_left b.getLast?_text

/-- A text that ends its line and the statements behind it are closed. -/
theorem EndsLine.closed (h : EndsLine final x s) (hx : Closed x)
    (hs : Closed s.text ∧ (final = false → s.text.getLast? ≠ some '/')) :
    Closed (x ++ s.text) ∧ (final = false → (x ++ s.text).getLast? ≠ some '/') := by
  rcases h with hline | ⟨rfl, rfl⟩
  · have hsolid : Solid x := ⟨hx, by rw [hline]; decide⟩
    exact ⟨hx.append hs.1 fun hslash => absurd hslash hsolid.no_slash,
      fun hfinal => (hsolid.append ⟨hs.1, hs.2 hfinal⟩).no_slash⟩
  · exact ⟨by rwa [text, List.append_nil], nofun⟩

theorem closed_append_of_solid (hx : Solid x)
    (h : Closed rest ∧ (final = false → rest.getLast? ≠ some '/')) :
    Closed (x ++ rest) ∧ (final = false → (x ++ rest).getLast? ≠ some '/') :=
  ⟨hx.closed.append h.1 fun hslash => absurd hslash hx.no_slash,
    fun hfinal => (hx.append ⟨h.1, h.2 hfinal⟩).no_slash⟩

theorem Opens.solid (h : Opens x body) : Solid x := by
  refine ⟨h.closed, ?_⟩
  rcases h.ends with hline | ⟨rfl, -⟩
  · rw [hline]
    decide
  · exact nofun

/-- The statements are closed, and what stands behind them on their last line cannot join a slash. -/
theorem Wf.closed (hs : s.Wf final) :
    Closed s.text ∧ (final = false → s.text.getLast? ≠ some '/') := by
  induction hs with
  | nil => exact ⟨closed_nil, fun _ => nofun⟩
  | lines quiet ends _ ih => exact ends.closed quiet.closed ih
  | conditional kept opens _ closes ends _ ihBody ihRest =>
    exact closed_append_of_solid kept.toWf.solid (closed_append_of_solid opens.solid
      (closed_append_of_solid ⟨ihBody.1, ihBody.2 rfl⟩ (ends.foot.closed closes.closed ihRest)))
  | alternative kept opens _ turns opens' _ closes ends _ ihBody ihOther ihRest =>
    exact closed_append_of_solid kept.toWf.solid (closed_append_of_solid opens.solid
      (closed_append_of_solid ⟨ihBody.1, ihBody.2 rfl⟩ (closed_append_of_solid turns.solid
        (closed_append_of_solid opens'.solid (closed_append_of_solid ⟨ihOther.1, ihOther.2 rfl⟩
          (ends.foot.closed closes.closed ihRest))))))
  | errorBlock tests _ _ ih => exact closed_append_of_solid tests.solid ih

end BlockTree

end Closed

theorem BlockTree.Wf.solid {s : BlockTree} (hs : s.Wf false) : Solid s.text :=
  ⟨hs.closed.1, hs.closed.2 rfl⟩

/-! ## What is kept of a tree -/

namespace BlockTree

/-- From one offset to another the text is kept. -/
def Keeps (m : Masked) (o : Nat) (t : List Char) (o' : Nat) : Prop :=
  m.keptFrom o = t ++ m.keptFrom o'

theorem Keeps.trans {m : Masked} {o o' o'' : Nat} {t t' : List Char} (h : Keeps m o t o')
    (h' : Keeps m o' t' o'') : Keeps m o (t ++ t') o'' := by
  unfold Keeps at h h' ⊢
  rw [h, h', List.append_assoc]

variable {final : Bool} {source x rest : List Char} {s body : BlockTree} {o : Nat}

/-- No branch follows where statements begin or end. -/
theorem Wf.head?_symbols (hs : s.Wf final) (hfinal : final = true → rest = [])
    (hrest : (symbols (mask .go rest)).head? ≠ some elseSymbol) :
    (symbols (mask .go (s.text ++ rest))).head? ≠ some elseSymbol := by
  induction hs generalizing rest with
  | nil => exact hrest
  | @lines final chunk tail quiet ends _ ih =>
    have htail := ih hfinal hrest
    rw [text, List.append_assoc]
    rcases ends with hline | ⟨hend, rfl⟩
    · rw [mask_append quiet.closed (detached_of_endsLine (.inl hline)),
        symbols_append (.inl (endsNoWord_mask_of_newline hline))]
      exact quiet.head?_append htail
    · rw [hfinal hend, text, List.append_nil, List.append_nil]
      have := @Quiet.head?_append _ quiet [] (by simp)
      rwa [List.append_nil] at this
  | conditional kept => rw [text, List.append_assoc]; exact kept.toWf.head?_symbols _
  | alternative kept => rw [text, List.append_assoc]; exact kept.toWf.head?_symbols _
  | @errorBlock _ b _ tests =>
    rw [text, List.append_assoc, b.text_append]
    exact tests.head.head?_symbols _

section Steps

variable (hunsplit : Unsplit (glyphs .go source))
include hunsplit

/-- Lines without conditionals are kept, and the statements behind them begin a line. -/
theorem EndsLine.keeps (h : EndsLine final x s) (hx : Closed x)
    (hnone : "if".toList ∉ symbols (mask .go x)) (hfinal : final = true → rest = [])
    (ht : (ofSource .go source).TextFrom o (x ++ (s.text ++ rest))) :
    Keeps (ofSource .go source) o x (o + Text.byteLength x) ∧
      (ofSource .go source).TextFrom (o + Text.byteLength x) (s.text ++ rest) ∧
      (s = nil ∨ (ofSource .go source).IsLineStart (o + Text.byteLength x)) := by
  have hend : x.getLast? = some '\n' ∨ s.text ++ rest = [] :=
    h.imp_right fun ⟨hf, hs⟩ => by rw [hs, hfinal hf]; rfl
  exact ⟨ht.keptFrom_lines hunsplit hx hend hnone, ht.drop hx (detached_of_endsLine hend),
    h.symm.imp And.right fun hline => ht.isLineStart_behind hx hline⟩

theorem Opens.keeps (h : Opens x body)
    (ht : (ofSource .go source).TextFrom o (x ++ (body.text ++ rest))) :
    Keeps (ofSource .go source) o x (o + Text.byteLength x) ∧
      (ofSource .go source).TextFrom (o + Text.byteLength x) (body.text ++ rest) ∧
      (body = nil ∨ (ofSource .go source).IsLineStart (o + Text.byteLength x)) := by
  rcases h.ends with hline | ⟨rfl, hnil⟩
  · have hends : EndsLine false x body := .inl hline
    exact hends.keeps hunsplit h.closed h.no_if nofun ht
  · exact ⟨rfl, ht, .inl hnil⟩

theorem keeps_head {h : Head} (hh : h.Kept) (hstart : (ofSource .go source).IsLineStart o)
    (ht : (ofSource .go source).TextFrom o (h.text ++ rest)) :
    Keeps (ofSource .go source) o h.text (o + Text.byteLength h.text) ∧
      (ofSource .go source).TextFrom (o + Text.byteLength h.text) rest :=
  ⟨ht.keptFrom_head hunsplit hh.toWf hstart.breaksWord hh.no_if hh.passes,
    ht.drop_solid hh.toWf.solid⟩

theorem keeps_turn {t : Turn} (hturn : t.Wf)
    (ht : (ofSource .go source).TextFrom o (t.text ++ rest)) :
    Keeps (ofSource .go source) o t.text (o + Text.byteLength t.text) ∧
      (ofSource .go source).TextFrom (o + Text.byteLength t.text) rest := by
  have hsolid := hturn.solid
  obtain ⟨a, ha, hclosed⟩ := hturn.exists_brace
  have hbrace : (ofSource .go source).hasChar (o + Text.byteLength a) '\x7b' = true := by
    rw [ha, List.append_assoc] at ht
    exact (ht.drop_to_brace hclosed).hasChar (by decide) (by decide)
  have hsep := separates_of_hasChar hbrace (by decide) (.inr (by decide))
  have hlen : o + Text.byteLength a + 1 = o + Text.byteLength t.text := by
    rw [ha, Text.byteLength_append]
    rfl
  have hends : endsNoWord (mask .go t.text) = true := by
    rw [ha, hclosed.mask_append_char (by decide), endsNoWord_append_of_ne_nil (List.cons_ne_nil _ _)]
    rfl
  exact ⟨ht.keptFrom_part hunsplit hsolid.closed (fun hslash => absurd hslash hsolid.no_slash)
    (.inl hends) hturn.no_if (hlen ▸ hsep), ht.drop_solid hsolid⟩

/-- What is kept from the start of the statements on is what is kept of them, and then what is kept from
their end on. -/
theorem Wf.keeps (hs : s.Wf final) (hfinal : final = true → rest = [])
    (ht : (ofSource .go source).TextFrom o (s.text ++ rest))
    (hstart : s = .nil ∨ (ofSource .go source).IsLineStart o)
    (hrest : (symbols (mask .go rest)).head? ≠ some elseSymbol) :
    Keeps (ofSource .go source) o s.kept (o + Text.byteLength s.text) := by
  induction hs generalizing o rest with
  | nil => rfl
  | lines quiet ends _ ih =>
    simp only [text, List.append_assoc] at ht
    obtain ⟨hchunk, ht, hstart⟩ := ends.keeps hunsplit quiet.closed quiet.no_if hfinal ht
    have := hchunk.trans (ih hfinal ht hstart hrest)
    simpa only [text, kept, Text.byteLength_append, Nat.add_assoc] using this
  | conditional hkept opens inside closes ends _ ihBody ihRest =>
    simp only [text, List.append_assoc] at ht
    obtain ⟨hhead, ht⟩ := keeps_head hunsplit hkept (hstart.resolve_left nofun) ht
    obtain ⟨hopened, ht, hstart⟩ := opens.keeps hunsplit ht
    have hbody := ihBody nofun ht hstart (closes.head?_symbols _)
    obtain ⟨hfoot, ht, hstart⟩ :=
      ends.foot.keeps hunsplit closes.closed closes.no_if hfinal (ht.drop_solid inside.solid)
    have := hhead.trans (hopened.trans (hbody.trans (hfoot.trans (ihRest hfinal ht hstart hrest))))
    simpa only [text, kept, Text.byteLength_append, Nat.add_assoc] using this
  | alternative hkept opens inside turns opens' inside' closes ends _ ihBody ihOther ihRest =>
    simp only [text, List.append_assoc] at ht
    obtain ⟨hhead, ht⟩ := keeps_head hunsplit hkept (hstart.resolve_left nofun) ht
    obtain ⟨hopened, ht, hstart⟩ := opens.keeps hunsplit ht
    have hbody := ihBody nofun ht hstart (turns.head?_symbols _)
    obtain ⟨hturn, ht⟩ := keeps_turn hunsplit turns (ht.drop_solid inside.solid)
    obtain ⟨hopened', ht, hstart⟩ := opens'.keeps hunsplit ht
    have hother := ihOther nofun ht hstart (closes.head?_symbols _)
    obtain ⟨hfoot, ht, hstart⟩ :=
      ends.foot.keeps hunsplit closes.closed closes.no_if hfinal (ht.drop_solid inside'.solid)
    have := hhead.trans (hopened.trans (hbody.trans (hturn.trans (hopened'.trans (hother.trans
      (hfoot.trans (ihRest hfinal ht hstart hrest)))))))
    simpa only [text, kept, Text.byteLength_append, Nat.add_assoc] using this
  | @errorBlock final block tail tests ends behind ih =>
    simp only [text, List.append_assoc] at ht
    have hend : block.trail.getLast? = some '\n' ∨ tail.text ++ rest = [] :=
      ends.imp_right fun ⟨hf, hs⟩ => by rw [hs, hfinal hf]; rfl
    have hnone := ht.keptFrom_errorBlock tests (hstart.resolve_left nofun) hend
      (behind.head?_symbols hfinal hrest)
    have hline : tail = .nil ∨
        (ofSource .go source).IsLineStart (o + Text.byteLength block.text) :=
      ends.errorBlock.symm.imp And.right fun hline => ht.isLineStart_behind tests.solid.closed hline
    have := ih hfinal (ht.drop_solid tests.solid) hline hrest
    unfold Keeps at this ⊢
    rw [hnone, this]
    simp only [text, kept, Text.byteLength_append, Nat.add_assoc]

end Steps

/-- What is kept of the statements is the text without their error blocks, laid out anew. -/
theorem Wf.keptStatements?_text (hs : s.Wf true) :
    Client.keptStatements? s.text = Text.tidy? s.kept := by
  have hclosed := hs.closed.1
  have hstart : (ofSource .go s.text).TextFrom 0 (s.text ++ []) := by
    rw [List.append_nil]
    exact TextFrom.start s.text
  have hkeeps := hs.keeps hclosed.whole.unsplit (fun _ => rfl) hstart (.inr (isLineStart_zero _)) nofun
  have hsize : (ofSource .go s.text).size = 0 + Text.byteLength s.text := by
    rw [Nat.zero_add, ← byteLength_mask hclosed]
    exact Text.length_bytes _
  have hend := keptFrom_size (m := ofSource .go s.text) (hsize.trans (Nat.zero_add _))
  unfold Keeps at hkeeps
  rw [← hsize, hend, List.append_nil] at hkeeps
  rw [keptStatements?_eq, hkeeps]

/-! ## Lines that are kept -/

section Lines

variable {p y : List Char}

theorem lines_append (hline : p = [] ∨ p.getLast? = some '\n') (y : List Char) :
    Text.lines (p ++ y) = Text.lines p ++ Text.lines y := by
  rcases hline with rfl | hline
  · rfl
  · obtain ⟨a, rfl⟩ := List.getLast?_eq_some_iff.1 hline
    rw [List.append_assoc]
    exact Text.linesAux_append_newline_cons [] a y

/-- The lines of a text that begins a line are lines of the text with other lines before it. -/
theorem lines_subset_append (hline : p = [] ∨ p.getLast? = some '\n')
    (hx : x.getLast? = some '\n' ∨ y = []) :
    Text.lines (p ++ y) ⊆ Text.lines (p ++ (x ++ y)) := by
  rw [lines_append hline, lines_append hline]
  refine List.append_subset.2 ⟨List.subset_append_left _ _, ?_⟩
  rcases hx with hx | rfl
  · rw [lines_append (.inr hx)]
    exact List.subset_append_of_subset_right _ (List.subset_append_right _ _)
  · exact List.nil_subset _

/-- The statements stand behind whole lines, unless there are none. -/
def BeginsLine (s : BlockTree) (p : List Char) : Prop :=
  s = .nil ∨ p = [] ∨ p.getLast? = some '\n'

theorem beginsLine_append (h : s = .nil ∨ x.getLast? = some '\n') (p : List Char) :
    BeginsLine s (p ++ x) :=
  h.imp_right fun hline => .inr (by rw [List.getLast?_append, hline]; rfl)

/-- The lines of one text are lines of another one, whatever stands before both. -/
def LinesWithin (t u : List Char) : Prop :=
  ∀ p, Text.lines (p ++ t) ⊆ Text.lines (p ++ u)

theorem linesWithin_append {t u : List Char} (h : s = .nil ∨ x.getLast? = some '\n')
    (hs : ∀ p, BeginsLine s p → Text.lines (p ++ t) ⊆ Text.lines (p ++ u)) :
    LinesWithin (x ++ t) (x ++ u) := by
  intro p
  rw [← List.append_assoc, ← List.append_assoc]
  exact hs _ (beginsLine_append h p)

end Lines

/-- What is kept of statements are lines of their text, whatever stands before and behind them. -/
theorem Wf.lines_kept_subset {p r r' : List Char} (hs : s.Wf final) (hbegins : BeginsLine s p)
    (hfinal : final = true → r = [] ∧ r' = []) (hrest : LinesWithin r' r) :
    Text.lines (p ++ (s.kept ++ r')) ⊆ Text.lines (p ++ (s.text ++ r)) := by
  induction hs generalizing p r r' with
  | nil => exact hrest p
  | lines quiet ends _ ih =>
    simp only [text, kept, List.append_assoc]
    exact linesWithin_append (ends.symm.imp_left And.right) (fun _ hp => ih hp hfinal hrest) p
  | conditional hkept opens inside closes ends _ ihBody ihRest =>
    simp only [text, kept, List.append_assoc]
    have hfoot := linesWithin_append (ends.foot.symm.imp_left And.right)
      fun _ hp => ihRest hp hfinal hrest
    have hbody := linesWithin_append (opens.ends.symm.imp_left And.right)
      fun _ hp => ihBody hp nofun hfoot
    rw [← List.append_assoc p, ← List.append_assoc p]
    exact hbody _
  | @alternative _ head _ _ turn _ _ _ _ hkept opens inside turns opens' inside' closes ends _
      ihBody ihOther ihRest =>
    simp only [text, kept, List.append_assoc]
    have hfoot := linesWithin_append (ends.foot.symm.imp_left And.right)
      fun _ hp => ihRest hp hfinal hrest
    have hother := linesWithin_append (opens'.ends.symm.imp_left And.right)
      fun _ hp => ihOther hp nofun hfoot
    have hturn := linesWithin_append (s := .nil) (x := turn.text) (.inl rfl) fun p _ => hother p
    have hbody := linesWithin_append (opens.ends.symm.imp_left And.right)
      fun _ hp => ihBody hp nofun hturn
    rw [← List.append_assoc p, ← List.append_assoc p]
    exact hbody _
  | @errorBlock final block tail tests ends behind ih =>
    simp only [text, kept, List.append_assoc]
    have hp := hbegins.resolve_left nofun
    refine List.Subset.trans (ih (.inr hp) hfinal hrest) (lines_subset_append hp ?_)
    exact ends.errorBlock.imp_right fun ⟨hf, hs⟩ => by rw [hs, (hfinal hf).1]; rfl

/-- What is kept of statements whose lines are indented by blanks of one byte: the text without the error
blocks, laid out anew. -/
theorem Wf.sheds_errorBlocks (hs : s.Wf true) (hindents : Text.NarrowIndents s.text) :
    ∃ tidied, Client.keptStatements? s.text = some tidied ∧ Text.tidy? s.kept = some tidied := by
  have hlines : Text.lines s.kept ⊆ Text.lines s.text := by
    have := hs.lines_kept_subset (p := []) (.inr (.inl rfl)) (fun _ => ⟨rfl, rfl⟩)
      fun _ => List.Subset.refl _
    simpa only [List.nil_append, List.append_nil] using this
  obtain ⟨tidied, htidied⟩ := Text.exists_tidy? fun l hl => hindents l (hlines hl)
  exact ⟨tidied, hs.keptStatements?_text.trans htidied, htidied⟩

/-- A conditional with two branches and an error block in the first of them, and a block behind it that
tests a flag. -/
def nestedTests : BlockTree :=
  .lines "a() // if err != nil \x7b\n".toList <|
  .alternative ⟨[], " f(func() \x7b\x7d) ".toList⟩ "\n".toList
    (.errorBlock ⟨⟨"\t".toList, " err != nil ".toList⟩, " return ".toList,
        [⟨" ".toList, " if b ".toList, " c(\"\x7d\") ".toList⟩, ⟨" ".toList, " ".toList, []⟩],
        "\n".toList⟩ .nil)
    ⟨[], " ".toList, " ".toList⟩ "\n".toList (.lines "\td()\n".toList .nil) ⟨[], "\n".toList⟩ <|
  .errorBlock ⟨⟨[], " ok, code := e(); !ok ".toList⟩, "\n\treturn\n".toList, [], "\n".toList⟩ <|
  .lines "g()".toList .nil

theorem sheds_errorBlocks_nestedTests :
    nestedTests.text = ("a() // if err != nil \x7b\nif f(func() \x7b\x7d) \x7b\n" ++
      "\tif err != nil \x7b return \x7d else if b \x7b c(\"\x7d\") \x7d else \x7b\x7d\n" ++
      "\x7d else \x7b\n\td()\n\x7d\n" ++
      "if ok, code := e(); !ok \x7b\n\treturn\n\x7d\ng()").toList ∧
    ∃ tidied, Client.keptStatements? nestedTests.text = some tidied ∧
      Text.tidy? nestedTests.kept = some tidied := by
  have gap : Gap " ".toList := gap_of_allBlank (by decide)
  have hwf : nestedTests.Wf true := by
    refine .lines (.of_settles (by decide +kernel)) (.inl rfl) (.alternative ?_
      ⟨.of_settles (by decide +kernel), .inl rfl⟩ (.errorBlock ?_ (.inl rfl) .nil)
      ⟨.of_settles (by decide +kernel), gap, gap⟩ ⟨.of_settles (by decide +kernel), .inl rfl⟩
      (.lines (.of_settles (by decide +kernel)) (.inl rfl) .nil)
      ⟨.of_settles (by decide +kernel), .of_settles (by decide +kernel)⟩ (.inl rfl)
      (.errorBlock ?_ (.inl rfl)
        (.lines (.of_settles (by decide +kernel)) (.inr ⟨rfl, rfl⟩) .nil)))
    · exact ⟨⟨by decide, by decide, .of_settles (by decide +kernel), by decide +kernel⟩,
        by decide +kernel, by decide +kernel⟩
    · refine ⟨⟨by decide, by decide, .of_settles (by decide +kernel), by decide +kernel⟩,
        by decide +kernel, .of_settles (by decide +kernel), fun e he => ?_, by decide, by decide⟩
      rcases List.mem_cons.1 he with rfl | he
      · exact ⟨gap, .of_settles (by decide +kernel), by decide +kernel,
          .of_settles (by decide +kernel)⟩
      · obtain rfl := List.mem_singleton.1 he
        exact ⟨gap, .of_settles (by decide +kernel), by decide +kernel,
          .of_settles (by decide +kernel)⟩
    · exact ⟨⟨by decide, by decide, .of_settles (by decide +kernel), by decide +kernel⟩,
        by decide +kernel, .of_settles (by decide +kernel),
        fun e he => absurd he List.not_mem_nil, by decide, by decide⟩
  exact ⟨by decide +kernel, hwf.sheds_errorBlocks (by decide +kernel)⟩

end BlockTree

end Masked

end RpcBindings
