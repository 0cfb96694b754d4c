import RpcBindings.Proofs.Client.Batch
import RpcBindings.Proofs.Client.BlockTree

/-!
Statements part by part, where blocks may be open at both ends.

The statements before a call need not close what they open, so they are no tree, but they are still parts
one after the other: code without conditionals, the heads of conditionals that are kept, and error blocks
on lines of their own. Main statements: the error blocks that are found in such a text are these
(`PartsWf.errorBlocks_eq`), so the text sheds whole lines that are well nested (`PartsWf.shedsLines`),
and what is kept of it is kept line by line (`ShedsLines.keptByLines`).
-/

namespace RpcBindings

namespace Masked

/-! ## Parts -/

/-- A part of statements. -/
inductive StatementPart where
  | code (t : List Char)
  | head (h : Head)
  | block (b : ErrorBlock)

namespace StatementPart

/-- The text of parts one after the other. -/
def textOf : List StatementPart → List Char
  | [] => []
  | code t :: ps => t ++ textOf ps
  | head h :: ps => h.text ++ textOf ps
  | block b :: ps => b.text ++ textOf ps

/-- The error blocks among parts, the first of which begins at the offset. -/
def blocksFrom : Nat → List StatementPart → List Span
  | _, [] => []
  | o, code t :: ps => blocksFrom (o + Text.byteLength t) ps
  | o, head h :: ps => blocksFrom (o + Text.byteLength h.text) ps
  | o, block b :: ps => ⟨o, o + Text.byteLength b.text⟩ :: blocksFrom (o + Text.byteLength b.text) ps

/-- All parts are what they are taken for, and error blocks stand on lines of their own. The flag says that
a line begins with the first part. -/
inductive PartsWf : Bool → List StatementPart → Prop
  | nil {line : Bool} : PartsWf line []
  | code {line : Bool} {t : List Char} {ps : List StatementPart} (solid : Solid t)
      (no_if : "if".toList ∉ symbols (mask .go t)) (ends : endsNoWord (mask .go t) = true ∨ ps = [])
      (behind : PartsWf (t.getLast? == some '\n') ps) : PartsWf line (code t :: ps)
  | head {line : Bool} {h : Head} {ps : List StatementPart} (kept : h.Kept)
      (behind : PartsWf false ps) : PartsWf line (head h :: ps)
  | block {b : ErrorBlock} {ps : List StatementPart} (tests : b.Wf)
      (ends : b.trail.getLast? = some '\n' ∨ ps = [])
      (last : (symbols (mask .go (textOf ps))).head? ≠ some elseSymbol)
      (behind : PartsWf true ps) : PartsWf true (block b :: ps)

end StatementPart

open StatementPart

variable {m : Masked} {source : List Char} {o : Nat} {line : Bool} {ps : List StatementPart}
  {b : ErrorBlock}

/-! ## Error blocks as text -/

theorem Gap.regular {g : List Char} (h : Gap g) : Regular g :=
  ⟨h.closed, wellNested_of_all_isPlain (all_isPlain_of_allBlank h.blank)⟩

theorem regular_of_allBlank {g : List Char} (hg : Text.allBlank g = true) : Regular g :=
  (gap_of_allBlank hg).regular

/-- A brace goes on with no comment. -/
theorem detached_brace {a : List Char} (rest : List Char) :
    a.getLast? = some '/' → Detached ('\x7b' :: rest) :=
  fun _ => detached_cons (by decide) (by decide) rest

theorem ElseBranch.Wf.regular {e : ElseBranch} (he : e.Wf) : Regular e.text := by
  have hblock : Regular (e.between ++ '\x7b' :: (e.body ++ ['\x7d'])) :=
    he.between.toRegular.append (he.body.enclose .brace) (detached_brace _)
  have helse : Regular ("else".toList ++ (e.between ++ '\x7b' :: (e.body ++ ['\x7d']))) :=
    plain_else.regular.append hblock fun hslash => absurd hslash plain_else.solid.no_slash
  exact he.gap.regular.append helse fun _ => detached_else _

theorem regular_branches {branches : List ElseBranch} (hb : ∀ e ∈ branches, e.Wf) :
    Regular (branches.flatMap ElseBranch.text) := by
  induction branches with
  | nil => exact ⟨closed_nil, rfl⟩
  | cons e branches ih =>
    have he := hb e List.mem_cons_self
    rw [List.flatMap_cons]
    exact he.regular.append (ih fun e' he' => hb e' (List.mem_cons_of_mem e he')) fun hslash =>
      absurd hslash he.solid.no_slash

/-- An error block closes what it opens. -/
theorem ErrorBlock.Wf.regular (hb : b.Wf) : Regular b.text := by
  have hindent := solid_of_allBlank hb.head.indent
  have hbranches := solid_branches hb.branches
  have hrest := (regular_branches hb.branches).append (regular_of_allBlank hb.trail) fun hslash =>
    absurd hslash hbranches.no_slash
  have hbody : Regular ('\x7b' :: (b.body ++ ['\x7d']) ++
      (b.branches.flatMap ElseBranch.text ++ b.trail)) := by
    refine (hb.body.enclose .brace).append hrest fun hslash => ?_
    rw [← List.cons_append, List.getLast?_append] at hslash
    exact absurd (Option.some.inj hslash) (by decide)
  have hblock := hb.head.condition.toRegular.append hbody (detached_brace _)
  have hif := plain_if.regular.append hblock fun hslash => absurd hslash plain_if.solid.no_slash
  have := (regular_of_allBlank hb.head.indent).append hif fun hslash =>
    absurd hslash hindent.no_slash
  unfold ErrorBlock.text Head.text
  simpa only [List.append_assoc, List.cons_append, List.nil_append] using this

/-- An error block behind whole lines that ends its line is whole lines of the text. -/
theorem ErrorBlock.wholeLines {a rest : List Char} (ha : a = [] ∨ a.getLast? = some '\n')
    (hend : b.trail.getLast? = some '\n' ∨ rest = []) :
    WholeLines (a ++ (b.text ++ rest))
      ⟨Text.byteLength a, Text.byteLength a + Text.byteLength b.text⟩ := by
  have hstop : a ++ (b.text ++ rest) = a ++ b.text ++ rest := (List.append_assoc _ _ _).symm
  refine ⟨?_, ?_⟩
  · unfold beginsLineAt
    rw [Text.takeBytes_append]
    rcases ha with rfl | ha
    · rfl
    · rw [ha]
      rfl
  · rcases hend with hend | rfl
    · left
      unfold beginsLineAt
      rw [hstop, ← Text.byteLength_append, Text.takeBytes_append]
      rw [List.getLast?_append, b.getLast?_text hend]
      rfl
    · right
      rw [hstop, ← Text.byteLength_append, Text.dropBytes_append]

/-! ## Error blocks that are found -/

/-- Behind code that no word leaves no word goes on. -/
theorem TextFrom.breaksWord_behind {x rest : List Char} (ht : m.TextFrom o (x ++ rest)) (hx : Solid x)
    (hbefore : breaksWord (m.byteBefore o) = true) (hends : endsNoWord (mask .go x) = true) :
    breaksWord (m.byteBefore (o + Text.byteLength x)) = true := by
  obtain ⟨u, hcode, rfl⟩ := ht.code_append hx.closed fun hslash => absurd hslash hx.no_slash
  rw [byteBefore_byteLength hcode, breaksWord_getLast?] at hbefore
  rw [← List.append_assoc] at hcode
  rw [← byteLength_mask hx.closed, ← Text.byteLength_append, byteBefore_byteLength hcode,
    breaksWord_getLast?, endsNoWord_append hbefore]
  exact hends

theorem Head.Wf.endsNoWord {h : Head} (hh : h.Wf) : endsNoWord (mask .go h.text) = true := by
  have hclosed : Closed (h.indent ++ ("if".toList ++ h.condition)) :=
    (solid_of_allBlank hh.indent).closed.append
      (plain_if.solid.closed.append hh.condition.closed fun hslash =>
        absurd hslash plain_if.solid.no_slash)
      fun hslash => absurd hslash (solid_of_allBlank hh.indent).no_slash
  have htext : h.text = h.indent ++ ("if".toList ++ h.condition) ++ '\x7b' :: [] := by
    unfold Head.text
    simp only [List.append_assoc]
  rw [htext, hclosed.mask_append_char (by decide), endsNoWord_append_of_ne_nil (List.cons_ne_nil _ _)]
  rfl

/-- The error blocks that are found from the first part on are the parts that are blocks. -/
theorem StatementPart.PartsWf.errorBlocksBehind_eq (h : PartsWf line ps)
    (ht : (ofSource .go source).TextFrom o (textOf ps))
    (hline : line = true → (ofSource .go source).IsLineStart o)
    (hbefore : ps = [] ∨ breaksWord ((ofSource .go source).byteBefore o) = true) :
    (ofSource .go source).errorBlocksBehind o = blocksFrom o ps := by
  induction h generalizing o with
  | nil =>
    have hsize := ht.2.size_eq
    obtain rfl : (ofSource .go source).size = o := hsize
    exact errorBlocksBehind_size _
  | @code line t ps solid no_if ends behind ih =>
    rw [textOf] at ht
    have hdetached : t.getLast? = some '/' → Detached (textOf ps) := fun hslash =>
      absurd hslash solid.no_slash
    have hborder : endsNoWord (mask .go t) = true ∨ textOf ps = [] := ends.imp_right fun h => by
      rw [h, textOf]
    rw [ht.errorBlocksBehind_part solid.closed hdetached hborder no_if, blocksFrom]
    refine ih (ht.drop_solid solid) (fun h => ht.isLineStart_behind solid.closed (beq_iff_eq.1 h)) ?_
    exact (ends.imp_left (ht.breaksWord_behind solid (hbefore.resolve_left nofun))).symm
  | head kept behind ih =>
    rw [textOf] at ht
    have hword := hbefore.resolve_left nofun
    rw [ht.errorBlocksBehind_head kept.toWf hword kept.no_if kept.passes, blocksFrom]
    exact ih (ht.drop_solid kept.solid) nofun
      (.inr (ht.breaksWord_behind kept.solid hword kept.endsNoWord))
  | @block b ps tests ends last behind ih =>
    rw [textOf] at ht
    have hend : b.trail.getLast? = some '\n' ∨ textOf ps = [] := ends.imp_right fun h => by
      rw [h, textOf]
    rw [ht.errorBlocksBehind_errorBlock tests (hline rfl) hend last, blocksFrom]
    refine congrArg _ ?_
    rcases ends with hnewline | rfl
    · have hstart := ht.isLineStart_behind tests.solid.closed (b.getLast?_text hnewline)
      exact ih (ht.drop_solid tests.solid) (fun _ => hstart) (.inr hstart.breaksWord)
    · have hsize := (ht.drop_solid tests.solid).2.size_eq
      obtain hsize : (ofSource .go source).size = o + Text.byteLength b.text := hsize
      exact hsize ▸ errorBlocksBehind_size _

/-- A text that sheds whole lines is kept line by line. -/
theorem ShedsLines.keptByLines {t : List Char} (h : ShedsLines t) : KeptByLines t :=
  ⟨h.settles, content_without_subset ⟨[], rfl, rfl⟩ (parts_errorBlocks (whole_lines h.settles).unsplit)
    h.lines⟩

namespace StatementPart.PartsWf

/-- The error blocks of statements are the parts that are blocks. -/
theorem errorBlocks_eq (h : PartsWf true ps) :
    (ofSource .go (textOf ps)).errorBlocks = blocksFrom 0 ps := by
  rw [← errorBlocksBehind_zero]
  exact h.errorBlocksBehind_eq (.start _) (fun _ => isLineStart_zero _) (.inr rfl)

/-- Every part that is a block is whole lines of the text, and closes what it opens. -/
theorem blocksFrom_spec (h : PartsWf line ps) {a : List Char}
    (ha : line = true → a = [] ∨ a.getLast? = some '\n') {s : Span}
    (hs : s ∈ blocksFrom (Text.byteLength a) ps) :
    WholeLines (a ++ textOf ps) s ∧
      ∃ b : ErrorBlock, b.Wf ∧ (ofSource .go (a ++ textOf ps)).spanText s = b.text := by
  induction h generalizing a with
  | nil => exact absurd hs List.not_mem_nil
  | @code line t ps solid no_if ends behind ih =>
    rw [blocksFrom, ← Text.byteLength_append] at hs
    rw [textOf, ← List.append_assoc]
    refine ih (fun hline => .inr ?_) hs
    rw [List.getLast?_append, beq_iff_eq.1 hline]
    rfl
  | head kept behind ih =>
    rw [blocksFrom, ← Text.byteLength_append] at hs
    rw [textOf, ← List.append_assoc]
    exact ih nofun hs
  | @block b ps tests ends last behind ih =>
    have hend : b.trail.getLast? = some '\n' ∨ textOf ps = [] := ends.imp_right fun h => by
      rw [h, textOf]
    rw [blocksFrom] at hs
    rw [textOf]
    rcases List.mem_cons.1 hs with rfl | hs
    · refine ⟨ErrorBlock.wholeLines (ha rfl) hend, b, tests, ?_⟩
      have hcut := Text.cut_append a b.text (textOf ps)
      rwa [List.append_assoc] at hcut
    · rcases ends with hnewline | rfl
      · rw [← Text.byteLength_append] at hs
        rw [← List.append_assoc]
        refine ih (fun _ => .inr ?_) hs
        rw [List.getLast?_append, b.getLast?_text hnewline]
        rfl
      · exact absurd hs List.not_mem_nil

/-- Statements whose lines all settle shed whole lines that are well nested. -/
theorem shedsLines (h : PartsWf true ps)
    (hsettles : ∀ r ∈ Text.content (textOf ps), settles (r ++ ['\n']) = true) :
    ShedsLines (textOf ps) := by
  have hspec {s : Span} (hs : s ∈ (ofSource .go (textOf ps)).errorBlocks) :=
    h.blocksFrom_spec (a := []) (fun _ => .inl rfl) (h.errorBlocks_eq ▸ hs)
  refine ⟨hsettles, fun s hs => (hspec hs).1, fun s hs => ?_⟩
  obtain ⟨-, b, hb, htext⟩ := hspec hs
  rw [List.nil_append] at htext
  rw [htext]
  exact hb.regular.balanced

/-- An error block, and a call inside of a conditional behind an `else`. -/
example : ShedsLines ("n, err := f()\nif err != nil \x7b\n\treturn\n\x7d\n" ++
    "if n > 0 \x7b\n\tg()\n\x7d else if h(func() \x7b\x7d) \x7b\n").toList := by
  have hwf : PartsWf true [.code "n, err := f()\n".toList,
      .block ⟨⟨[], " err != nil ".toList⟩, "\n\treturn\n".toList, [], "\n".toList⟩,
      .head ⟨[], " n > 0 ".toList⟩, .code "\n\tg()\n\x7d else ".toList,
      .head ⟨[], " h(func() \x7b\x7d) ".toList⟩, .code "\n".toList] := by
    refine .code ⟨closed_of_settles (by decide +kernel), by decide⟩ (by decide +kernel)
      (.inl (by decide +kernel)) (.block ?_ (.inl rfl) (by decide +kernel) (.head ?_
        (.code ⟨closed_of_settles (by decide +kernel), by decide⟩ (by decide +kernel)
          (.inl (by decide +kernel)) (.head ?_
            (.code ⟨closed_of_settles (by decide +kernel), by decide⟩ (by decide +kernel)
              (.inr rfl) .nil)))))
    · exact ⟨⟨by decide, by decide, .of_settles (by decide +kernel), by decide +kernel⟩,
        by decide +kernel, .of_settles (by decide +kernel),
        fun e he => absurd he List.not_mem_nil, by decide, by decide⟩
    · exact ⟨⟨by decide, by decide, .of_settles (by decide +kernel), by decide +kernel⟩,
        by decide +kernel, by decide +kernel⟩
    · exact ⟨⟨by decide, by decide, .of_settles (by decide +kernel), by decide +kernel⟩,
        by decide +kernel, by decide +kernel⟩
  exact hwf.shedsLines (by decide +kernel)

end StatementPart.PartsWf

end Masked

end RpcBindings
