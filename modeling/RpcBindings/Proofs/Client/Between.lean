import RpcBindings.Proofs.Client.Function
import RpcBindings.Proofs.Masked.Hidden
import RpcBindings.Proofs.Masked.Line
import RpcBindings.Proofs.Masked.Pieces

/-!
Functions in a file whose parts are known.

Between two functions no line of code begins with the keyword. Main statements: such a part is passed
over (`CodeFrom.holdsNoFunction_line`, `CodeFrom.holdsNoFunction_of_not_mem`), and a function is held
where its text begins a line (`TextFrom.holdsFunction`).
-/

namespace RpcBindings.Masked

variable {m : Masked} {i j k : Nat}

/-! ## No function -/

theorem HoldsNoFunction.append (h : m.HoldsNoFunction i j) (h' : m.HoldsNoFunction j k) :
    m.HoldsNoFunction i k := by
  intro n hn hk hw
  by_cases hj : n < j
  · exact h n hn hj hw
  · exact h' n (Nat.le_of_not_lt hj) hk hw

theorem HoldsFunctions.extend {fs : List FunctionSpan} (h : m.HoldsFunctions j fs)
    (hnone : m.HoldsNoFunction i j) (hle : i ≤ j) : m.HoldsFunctions i fs := by
  cases fs with
  | nil => exact hnone.append h
  | cons f fs => exact ⟨Nat.le_trans hle h.1, hnone.append h.2.1, h.2.2⟩

/-- Where the keyword stands its first letter does. -/
theorem CodeFrom.exists_split_of_wordAt_func {a b : List Char} (h : m.CodeFrom i (a ++ b)) {n : Nat}
    (hn : i ≤ n) (hlt : n < i + Text.byteLength a) (hw : m.wordAt "func".toList n = true) :
    ∃ before after, a = before ++ 'f' :: after ∧ n = i + Text.byteLength before := by
  have hfirst : m.bytes[n]? = some 'f'.toUInt8 := @getElem?_of_wordAt m _ n hw 0 _ rfl
  obtain ⟨d, rfl⟩ := Nat.exists_eq_add_of_le hn
  rw [h.getElem?, Text.bytes_append,
    List.getElem?_append_left (by rw [Text.length_bytes]; omega)] at hfirst
  obtain ⟨before, c, after, ha, rfl, hc, hb⟩ := Text.exists_split_of_ascii hfirst (by decide)
  have hf : c = 'f' := by
    have : Text.bytes [c] = Text.bytes ['f'] := by
      rw [Text.bytes_cons_of_narrow hc, hb]
      rfl
    exact (List.cons.inj (Text.bytes_injective this)).1
  exact ⟨before, after, hf ▸ ha, rfl⟩

/-- Code without the first letter of the keyword holds no function. -/
theorem CodeFrom.holdsNoFunction_of_not_mem {a b : List Char} (h : m.CodeFrom i (a ++ b))
    (ha : 'f' ∉ a) : m.HoldsNoFunction i (i + Text.byteLength a) := by
  intro n hn hlt hw
  obtain ⟨before, after, rfl, -⟩ := h.exists_split_of_wordAt_func hn hlt hw
  exact absurd (by simp) ha

/-- Behind the blanks at its start the text begins with the keyword. -/
def beginsFunction (cs : List Char) : Bool :=
  wordHere (Text.bytes "func".toList) none (Text.bytes (Text.trimStart cs))

theorem beginsFunction_append_of_allBlank {blank : List Char} (h : Text.allBlank blank = true)
    (cs : List Char) : beginsFunction (blank ++ cs) = beginsFunction cs := by
  unfold beginsFunction Text.trimStart
  rw [List.dropWhile_append_of_pos fun c hc => List.all_eq_true.1 h c hc]

/-- A name before a space begins a function only when it does so itself. -/
theorem beginsFunction_append_space {a : List Char} (ha : ∀ c ∈ a, Text.isBlank c = false)
    (h : beginsFunction a = false) (hne : a ≠ []) (rest : List Char) :
    beginsFunction (a ++ ' ' :: rest) = false := by
  obtain ⟨c, cs, rfl⟩ := List.exists_cons_of_ne_nil hne
  have hc := ha c List.mem_cons_self
  have htrim (x : List Char) : Text.trimStart (c :: x) = c :: x :=
    @Text.trimStart_append [] c rfl hc x
  refine Bool.eq_false_iff.2 fun hfunc => ?_
  unfold beginsFunction at h hfunc
  rw [htrim] at h
  have hspace : Text.bytes (c :: cs ++ ' ' :: rest) =
      Text.bytes (c :: cs) ++ ' '.toUInt8 :: Text.bytes rest :=
    Text.bytes_append _ _
  rw [List.cons_append, htrim, ← List.cons_append, hspace] at hfunc
  have hhere : wordHere (Text.bytes "func".toList) none (Text.bytes (c :: cs)) = true :=
    wordHere_of_append_cons (by decide) id hfunc
  rw [hhere] at h
  exact Bool.false_ne_true h.symm

/-- A line that does not begin with the keyword holds no function. -/
theorem CodeFrom.holdsNoFunction_line {a b : List Char} (h : m.CodeFrom i (a ++ b))
    (hstart : m.IsLineStart i) (ha : '\n'.toUInt8 ∉ Text.bytes a)
    (hfunc : beginsFunction (a ++ b) = false) : m.HoldsNoFunction i (i + Text.byteLength a) := by
  intro n hn hlt hw
  obtain ⟨before, after, rfl, rfl⟩ := h.exists_split_of_wordAt_func hn hlt hw
  rw [List.append_assoc] at h hfunc
  have hbefore : '\n'.toUInt8 ∉ Text.bytes before := fun hmem => ha (by
    rw [Text.bytes_append]
    exact List.mem_append_left _ hmem)
  refine Bool.eq_false_iff.2 fun hline => ?_
  have hblank : Text.allBlank before = true := by
    unfold beginsLine Masked.isBlank at hline
    rwa [h.lineStart_add hbefore, hstart.lineStart_eq, h.codeSlice] at hline
  have hword : beginsFunction (before ++ ('f' :: after ++ b)) = true := by
    unfold wordAt wordHere at hw
    rw [h.drop.drop_bytes, Bool.and_eq_true, Bool.and_eq_true] at hw
    unfold beginsFunction wordHere
    rw [List.cons_append, Text.trimStart_append hblank (by decide), Bool.and_eq_true,
      Bool.and_eq_true]
    exact ⟨⟨hw.1.1, rfl⟩, hw.2⟩
  rw [hword] at hfunc
  exact Bool.false_ne_true hfunc.symm

/-! ## Lines without a function -/

/-- Whole lines that hold no function, wherever they stand in code. -/
structure Inert (a : List Char) : Prop extends Solid a where
  passed : ∀ ⦃m : Masked⦄ ⦃i : Nat⦄ ⦃rest : List Char⦄, m.TextFrom i (a ++ rest) → m.IsLineStart i →
    m.IsLineStart (i + Text.byteLength a) ∧ m.HoldsNoFunction i (i + Text.byteLength a)

theorem inert_nil : Inert [] :=
  ⟨hidden_nil.toSolid, fun _ _ _ _ hstart => ⟨hstart, fun _ hn hlt => absurd hlt (Nat.not_lt.2 hn)⟩⟩

/-- Behind a solid part the scan stands in code again. -/
theorem TextFrom.drop_solid {a b : List Char} (h : m.TextFrom i (a ++ b)) (ha : Solid a) :
    m.TextFrom (i + Text.byteLength a) b :=
  h.drop ha.closed fun hslash => absurd hslash ha.no_slash

theorem Inert.append {a b : List Char} (ha : Inert a) (hb : Inert b) : Inert (a ++ b) := by
  refine ⟨ha.toSolid.append hb.toSolid, fun m i rest ht hstart => ?_⟩
  rw [List.append_assoc] at ht
  obtain ⟨hstart, hnone⟩ := ha.passed ht hstart
  obtain ⟨hstart, hnone'⟩ := hb.passed (ht.drop_solid ha.toSolid) hstart
  rw [Text.byteLength_append, ← Nat.add_assoc]
  exact ⟨hstart, hnone.append hnone'⟩

theorem TextFrom.isLineStart_newline {a rest : List Char} (ht : m.TextFrom i (a ++ ['\n'] ++ rest))
    (ha : Solid (a ++ ['\n'])) : m.IsLineStart (i + Text.byteLength (a ++ ['\n'])) := by
  obtain ⟨x, hx⟩ := exists_mask_append_newline (.code .fresh) a
  have hmask : mask .go (a ++ ['\n']) = x ++ ['\n'] := hx
  have hcode := ht.code_append ha.closed fun hslash => absurd hslash ha.no_slash
  have hlen := byteLength_mask ha.closed
  rw [hmask, Text.byteLength_append] at hlen
  rw [hmask, List.append_assoc] at hcode
  have := hcode.drop.isLineStart
  rwa [← hlen, ← Nat.add_assoc]

/-- Hidden lines hold no function. -/
theorem inert_of_hidden {a : List Char} (ha : Hidden (a ++ ['\n'])) : Inert (a ++ ['\n']) := by
  refine ⟨ha.toSolid, fun m i rest ht _ => ?_⟩
  have hdetached : (a ++ ['\n']).getLast? = some '/' → Detached rest :=
    fun hslash => absurd hslash ha.no_slash
  have hnone := (ht.code_append ha.closed hdetached).holdsNoFunction_of_not_mem fun hmem => by
    rcases ha.blank _ hmem with h | h <;> exact absurd h (by decide)
  rw [byteLength_mask ha.closed] at hnone
  exact ⟨ht.isLineStart_newline ha.toSolid, hnone⟩

/-- A line holds no function when its bare head does not begin with the keyword, and when the rest of
it shows none of the keyword's first letter. -/
theorem inert_line {head tail : List Char} (hbare : isBare head = true)
    (hslash : head.getLast? ≠ some '/') (hline : '\n'.toUInt8 ∉ Text.bytes head) (htail : Solid tail)
    (hnone : 'f' ∉ mask .go tail)
    (hfunc : ∀ rest, beginsFunction (head ++ (mask .go tail ++ rest)) = false) :
    Inert (head ++ tail ++ ['\n']) := by
  have hhead : Solid head := ⟨closed_of_isBare hbare, hslash⟩
  have hsolid : Solid (head ++ tail ++ ['\n']) :=
    (hhead.append htail).append hidden_newline.toSolid
  refine ⟨hsolid, fun m i rest ht hstart => ⟨ht.isLineStart_newline hsolid, ?_⟩⟩
  have hcode := ht.2
  rw [show head ++ tail ++ ['\n'] ++ rest = head ++ (tail ++ '\n' :: rest) by simp,
    hhead.mask_append, mask_of_isBare hbare, htail.mask_append, mask_cons (by decide)] at hcode
  have hfirst := hcode.holdsNoFunction_line hstart hline (hfunc _)
  have hlater : m.CodeFrom (i + Text.byteLength head)
      (mask .go tail ++ ['\n'] ++ mask .go rest) := by
    rw [List.append_assoc]
    exact hcode.drop
  have hlater := hlater.holdsNoFunction_of_not_mem fun hmem => by
    rcases List.mem_append.1 hmem with hmem | hmem
    · exact hnone hmem
    · exact absurd hmem (by decide)
  rw [Text.byteLength_append, byteLength_mask htail.closed, ← Nat.add_assoc] at hlater
  rw [Text.byteLength_append, Text.byteLength_append, ← Nat.add_assoc, ← Nat.add_assoc]
  exact hfirst.append hlater

/-! ## A function -/

/-- A text that begins a line with the keyword and has a body is a function. -/
theorem TextFrom.holdsFunction {head body rest : List Char}
    (ht : m.TextFrom i ("func".toList ++ ' ' :: head ++ '\x7b' :: (body ++ '\x7d' :: rest)))
    (hstart : m.IsLineStart i) (hhead : Lacks '\x7b' (' ' :: head)) (hbody : Regular body)
    (htype : m.opensType (i + 4 + Text.byteLength (' ' :: head)) = false) :
    m.HoldsFunction ⟨i, i + 4 + Text.byteLength (' ' :: head),
      i + 4 + Text.byteLength (' ' :: head) + 1 + Text.byteLength body⟩ := by
  have hkeyword : Plain "func".toList := by unfold Plain; decide
  rw [List.append_assoc] at ht
  have hword : m.wordAt "func".toList i = true := by
    have hcode := (ht.code_plain hkeyword).drop_bytes
    rw [List.cons_append, mask_cons (by decide), Text.bytes_append,
      Text.bytes_cons_of_narrow (by decide)] at hcode
    unfold wordAt wordHere
    rw [hcode, List.drop_left, Bool.and_eq_true, Bool.and_eq_true]
    exact ⟨⟨List.isPrefixOf_iff_prefix.2 (List.prefix_append _ _), hstart.breaksWord⟩, rfl⟩
  have hrest : m.TextFrom (i + 4) (' ' :: head ++ '\x7b' :: (body ++ '\x7d' :: rest)) :=
    ht.drop_plain hkeyword
  have hdetached : (' ' :: head).getLast? = some '/' → Detached ('\x7b' :: (body ++ '\x7d' :: rest)) :=
    fun _ => detached_cons (by decide) (by decide) _
  have hcode := hrest.code_append hhead.closed hdetached
  rw [mask_cons (c := '\x7b') (by decide)] at hcode
  have hfind := hcode.findTopLevel? (by decide) hhead.absent hhead.depthFrom_zero
  rw [byteLength_mask hhead.closed] at hfind
  refine ⟨hword, hstart.beginsLine, ?_, ?_⟩
  · rw [bodyOpener?_eq]
    show (m.findTopLevel? (i + 4) m.size '\x7b').bind _ = _
    rw [hfind, Option.bind_some, htype]
    rfl
  · exact (hrest.drop hhead.closed hdetached).closer? (d := .brace) hbody

end RpcBindings.Masked
