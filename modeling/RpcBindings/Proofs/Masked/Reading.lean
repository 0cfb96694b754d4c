import RpcBindings.Proofs.Masked.Closed
import RpcBindings.Proofs.Masked.WellNested

/-!
Searches in a masked text whose parts are known.

`CodeFrom m i cs` says that the masked copy reads `cs` from offset `i` to its end, `SourceFrom` the
same of the source. When the next part of the text is known every search has a known answer; the
lemmas give it, search by search.
-/

namespace RpcBindings.Masked

variable {m : Masked} {i : Nat} {cs : List Char}

/-- From an offset on the masked copy reads as a text. -/
def CodeFrom (m : Masked) (i : Nat) (cs : List Char) : Prop :=
  ∃ a, m.code = a ++ cs ∧ Text.byteLength a = i

/-- From an offset on the source reads as a text. -/
def SourceFrom (m : Masked) (i : Nat) (cs : List Char) : Prop :=
  ∃ a, m.source = a ++ cs ∧ Text.byteLength a = i

namespace CodeFrom

theorem start (m : Masked) : m.CodeFrom 0 m.code := ⟨[], rfl, rfl⟩

/-- Behind a part of the text the rest is read. -/
theorem drop {a b : List Char} (h : m.CodeFrom i (a ++ b)) :
    m.CodeFrom (i + Text.byteLength a) b := by
  obtain ⟨before, hcode, rfl⟩ := h
  exact ⟨before ++ a, by rw [hcode, List.append_assoc], Text.byteLength_append _ _⟩

theorem drop_bytes (h : m.CodeFrom i cs) : m.bytes.drop i = Text.bytes cs := by
  obtain ⟨before, hcode, rfl⟩ := h
  rw [m.bytes_eq, hcode, Text.drop_bytes_append]

theorem size_eq (h : m.CodeFrom i cs) : m.size = i + Text.byteLength cs := by
  obtain ⟨before, hcode, rfl⟩ := h
  unfold size
  rw [m.bytes_eq, hcode, Text.length_bytes, Text.byteLength_append]

theorem getElem? (h : m.CodeFrom i cs) (k : Nat) : m.bytes[i + k]? = (Text.bytes cs)[k]? := by
  rw [← h.drop_bytes, List.getElem?_drop]

theorem codeSlice {a b : List Char} (h : m.CodeFrom i (a ++ b)) :
    m.codeSlice i (i + Text.byteLength a) = a := by
  obtain ⟨before, hcode, rfl⟩ := h
  unfold Masked.codeSlice
  rw [hcode, ← List.append_assoc]
  exact Text.cut_append before a b

theorem byteSlice {a b : List Char} (h : m.CodeFrom i (a ++ b)) :
    m.byteSlice i (i + Text.byteLength a) = Text.bytes a := by
  unfold Masked.byteSlice
  rw [h.drop_bytes, Nat.add_sub_cancel_left, Text.take_bytes_append]

theorem isBlank {a b : List Char} (h : m.CodeFrom i (a ++ b)) (ha : Text.allBlank a = true) :
    m.isBlank i (i + Text.byteLength a) = true := by
  unfold Masked.isBlank
  rw [h.codeSlice]
  exact ha

theorem hasChar {c : Char} {b : List Char} (h : m.CodeFrom i (c :: b)) (hc : c.utf8Size = 1) :
    m.hasChar i c = true := by
  have := h.getElem? 0
  rw [Text.bytes_cons_of_narrow hc] at this
  exact hasChar_iff.2 this

theorem hasChar_eq_false {c d : Char} {b : List Char} (h : m.CodeFrom i (c :: b))
    (hc : c.utf8Size = 1) (hd : c.toUInt8 ≠ d.toUInt8) : m.hasChar i d = false := by
  refine Bool.eq_false_iff.2 fun hchar => hd ?_
  have := h.getElem? 0
  rw [Text.bytes_cons_of_narrow hc] at this
  exact Option.some.inj (this.symm.trans (hasChar_iff.1 hchar))

/-! ## Blanks and names -/

theorem skipBlank? {a b : List Char} {c : Char} (h : m.CodeFrom i (a ++ c :: b))
    (ha : Text.allBlank a = true) (hc : Text.isBlank c = false) :
    m.skipBlank? i = some (i + Text.byteLength a) := by
  obtain ⟨before, hcode, rfl⟩ := h
  have htake : (a ++ c :: b).takeWhile Text.isBlank = a := by
    rw [List.takeWhile_append_of_pos fun x hx => List.all_eq_true.1 ha x hx,
      List.takeWhile_cons_of_neg (by simp [hc]), List.append_nil]
  have hblank : Text.allBlank (a ++ c :: b) = false := by
    refine Bool.eq_false_iff.2 fun hall => ?_
    have := List.all_eq_true.1 hall c (by simp)
    rw [hc] at this
    exact Bool.false_ne_true this
  unfold Masked.skipBlank?
  rw [hcode, Text.dropBytes?_append]
  simp only [hblank, htake]
  rfl

/-- The word that begins at an offset ends before the first byte that is no word's. -/
theorem identAt? {a b : List Char} {c : Char} (h : m.CodeFrom i (c :: a ++ b))
    (hc : isWordStart c.toUInt8 = true) (hc' : c.utf8Size = 1)
    (ha : ∀ x ∈ Text.bytes a, isWordByte x = true)
    (hb : breaksWord (Text.bytes b).head? = true) :
    m.identAt? i = some ⟨i, i + Text.byteLength (c :: a)⟩ := by
  have htake : (Text.bytes a ++ Text.bytes b).takeWhile isWordByte = Text.bytes a := by
    rw [List.takeWhile_append_of_pos ha]
    cases hbytes : Text.bytes b with
    | nil => rw [List.takeWhile_nil, List.append_nil]
    | cons x xs =>
      rw [hbytes] at hb
      have hx : isWordByte x = false := by simpa [breaksWord] using hb
      rw [List.takeWhile_cons_of_neg (by simp [hx]), List.append_nil]
  unfold Masked.identAt?
  rw [h.drop_bytes, List.cons_append, Text.bytes_cons_of_narrow hc', Text.bytes_append]
  simp only [hc, if_true, htake, Text.length_bytes, Text.byteLength_cons, hc', Nat.add_assoc]

/-! ## Delimiters -/

theorem closer? {d : Delimiter} {a b : List Char}
    (h : m.CodeFrom i (d.opener :: (a ++ d.closer :: b))) (ha : WellNested (Text.bytes a)) :
    m.closer? i = some (i + 1 + Text.byteLength a) := by
  have hopener : d.opener.utf8Size = 1 := by cases d <;> rfl
  have hcloser : d.closer.utf8Size = 1 := by cases d <;> rfl
  unfold Masked.closer?
  rw [h.drop_bytes, Text.bytes_cons_of_narrow hopener, Text.bytes_append,
    Text.bytes_cons_of_narrow hcloser]
  simp only [Delimiter.ofOpener?_opener, closerOffset_of_wellNested ha d, Option.map_some,
    Text.length_bytes]

theorem parensAfter? {x a b : List Char} (h : m.CodeFrom i (x ++ '(' :: (a ++ ')' :: b)))
    (hx : Text.allBlank x = true) (ha : WellNested (Text.bytes a)) :
    m.parensAfter? i =
      some ⟨i + Text.byteLength x, i + Text.byteLength x + 1 + Text.byteLength a⟩ := by
  have hopened := h.drop
  have hclosed : m.closer? (i + Text.byteLength x) = _ := hopened.closer? (d := .paren) ha
  unfold Masked.parensAfter?
  rw [h.skipBlank? hx (by decide)]
  simp only [hopened.hasChar (by decide), if_true, hclosed, Option.map_some]

/-- The first top-level place of a character behind a part without one. -/
theorem findTopLevel? {a b : List Char} {c : Char} (h : m.CodeFrom i (a ++ c :: b))
    (hc : c.utf8Size = 1) (ha : topLevelOffset c.toUInt8 0 (Text.bytes a) = none)
    (hdepth : depthFrom 0 (Text.bytes a) = 0) :
    m.findTopLevel? i m.size c = some (i + Text.byteLength a) := by
  have hslice : m.byteSlice i m.size = Text.bytes (a ++ c :: b) := by
    have := h.size_eq
    rw [this]
    unfold Masked.byteSlice
    rw [h.drop_bytes, Nat.add_sub_cancel_left, ← Text.length_bytes, List.take_length]
  unfold Masked.findTopLevel?
  rw [hslice, Text.bytes_append, topLevelOffset_append, ha, Option.none_or, hdepth,
    Text.bytes_cons_of_narrow hc, topLevelOffset, if_pos (by simp), Option.map_some,
    Option.map_some, Text.length_bytes, Nat.add_zero]

end CodeFrom

namespace SourceFrom

theorem drop {a b : List Char} (h : m.SourceFrom i (a ++ b)) :
    m.SourceFrom (i + Text.byteLength a) b := by
  obtain ⟨before, hsource, rfl⟩ := h
  exact ⟨before ++ a, by rw [hsource, List.append_assoc], Text.byteLength_append _ _⟩

theorem slice {a b : List Char} (h : m.SourceFrom i (a ++ b)) :
    m.slice i (i + Text.byteLength a) = a := by
  obtain ⟨before, hsource, rfl⟩ := h
  unfold Masked.slice
  rw [hsource, ← List.append_assoc]
  exact Text.cut_append before a b

end SourceFrom

/-! ## Solid texts -/

/-- The text is closed, whatever follows it. -/
structure Solid (t : List Char) : Prop where
  closed : Closed t
  no_slash : t.getLast? ≠ some '/'

theorem Solid.mask_append {a : List Char} (h : Solid a) (b : List Char) :
    mask .go (a ++ b) = mask .go a ++ mask .go b :=
  Masked.mask_append h.closed fun hslash => absurd hslash h.no_slash

/-- A bare character is code, and the rest is masked on its own. -/
theorem mask_cons {c : Char} (hc : isBareChar c = true) (b : List Char) :
    mask .go (c :: b) = c :: mask .go b := by
  have hbare : isBare [c] = true := isBare_of_all (by simpa using hc)
  have hsolid : Solid [c] := by
    refine ⟨closed_of_isBare hbare, fun hlast => ?_⟩
    obtain rfl := Option.some.inj hlast
    exact absurd hc (by decide)
  have := hsolid.mask_append b
  rwa [mask_of_isBare hbare] at this

/-! ## Plain texts -/

/-- A character of one byte that is code everywhere and no delimiter. -/
def isPlainChar (c : Char) : Bool :=
  c.utf8Size == 1 && isBareChar c && isPlain c.toUInt8

/-- A text that is code everywhere and holds no delimiter. -/
def Plain (t : List Char) : Prop :=
  t.all isPlainChar = true

instance (t : List Char) : Decidable (Plain t) :=
  inferInstanceAs (Decidable (_ = _))

namespace Plain

variable {a b t : List Char}

theorem append (ha : Plain a) (hb : Plain b) : Plain (a ++ b) := by
  unfold Plain
  rw [List.all_append, Bool.and_eq_true]
  exact ⟨ha, hb⟩

theorem all_isBareChar (h : Plain t) : t.all isBareChar = true := by
  refine List.all_eq_true.2 fun c hc => ?_
  have := List.all_eq_true.1 h c hc
  unfold isPlainChar at this
  rw [Bool.and_eq_true, Bool.and_eq_true] at this
  exact this.1.2

theorem isBare (h : Plain t) : isBare t = true :=
  isBare_of_all h.all_isBareChar

theorem mask_eq (h : Plain t) : mask .go t = t :=
  mask_of_isBare h.isBare

theorem solid (h : Plain t) : Solid t := by
  refine ⟨closed_of_isBare h.isBare, fun hlast => ?_⟩
  have := List.all_eq_true.1 h _ (List.mem_of_getLast? hlast)
  exact absurd this (by decide)

theorem isPlain_bytes (h : Plain t) : (Text.bytes t).all isPlain = true := by
  induction t with
  | nil => rfl
  | cons c cs ih =>
    have hc := List.all_eq_true.1 h c List.mem_cons_self
    unfold isPlainChar at hc
    rw [Bool.and_eq_true, Bool.and_eq_true, beq_iff_eq] at hc
    have hcs : Plain cs := List.all_eq_true.2 fun d hd =>
      List.all_eq_true.1 h d (List.mem_cons_of_mem c hd)
    rw [Text.bytes_cons_of_narrow hc.1.1, List.all_cons, Bool.and_eq_true]
    exact ⟨hc.2, ih hcs⟩

end Plain

/-! ## Regular texts -/

/-- The text is closed, and its delimiters are well nested where they are code. -/
structure Regular (t : List Char) : Prop where
  closed : Closed t
  balanced : WellNested (Text.bytes (mask .go t))

theorem Plain.regular {t : List Char} (h : Plain t) : Regular t := by
  refine ⟨h.solid.closed, ?_⟩
  rw [h.mask_eq]
  exact wellNested_of_all_isPlain h.isPlain_bytes

theorem Regular.append {a b : List Char} (ha : Regular a) (hb : Regular b)
    (h : a.getLast? = some '/' → Detached b) : Regular (a ++ b) := by
  refine ⟨ha.closed.append hb.closed h, ?_⟩
  rw [mask_append ha.closed h, Text.bytes_append]
  exact ha.balanced.append hb.balanced

theorem solid_opener (d : Delimiter) : Solid [d.opener] := by
  refine ⟨closed_of_isBare ?_, ?_⟩ <;> cases d <;> decide

theorem solid_closer (d : Delimiter) : Solid [d.closer] := by
  refine ⟨closed_of_isBare ?_, ?_⟩ <;> cases d <;> decide

theorem detached_closer (d : Delimiter) (b : List Char) : Detached (d.closer :: b) := by
  refine detached_cons ?_ ?_ b <;> cases d <;> decide

/-- A closed text between delimiters is masked on its own. -/
theorem mask_enclosed {a : List Char} (ha : Closed a) (d : Delimiter) (b : List Char) :
    mask .go (d.opener :: (a ++ d.closer :: b)) =
      d.opener :: (mask .go a ++ d.closer :: mask .go b) := by
  have hopener : isBareChar d.opener = true := by cases d <;> decide
  have hcloser : isBareChar d.closer = true := by cases d <;> decide
  rw [mask_cons hopener, mask_append ha fun _ => detached_closer d b, mask_cons hcloser]

theorem Regular.enclose {a : List Char} (ha : Regular a) (d : Delimiter) :
    Regular (d.opener :: (a ++ [d.closer])) := by
  have hclosed : Closed (a ++ [d.closer]) :=
    ha.closed.append (solid_closer d).closed fun _ => detached_closer d []
  refine ⟨?_, ?_⟩
  · have := (solid_opener d).closed.append hclosed fun h => absurd h (solid_opener d).no_slash
    rwa [List.singleton_append] at this
  · have hopener : d.opener.utf8Size = 1 := by cases d <;> rfl
    have hcloser : d.closer.utf8Size = 1 := by cases d <;> rfl
    rw [mask_enclosed ha.closed, Text.bytes_cons_of_narrow hopener, Text.bytes_append,
      Text.bytes_cons_of_narrow hcloser]
    exact ha.balanced.enclose d

theorem getLast?_enclosed (d : Delimiter) (a : List Char) :
    (d.opener :: (a ++ [d.closer])).getLast? ≠ some '/' := by
  rw [← List.cons_append, List.getLast?_append_of_ne_nil _ (List.cons_ne_nil _ _)]
  exact (solid_closer d).no_slash

/-! ## Texts in code -/

/-- From an offset on the source reads as a text, and the scan stands in code there. -/
def TextFrom (m : Masked) (i : Nat) (cs : List Char) : Prop :=
  m.SourceFrom i cs ∧ m.CodeFrom i (mask .go cs)

namespace TextFrom

theorem start (source : List Char) : (ofSource .go source).TextFrom 0 source :=
  ⟨⟨[], rfl, rfl⟩, CodeFrom.start _⟩

theorem code_append {a b : List Char} (h : m.TextFrom i (a ++ b)) (ha : Closed a)
    (hab : a.getLast? = some '/' → Detached b) : m.CodeFrom i (mask .go a ++ mask .go b) := by
  rw [← mask_append ha hab]
  exact h.2

theorem at_eq {j : Nat} {cs : List Char} (h : m.TextFrom i cs) (hij : i = j) : m.TextFrom j cs :=
  hij ▸ h

/-- Behind a closed part the scan stands in code again. -/
theorem drop {a b : List Char} (h : m.TextFrom i (a ++ b)) (ha : Closed a)
    (hab : a.getLast? = some '/' → Detached b) : m.TextFrom (i + Text.byteLength a) b := by
  refine ⟨h.1.drop, ?_⟩
  rw [← byteLength_mask ha]
  exact (h.code_append ha hab).drop

theorem codeSlice {a b : List Char} (h : m.TextFrom i (a ++ b)) (ha : Closed a)
    (hab : a.getLast? = some '/' → Detached b) :
    m.codeSlice i (i + Text.byteLength a) = mask .go a := by
  rw [← byteLength_mask ha]
  exact (h.code_append ha hab).codeSlice

theorem byteSlice {a b : List Char} (h : m.TextFrom i (a ++ b)) (ha : Closed a)
    (hab : a.getLast? = some '/' → Detached b) :
    m.byteSlice i (i + Text.byteLength a) = Text.bytes (mask .go a) := by
  rw [← byteLength_mask ha]
  exact (h.code_append ha hab).byteSlice

/-- The partner of an opener before a regular text is the closer behind it. -/
theorem closer? {d : Delimiter} {a b : List Char}
    (h : m.TextFrom i (d.opener :: (a ++ d.closer :: b))) (ha : Regular a) :
    m.closer? i = some (i + 1 + Text.byteLength a) := by
  have hcode := h.2
  rw [mask_enclosed ha.closed] at hcode
  rw [hcode.closer? ha.balanced, byteLength_mask ha.closed]

theorem parensAfter? {x a b : List Char} (h : m.TextFrom i (x ++ '(' :: (a ++ ')' :: b)))
    (hx : Plain x) (hblank : Text.allBlank x = true) (ha : Regular a) :
    m.parensAfter? i =
      some ⟨i + Text.byteLength x, i + Text.byteLength x + 1 + Text.byteLength a⟩ := by
  have hcode := h.2
  have hparens := mask_enclosed ha.closed .paren b
  rw [hx.solid.mask_append, hx.mask_eq] at hcode
  rw [show mask .go ('(' :: (a ++ ')' :: b)) = _ from hparens] at hcode
  have := hcode.parensAfter? hblank ha.balanced
  rwa [byteLength_mask ha.closed] at this

theorem hasChar {c : Char} {b : List Char} (h : m.TextFrom i (c :: b)) (hsize : c.utf8Size = 1)
    (hc : isBareChar c = true) : m.hasChar i c = true := by
  have hcode := h.2
  rw [mask_cons hc] at hcode
  exact hcode.hasChar hsize

/-- A plain part shows as it is. -/
theorem code_plain {a b : List Char} (h : m.TextFrom i (a ++ b)) (ha : Plain a) :
    m.CodeFrom i (a ++ mask .go b) := by
  have := h.2
  rwa [ha.solid.mask_append, ha.mask_eq] at this

/-- Behind a plain part the scan stands in code again. -/
theorem drop_plain {a b : List Char} (h : m.TextFrom i (a ++ b)) (ha : Plain a) :
    m.TextFrom (i + Text.byteLength a) b :=
  h.drop ha.solid.closed fun hslash => absurd hslash ha.solid.no_slash

theorem drop_char {c : Char} {b : List Char} (h : m.TextFrom i (c :: b))
    (hc : isPlainChar c = true) : m.TextFrom (i + 1) b := by
  have hplain : Plain [c] := by simpa [Plain] using hc
  have hsize : c.utf8Size = 1 := by
    unfold isPlainChar at hc
    rw [Bool.and_eq_true, Bool.and_eq_true, beq_iff_eq] at hc
    exact hc.1.1
  have := drop_plain (a := [c]) h hplain
  rwa [Text.byteLength_cons, hsize, Text.byteLength_nil] at this

/-- Behind a regular part between delimiters the scan stands in code again. -/
theorem drop_enclosed {d : Delimiter} {a b : List Char}
    (h : m.TextFrom i (d.opener :: (a ++ d.closer :: b))) (ha : Regular a) :
    m.TextFrom (i + 1 + Text.byteLength a + 1) b := by
  have hopener : d.opener.utf8Size = 1 := by cases d <;> rfl
  have hcloser : d.closer.utf8Size = 1 := by cases d <;> rfl
  have hsplit : d.opener :: (a ++ d.closer :: b) = d.opener :: (a ++ [d.closer]) ++ b := by simp
  have hclosed := (ha.enclose d).closed
  rw [hsplit] at h
  have := h.drop hclosed fun hslash => absurd hslash (getLast?_enclosed d a)
  rw [Text.byteLength_cons, Text.byteLength_append, Text.byteLength_cons, hopener, hcloser,
    Text.byteLength_nil] at this
  rwa [show i + 1 + Text.byteLength a + 1 = i + (1 + (Text.byteLength a + (1 + 0))) by omega]

/-- A part of the source that is read from an offset on. -/
theorem slice {a b : List Char} (h : m.TextFrom i (a ++ b)) :
    m.slice i (i + Text.byteLength a) = a :=
  h.1.slice

theorem parensAfter?_here {a b : List Char} (h : m.TextFrom i ('(' :: (a ++ ')' :: b)))
    (ha : Regular a) : m.parensAfter? i = some ⟨i, i + 1 + Text.byteLength a⟩ :=
  parensAfter? (x := []) h rfl rfl ha

theorem parensAfter?_space {a b : List Char} (h : m.TextFrom i (' ' :: '(' :: (a ++ ')' :: b)))
    (ha : Regular a) : m.parensAfter? i = some ⟨i + 1, i + 1 + 1 + Text.byteLength a⟩ :=
  parensAfter? (x := [' ']) h (by unfold Plain; decide) (by decide) ha

end TextFrom

end RpcBindings.Masked
