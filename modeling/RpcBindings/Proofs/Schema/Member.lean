import RpcBindings.Proofs.Masked.Append
import RpcBindings.Proofs.Masked.Lookahead
import RpcBindings.Proofs.Masked.Reading
import RpcBindings.Schema.Interface

/-!
Members of a trait.

A trait is cut into its members where a statement ends at top level. A text that closes its delimiters
and is one statement on its own is cut out again wherever it stands among such texts
(`statementsFrom_members`), and read by its text alone. Main statement: a trait of such members, masked
one by one, has their outcomes in order, each the one that its member has alone in the trait
(`RpcInterface.members_independent`).
-/

namespace RpcBindings

namespace Masked

/-! ## Statements of a text in two parts -/

theorem statementsFrom_append (depth start i : Nat) (a b : List UInt8) :
    statementsFrom depth start i (a ++ b) =
      ((statementsFrom depth start i a).1 ++ (statementsFrom (depthFrom depth a)
          (statementsFrom depth start i a).2 (i + a.length) b).1,
        (statementsFrom (depthFrom depth a) (statementsFrom depth start i a).2
          (i + a.length) b).2) := by
  induction a generalizing depth start i with
  | nil => rfl
  | cons x a ih =>
    have hlength : i + (x :: a).length = i + 1 + a.length := by
      rw [List.length_cons]
      omega
    have hdepth : depthFrom depth (x :: a) = depthFrom (depthAfter depth x) a := rfl
    rw [List.cons_append, statementsFrom, statementsFrom, hlength, hdepth]
    split
    · rw [ih]
      rfl
    · exact ih _ _ _

theorem statementsFrom_add (depth n start i : Nat) (bs : List UInt8) :
    statementsFrom depth (n + start) (n + i) bs =
      ((statementsFrom depth start i bs).1.map (Span.shift n),
        n + (statementsFrom depth start i bs).2) := by
  induction bs generalizing depth start i with
  | nil => rfl
  | cons x bs ih =>
    rw [statementsFrom, statementsFrom, Nat.add_assoc n i 1]
    split
    · rw [ih]
      rfl
    · exact ih _ _ _

/-- In a well-nested text that a semicolon or a brace ends, it ends a statement. -/
theorem endsStatement_of_wellNested {bs : List UInt8} {c : Char} (hc : isStatementEnd c = true)
    (h : WellNested (bs ++ [c.toUInt8])) : endsStatement (depthFrom 0 bs) c.toUInt8 = true := by
  unfold WellNested at h
  rw [nestFrom_append] at h
  obtain ⟨st, hst, hlast⟩ := Option.bind_eq_some_iff.1 h
  obtain ⟨after, hstep, hafter⟩ := Option.bind_eq_some_iff.1 hlast
  obtain rfl := Option.some.inj hafter
  have hdepth : depthFrom 0 bs = st.length := depthFrom_of_nestFrom hst 0
  rw [hdepth]
  rcases isStatementEnd_iff.1 hc with rfl | rfl
  · rw [nestStep_of_isPlain (by decide)] at hstep
    obtain rfl := Option.some.inj hstep
    rfl
  · obtain ⟨hplain, -⟩ | ⟨d, -, hd⟩ | ⟨d, -, rfl⟩ := nestStep_eq_some hstep
    · exact absurd hplain (by decide)
    · exact absurd hd (by simp)
    · rfl

/-! ## Members -/

/-- A member of a trait as it can be written: it closes its delimiters, ends as a statement does, and
is the only statement that is found in it. -/
structure IsMember (t : List Char) : Prop where
  ends : (mask .rust t).getLast?.any isStatementEnd = true
  nested : WellNested (ofSource .rust t).bytes
  alone : (ofSource .rust t).splitStatements 0 (ofSource .rust t).size =
    [⟨0, (ofSource .rust t).size⟩]

instance (t : List Char) : Decidable (IsMember t) :=
  decidable_of_iff (_ ∧ _ ∧ _)
    ⟨fun ⟨ends, nested, alone⟩ => ⟨ends, nested, alone⟩, fun h => ⟨h.ends, h.nested, h.alone⟩⟩

namespace IsMember

variable {t : List Char}

theorem exists_last (h : IsMember t) :
    ∃ c, (mask .rust t).getLast? = some c ∧ isStatementEnd c = true :=
  (Option.any_eq_true _ _).1 h.ends

theorem byteLength_mask (h : IsMember t) :
    Text.byteLength (mask .rust t) = Text.byteLength t := by
  obtain ⟨c, hlast, hc⟩ := h.exists_last
  exact (concat_of_shown_last hc hlast).2

/-- The bytes of a member end with one that ends a statement. -/
theorem exists_bytes (h : IsMember t) : ∃ bs b, Text.bytes (mask .rust t) = bs ++ [b] ∧
    endsStatement (depthFrom 0 bs) b = true := by
  obtain ⟨c, hlast, hc⟩ := h.exists_last
  obtain ⟨before, hmask⟩ := List.getLast?_eq_some_iff.1 hlast
  have hnarrow : c.utf8Size = 1 := by
    rcases isStatementEnd_iff.1 hc with rfl | rfl <;> rfl
  have hbytes : Text.bytes (mask .rust t) = Text.bytes before ++ [c.toUInt8] := by
    rw [hmask, Text.bytes_append, Text.bytes_cons_of_narrow hnarrow, Text.bytes_nil]
  have hnested : WellNested (Text.bytes (mask .rust t)) := h.nested
  rw [hbytes] at hnested
  exact ⟨_, _, hbytes, endsStatement_of_wellNested hc hnested⟩

/-- Nothing is left behind the statement of a member. -/
theorem statementsFrom_eq (h : IsMember t) : statementsFrom 0 0 0 (Text.bytes (mask .rust t)) =
    ([⟨0, Text.byteLength t⟩], Text.byteLength t) := by
  obtain ⟨bs, b, hbytes, hends⟩ := h.exists_bytes
  have hsize : bs.length + 1 = Text.byteLength t := by
    have := congrArg List.length hbytes
    rw [Text.length_bytes, h.byteLength_mask, List.length_append] at this
    exact this.symm
  have hsplit : statementsFrom 0 0 0 (Text.bytes (mask .rust t)) =
      ((statementsFrom 0 0 0 bs).1 ++ [⟨(statementsFrom 0 0 0 bs).2, Text.byteLength t⟩],
        Text.byteLength t) := by
    rw [hbytes, statementsFrom_append, statementsFrom, if_pos hends, ← hsize, Nat.zero_add]
    rfl
  have hwhole : (ofSource .rust t).byteSlice 0 (ofSource .rust t).size =
      Text.bytes (mask .rust t) := List.take_length
  have hsizeOf : (ofSource .rust t).size = Text.byteLength t :=
    (Text.length_bytes _).trans h.byteLength_mask
  have halone := h.alone
  unfold splitStatements withTail at halone
  rw [hwhole, hsplit, hsizeOf] at halone
  simp only [isBlank_self, if_true] at halone
  rw [hsplit, halone]

theorem statementsFrom_add_append (h : IsMember t) (i : Nat) (rest : List UInt8) :
    statementsFrom 0 i i (Text.bytes (mask .rust t) ++ rest) =
      (⟨i, i + Text.byteLength t⟩ ::
          (statementsFrom 0 (i + Text.byteLength t) (i + Text.byteLength t) rest).1,
        (statementsFrom 0 (i + Text.byteLength t) (i + Text.byteLength t) rest).2) := by
  have hfirst : statementsFrom 0 i i (Text.bytes (mask .rust t)) =
      ([⟨i, i + Text.byteLength t⟩], i + Text.byteLength t) := by
    have := statementsFrom_add 0 i 0 0 (Text.bytes (mask .rust t))
    rwa [h.statementsFrom_eq] at this
  have hdepth : depthFrom 0 (Text.bytes (mask .rust t)) = 0 := depthFrom_of_nestFrom h.nested 0
  rw [statementsFrom_append, hfirst, hdepth, Text.length_bytes, h.byteLength_mask]
  rfl

theorem not_allBlank (h : IsMember t) : Text.allBlank (mask .rust t) = false := by
  obtain ⟨c, hlast, hc⟩ := h.exists_last
  refine Bool.eq_false_iff.2 fun hblank => ?_
  have hcblank := List.all_eq_true.1 hblank c (List.mem_of_getLast? hlast)
  rcases isStatementEnd_iff.1 hc with rfl | rfl <;> exact absurd hcblank (by decide)

end IsMember

variable {m : Masked} {i : Nat} {members : List (List Char)}

theorem byteLength_flatMap_mask (h : ∀ t ∈ members, IsMember t) :
    Text.byteLength (members.flatMap (mask .rust)) = Text.byteLength members.flatten := by
  induction members with
  | nil => rfl
  | cons t members ih =>
    rw [List.flatMap_cons, List.flatten_cons, Text.byteLength_append, Text.byteLength_append,
      (h t List.mem_cons_self).byteLength_mask, ih fun u hu => h u (List.mem_cons_of_mem t hu)]

theorem wellNested_flatMap_mask (h : ∀ t ∈ members, IsMember t) :
    WellNested (Text.bytes (members.flatMap (mask .rust))) := by
  induction members with
  | nil => rfl
  | cons t members ih =>
    rw [List.flatMap_cons, Text.bytes_append]
    exact (h t List.mem_cons_self).nested.append (ih fun u hu => h u (List.mem_cons_of_mem t hu))

/-- Members one after the other are cut out as they were written. -/
theorem statementsFrom_members {rest behind : List Char} (h : ∀ t ∈ members, IsMember t)
    (hsource : m.SourceFrom i (members.flatten ++ rest))
    (hcode : m.CodeFrom i (members.flatMap (mask .rust) ++ behind)) :
    ∃ spans, statementsFrom 0 i i (Text.bytes (members.flatMap (mask .rust))) =
        (spans, i + Text.byteLength members.flatten) ∧
      spans.map m.spanText = members ∧ ∀ s ∈ spans, m.isBlank s.start s.stop = false := by
  induction members generalizing i with
  | nil => exact ⟨[], rfl, rfl, nofun⟩
  | cons t members ih =>
    have ht := h t List.mem_cons_self
    rw [List.flatten_cons, List.append_assoc] at hsource
    rw [List.flatMap_cons, List.append_assoc] at hcode
    have hslice : m.codeSlice i (i + Text.byteLength t) = mask .rust t := by
      rw [← ht.byteLength_mask]
      exact hcode.codeSlice
    have hdrop := hcode.drop
    rw [ht.byteLength_mask] at hdrop
    obtain ⟨spans, hspans, htexts, hblank⟩ :=
      ih (fun u hu => h u (List.mem_cons_of_mem t hu)) hsource.drop hdrop
    refine ⟨⟨i, i + Text.byteLength t⟩ :: spans, ?_, ?_, ?_⟩
    · rw [List.flatMap_cons, Text.bytes_append, ht.statementsFrom_add_append, hspans,
        List.flatten_cons, Text.byteLength_append, Nat.add_assoc]
    · rw [List.map_cons, htexts]
      exact congrArg (· :: members) hsource.slice
    · intro s hs
      rcases List.mem_cons.1 hs with rfl | hs
      · unfold isBlank
        rw [hslice]
        exact ht.not_allBlank
      · exact hblank s hs

theorem memberTexts_members {rest behind : List Char} (h : ∀ t ∈ members, IsMember t)
    (hsource : m.SourceFrom i (members.flatten ++ rest))
    (hcode : m.CodeFrom i (members.flatMap (mask .rust) ++ behind)) :
    m.memberTexts i (i + Text.byteLength members.flatten) = members := by
  obtain ⟨spans, hspans, htexts, hblank⟩ := statementsFrom_members h hsource hcode
  have hslice : m.byteSlice i (i + Text.byteLength members.flatten) =
      Text.bytes (members.flatMap (mask .rust)) := by
    rw [← byteLength_flatMap_mask h]
    exact hcode.byteSlice
  unfold memberTexts splitStatements withTail
  rw [hslice, hspans]
  simp only [isBlank_self, if_true]
  rw [List.filter_eq_self.2 fun s hs => by rw [hblank s hs]; rfl, htexts]

/-! ## The head of a trait -/

/-- A name as a trait can have: an identifier that begins with an ASCII letter or an underscore, or a
raw one. -/
def IsTraitName : List Char → Prop
  | [] => False
  | c :: cs => (c.utf8Size = 1 ∧ isWordStart c.toUInt8 = true) ∧
    ∀ d ∈ cs, d = '#' ∨ Text.Identifier.isContinue d = true

instance : (t : List Char) → Decidable (IsTraitName t)
  | [] => inferInstanceAs (Decidable False)
  | _ :: _ => inferInstanceAs (Decidable (_ ∧ _))

/-- A trait up to the brace that opens its body. -/
def traitHead (name : List Char) : List Char :=
  "trait".toList ++ ' ' :: (name ++ [' ', '{'])

/-- A trait with some members. -/
def traitText (name : List Char) (members : List (List Char)) : List Char :=
  traitHead name ++ (members.flatten ++ ['}'])

namespace IsTraitName

variable {name : List Char}

theorem not_mem (h : IsTraitName name) {d : Char} (hstart : isWordStart d.toUInt8 = false)
    (hhash : d ≠ '#') (hcontinue : Text.Identifier.isContinue d = false) : d ∉ name := by
  match name, h with
  | c :: cs, ⟨⟨_, hc⟩, hcs⟩ =>
    rw [List.mem_cons, not_or]
    refine ⟨?_, fun hd => ?_⟩
    · rintro rfl
      rw [hstart] at hc
      exact Bool.false_ne_true hc
    · rcases hcs d hd with heq | hmem
      · exact hhash heq
      · rw [hcontinue] at hmem
        exact Bool.false_ne_true hmem

/-- No byte of a name opens or closes. -/
theorem isPlain_bytes (h : IsTraitName name) : (Text.bytes name).all isPlain = true := by
  have hascii {c : Char} (hc : c.toUInt8 < 0x80) (hsize : c.utf8Size = 1) (hnot : c ∉ name) :
      c.toUInt8 ∉ Text.bytes name := by
    intro hmem
    obtain ⟨d, hd, hnarrow, hbyte⟩ := Text.exists_of_mem_bytes hmem hc
    exact hnot (Text.eq_of_toUInt8_eq hnarrow hsize hbyte ▸ hd)
  refine List.all_eq_true.2 fun b hb => ?_
  unfold isPlain
  rw [Bool.and_eq_true, Option.isNone_iff_eq_none, Option.isNone_iff_eq_none]
  constructor
  · refine Option.eq_none_iff_forall_ne_some.2 fun d hd => ?_
    rw [Delimiter.eq_opener_of_ofOpener? hd] at hb
    cases d <;> exact hascii (by decide) (by decide) (h.not_mem (by decide) (by decide) rfl) hb
  · refine Option.eq_none_iff_forall_ne_some.2 fun d hd => ?_
    rw [Delimiter.eq_closer_of_ofCloser? hd] at hb
    cases d <;> exact hascii (by decide) (by decide) (h.not_mem (by decide) (by decide) rfl) hb

/-- The head of a trait is code, and what follows it is masked on its own. -/
theorem mask_head (h : IsTraitName name) (b : List Char) :
    mask .rust (traitHead name ++ b) = traitHead name ++ mask .rust b := by
  have hnot {d : Char} (hd : d ∉ name) (hword : d ∉ "trait \x7b".toList) : d ∉ traitHead name := by
    unfold traitHead
    rw [List.mem_append, List.mem_cons, List.mem_append]
    rintro (hmem | rfl | hmem | hmem)
    · exact hword (List.mem_append_left [' ', '{'] hmem)
    · exact hword (by decide)
    · exact hd hmem
    · exact hword (List.mem_append_right "trait".toList hmem)
  have hlast : traitHead name = ("trait".toList ++ ' ' :: (name ++ [' '])) ++ ['{'] := by
    simp [traitHead]
  have hraw : NoRawPrefix .rust ([] ++ traitHead name) b := by
    intro _ n _ _
    unfold Lexeme.endsInRawPrefix
    rw [List.nil_append, hlast, List.reverse_append, List.reverse_append, List.reverse_replicate,
      List.dropWhile_append_of_pos fun c hc => by simp [List.eq_of_mem_replicate hc]]
    rfl
  have hquote : '"' ∉ traitHead name := hnot (h.not_mem (by decide) (by decide) rfl) (by decide)
  have hsingle : '\'' ∉ traitHead name := hnot (h.not_mem (by decide) (by decide) rfl) (by decide)
  have hslash : '/' ∉ traitHead name := hnot (h.not_mem (by decide) (by decide) rfl) (by decide)
  have hfresh : wordAfter ([] ++ traitHead name) = .fresh := by
    rw [List.nil_append, hlast]
    exact wordAfter_concat_of_not_isWordChar _ (by decide)
  have hshown : maskFrom .rust (.code (wordAfter [])) (traitHead name ++ b) =
      traitHead name ++ maskFrom .rust (.code (wordAfter ([] ++ traitHead name))) b :=
    maskFrom_shown hquote nofun (fun x y hsplit => absurd rfl (not_mem_of_split hsingle hsplit))
      (fun x y hsplit => absurd rfl (not_mem_of_split hslash hsplit)) hraw
  rw [hfresh] at hshown
  exact hshown

/-- Where a copy begins with the head of a trait, the first word of the name is its name, and the brace
that ends the head opens the body. -/
theorem exists_word (h : IsTraitName name) : ∃ word later, name = word ++ later ∧
    ∀ (m : Masked) (rest : List Char), m.CodeFrom 0 (traitHead name ++ rest) →
      m.nameAfter? "trait".length = some ⟨6, 6 + Text.byteLength word⟩ ∧
      m.findTopLevel? (6 + Text.byteLength word) m.size '\x7b' =
        some (6 + Text.byteLength name + 1) := by
  have hplain := h.isPlain_bytes
  match name, h with
  | c :: cs, ⟨⟨hnarrow, hstart⟩, _⟩ =>
  obtain ⟨a, b, rfl, ha, hb⟩ := Masked.exists_word cs
  have hblank : Text.isBlank c = false := by
    refine Bool.eq_false_iff.2 fun hc => ?_
    rcases Text.eq_of_isBlank hc hnarrow with rfl | rfl | rfl | rfl | rfl | rfl <;>
      exact absurd hstart (by decide)
  have hlater : (Text.bytes (b ++ [' '])).all isPlain = true := by
    rw [← List.cons_append, Text.bytes_append, List.all_append, Bool.and_eq_true] at hplain
    rw [Text.bytes_append, List.all_append, hplain.2]
    rfl
  refine ⟨c :: a, b, rfl, fun m rest hcode => ?_⟩
  have htext : traitHead (c :: (a ++ b)) ++ rest =
      "trait".toList ++ ([' '] ++ (c :: a ++ (b ++ [' '] ++ '\x7b' :: rest))) := by
    simp [traitHead]
  rw [htext] at hcode
  have hhead : m.CodeFrom 5 _ := hcode.drop
  have hname : m.CodeFrom 6 (c :: a ++ (b ++ [' '] ++ '\x7b' :: rest)) := hhead.drop
  constructor
  · have hskip : m.skipBlank? 5 = some 6 := hhead.skipBlank? (by decide) hblank
    have hident := hname.identAt? hstart hnarrow ha (by rw [List.append_assoc]; exact hb _)
    unfold nameAfter?
    rw [show "trait".length = 5 from rfl, hskip]
    exact hident
  · have hbrace := hname.drop.findTopLevel? (by decide)
      (topLevelOffset_of_not_mem (fun hmem => ?_) 0)
      (depthFrom_of_nestFrom (nestFrom_of_all_isPlain hlater []) 0)
    · rw [hbrace]
      refine congrArg some ?_
      simp only [Text.byteLength_append, Text.byteLength_cons, Text.byteLength_nil]
      have : (' ' : Char).utf8Size = 1 := rfl
      omega
    · exact absurd (List.all_eq_true.1 hlater _ hmem) (by decide)

end IsTraitName

theorem interfacesFrom_of_lt (m : Masked) (options : InterfaceOptions) {places : List Nat}
    {start : Nat} (h : ∀ i ∈ places, i < start) : m.interfacesFrom options places start = [] := by
  induction places with
  | nil => rfl
  | cons i places ih =>
    rw [interfacesFrom, if_pos (h i List.mem_cons_self)]
    exact ih fun j hj => h j (List.mem_cons_of_mem i hj)

/-- A word at the beginning is the first of its places. -/
theorem wordStarts_of_wordAt_zero {m : Masked} {word : String} (hsize : 0 < m.size)
    (h : m.wordAt word.toList 0 = true) :
    ∃ later, m.wordStarts word = 0 :: later ∧ ∀ i ∈ later, i < m.size := by
  have hmem : 0 ∈ m.wordStarts word := mem_wordStarts.2 ⟨hsize, h⟩
  have hsorted := pairwise_wordStarts m word
  cases hplaces : m.wordStarts word with
  | nil => exact absurd (hplaces ▸ hmem) List.not_mem_nil
  | cons i later =>
    rw [hplaces] at hmem hsorted
    have hzero : i = 0 := by
      rcases List.mem_cons.1 hmem with hi | hlater
      · exact hi.symm
      · exact absurd ((List.pairwise_cons.1 hsorted).1 0 hlater) (Nat.not_lt_zero i)
    exact ⟨later, by rw [hzero], fun j hj =>
      (mem_wordStarts.1 (hplaces ▸ List.mem_cons_of_mem i hj)).1⟩

/-- A trait up to its name, across the space behind that. -/
def traitLead (name : List Char) : List Char :=
  "trait".toList ++ ' ' :: (name ++ [' '])

theorem traitHead_eq (name : List Char) : traitHead name = traitLead name ++ ['\x7b'] := by
  simp [traitHead, traitLead]

theorem byteLength_traitLead (name : List Char) :
    Text.byteLength (traitLead name) = 6 + Text.byteLength name + 1 := by
  unfold traitLead
  rw [Text.byteLength_append, Text.byteLength_cons, Text.byteLength_append]
  show 5 + (1 + (Text.byteLength name + 1)) = _
  omega

theorem byteLength_traitHead (name : List Char) :
    Text.byteLength (traitHead name) = 6 + Text.byteLength name + 1 + 1 := by
  rw [traitHead_eq, Text.byteLength_append, byteLength_traitLead]
  rfl

/-- The word of a trait that begins the text is the first one that is found. -/
theorem wordStarts_trait {m : Masked} {name b : List Char} (h : m.CodeFrom 0 (traitHead name ++ b)) :
    ∃ later, m.wordStarts "trait" = 0 :: later ∧ ∀ i ∈ later, i < m.size := by
  have hbytes := h.drop_bytes
  unfold traitHead at hbytes
  rw [List.append_assoc, Text.bytes_append] at hbytes
  refine wordStarts_of_wordAt_zero ?_ ?_
  · rw [h.size_eq, Text.byteLength_append, byteLength_traitHead]
    omega
  · unfold wordAt wordHere
    rw [hbytes, List.drop_left, List.isPrefixOf_iff_prefix.2 (List.prefix_append _ _)]
    rfl

/-- A trait is read as one interface, with the outcomes of its members, each read by its text. -/
theorem interfacesFrom_trait {m : Masked} {name word later : List Char} {members : List (List Char)}
    (hword : name = word ++ later) (hmembers : ∀ t ∈ members, IsMember t)
    (hsource : m.source = traitHead name ++ (members.flatten ++ ['\x7d']))
    (hcode : m.code = traitHead name ++ (members.flatMap (mask .rust) ++ ['\x7d']))
    (htitle : m.nameAfter? "trait".length = some ⟨6, 6 + Text.byteLength word⟩)
    (hopened : m.findTopLevel? (6 + Text.byteLength word) m.size '\x7b' =
      some (6 + Text.byteLength name + 1)) (options : InterfaceOptions) :
    m.interfacesFrom options (m.wordStarts "trait") 0 =
      [⟨.ofList word, options.nspace?.getD (Namespace.ofInterface (.ofList word)),
        members.map (RpcMethod.ofText options
          (options.nspace?.getD (Namespace.ofInterface (.ofList word))))⟩] := by
  have hlen : Text.byteLength (members.flatMap (mask .rust)) = Text.byteLength members.flatten :=
    byteLength_flatMap_mask hmembers
  have hbrace : m.CodeFrom (6 + Text.byteLength name + 1)
      ('\x7b' :: (members.flatMap (mask .rust) ++ ['\x7d'])) :=
    ⟨traitLead name, by rw [hcode, traitHead_eq, List.append_assoc]; rfl, byteLength_traitLead name⟩
  have hinside : m.CodeFrom (6 + Text.byteLength name + 1 + 1)
      (members.flatMap (mask .rust) ++ ['\x7d']) := ⟨traitHead name, hcode, byteLength_traitHead name⟩
  have hbody : m.SourceFrom (6 + Text.byteLength name + 1 + 1) (members.flatten ++ ['\x7d']) :=
    ⟨traitHead name, hsource, byteLength_traitHead name⟩
  have hend : m.size =
      6 + Text.byteLength name + 1 + 1 + Text.byteLength members.flatten + 1 := by
    rw [hinside.size_eq, Text.byteLength_append, hlen]
    rfl
  have hsize : m.sourceSize = m.size := by
    rw [hend, sourceSize, hsource, Text.byteLength_append, byteLength_traitHead,
      Text.byteLength_append]
    rfl
  have hclosed : m.closer? (6 + Text.byteLength name + 1) =
      some (6 + Text.byteLength name + 1 + 1 + Text.byteLength members.flatten) := by
    rw [← hlen]
    exact hbrace.closer? (d := .brace) (wellNested_flatMap_mask hmembers)
  have hname : m.spanText ⟨6, 6 + Text.byteLength word⟩ = word := by
    refine SourceFrom.slice (b := later ++ [' ', '\x7b'] ++ (members.flatten ++ ['\x7d'])) ?_
    refine ⟨"trait".toList ++ [' '], ?_, rfl⟩
    rw [hsource, traitHead, hword]
    simp only [List.append_assoc, List.cons_append, List.nil_append]
  obtain ⟨places, hplaces, hbefore⟩ := wordStarts_trait (m := m) ⟨[], hcode, rfl⟩
  rw [hplaces, interfacesFrom, if_neg (Nat.lt_irrefl 0), Nat.zero_add, htitle]
  simp only [hsize, hopened, hclosed]
  rw [interfacesFrom_of_lt m options fun i hi => by rw [← hend]; exact hbefore i hi, hname]
  unfold interfaceBetween
  rw [memberTexts_members hmembers hbody hinside]

/-- Of members that are masked one by one, each is masked so alone. -/
theorem mask_member {members : List (List Char)} (h : ∀ t ∈ members, IsMember t)
    (hmask : mask .rust (members.flatten ++ ['\x7d']) = members.flatMap (mask .rust) ++ ['\x7d']) :
    ∀ t ∈ members, mask .rust (t ++ ['\x7d']) = mask .rust t ++ ['\x7d'] := by
  induction members with
  | nil => exact nofun
  | cons t members ih =>
    rw [List.flatten_cons, List.flatMap_cons, List.append_assoc, List.append_assoc] at hmask
    obtain ⟨c, hlast, hc⟩ := (h t List.mem_cons_self).exists_last
    have happend {y : List Char} (hy : y = members.flatten ++ ['\x7d'] ∨ '\'' ∉ y) :
        mask .rust (t ++ y) = mask .rust t ++ mask .rust y :=
      mask_append_of_shown_last (List.append_ne_nil_of_right_ne_nil _ (List.cons_ne_nil _ _)) hc
        hlast hmask hy
    have hlater : mask .rust (members.flatten ++ ['\x7d']) =
        members.flatMap (mask .rust) ++ ['\x7d'] :=
      List.append_cancel_left ((happend (.inl rfl)).symm.trans hmask)
    intro u hu
    rcases List.mem_cons.1 hu with rfl | hu
    · exact happend (.inr (by decide))
    · exact ih (fun v hv => h v (List.mem_cons_of_mem t hv)) hlater u hu

end Masked

namespace RpcInterface

open Masked

/-- A trait whose members are masked one by one is one interface, with the outcomes of its members,
each read by its text. -/
theorem readAll_traitText {name : List Char} (hname : IsTraitName name) :
    ∃ title : String, ∀ (options : InterfaceOptions) (members : List (List Char)),
      (∀ t ∈ members, IsMember t) →
      mask .rust (members.flatten ++ ['\x7d']) = members.flatMap (mask .rust) ++ ['\x7d'] →
      readAll options (.ofList (traitText name members)) =
        [⟨title, options.nspace?.getD (Namespace.ofInterface title),
          members.map (RpcMethod.ofText options
            (options.nspace?.getD (Namespace.ofInterface title)))⟩] := by
  obtain ⟨word, later, hword, hhead⟩ := hname.exists_word
  refine ⟨.ofList word, fun options members hmembers hmask => ?_⟩
  have hcode : (ofSource .rust (traitText name members)).code =
      traitHead name ++ (members.flatMap (mask .rust) ++ ['\x7d']) := by
    rw [code_ofSource, traitText, hname.mask_head, hmask]
  obtain ⟨htitle, hopened⟩ := hhead _ _ ⟨[], hcode, rfl⟩
  unfold readAll
  rw [String.toList_ofList]
  exact interfacesFrom_trait hword hmembers rfl hcode htitle hopened options

/-- Members of a trait are read independently of each other: a trait of some members is one interface
with as many outcomes, and a trait with one of the members alone is the same interface with its
outcome. -/
theorem members_independent (options : InterfaceOptions) {name : List Char}
    {members : List (List Char)} (hname : IsTraitName name) (hmembers : ∀ t ∈ members, IsMember t)
    (hmask : mask .rust (traitText name members) =
      mask .rust (traitHead name) ++ (members.flatMap (mask .rust) ++ mask .rust ['\x7d'])) :
    ∃ i, readAll options (.ofList (traitText name members)) = [i] ∧
      List.Forall₂ (fun t o => readAll options (.ofList (traitText name [t])) =
        [{ i with members := [o] }]) members i.members := by
  have hhead : mask .rust (traitHead name) = traitHead name := by
    have := hname.mask_head []
    rwa [List.append_nil, show mask .rust [] = [] from rfl, List.append_nil] at this
  rw [traitText, hname.mask_head, hhead] at hmask
  have hbody := List.append_cancel_left hmask
  obtain ⟨title, hread⟩ := readAll_traitText hname
  refine ⟨_, hread options members hmembers hbody, ?_⟩
  rw [List.forall₂_map_right_iff, List.forall₂_same]
  intro t ht
  have hone : ∀ u ∈ [t], IsMember u := fun u hu => List.mem_singleton.1 hu ▸ hmembers t ht
  rw [hread options [t] hone (by simpa using mask_member hmembers hbody t ht)]
  rfl

/-- A documented method with a quote in its comment, a method without an attribute but with a body, and
a statement that is no method. -/
def mixedMembers : List (List Char) :=
  ["\n// a \x7b b's\n#[rpc(name = \"h;\")] fn height(&self) -> U64;".toList,
    " fn helper(&self) \x7b f(';'); \x7d".toList, "\nlet 'a [x];".toList]

theorem members_independent_mixed :
    IsTraitName "Cfx_é".toList ∧ (∀ t ∈ mixedMembers, IsMember t) ∧
      mask .rust (traitText "Cfx_é".toList mixedMembers) = mask .rust (traitHead "Cfx_é".toList) ++
        (mixedMembers.flatMap (mask .rust) ++ mask .rust ['\x7d']) ∧
      ∃ i, readAll ⟨none, []⟩ (.ofList (traitText "Cfx_é".toList mixedMembers)) = [i] ∧
        List.Forall₂ (fun t o => readAll ⟨none, []⟩ (.ofList (traitText "Cfx_é".toList [t])) =
          [{ i with members := [o] }]) mixedMembers i.members := by
  have hname : IsTraitName "Cfx_é".toList := by decide +kernel
  have hmembers : ∀ t ∈ mixedMembers, IsMember t := by decide +kernel
  have hmask : mask .rust (traitText "Cfx_é".toList mixedMembers) =
      mask .rust (traitHead "Cfx_é".toList) ++
        (mixedMembers.flatMap (mask .rust) ++ mask .rust ['\x7d']) := by decide +kernel
  exact ⟨hname, hmembers, hmask, members_independent ⟨none, []⟩ hname hmembers hmask⟩

/-- A trait whose name begins with another letter than an ASCII one is not read at all. -/
theorem members_not_read :
    IsMember "fn a(&self);".toList ∧
      mask .rust (traitText ['é'] ["fn a(&self);".toList]) = mask .rust (traitHead ['é']) ++
        (mask .rust "fn a(&self);".toList ++ mask .rust ['\x7d']) ∧
      readAll ⟨none, []⟩ (.ofList (traitText ['é'] ["fn a(&self);".toList])) = [] :=
  ⟨by decide +kernel, by decide +kernel, List.eq_nil_of_length_eq_zero (by decide +kernel)⟩

end RpcInterface

end RpcBindings
