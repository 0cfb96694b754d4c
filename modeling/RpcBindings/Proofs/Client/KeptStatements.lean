import RpcBindings.Proofs.Client.Site
import RpcBindings.Proofs.Masked.Content

/-!
The statements around a call in the batched method.

They are kept line by line, so code that a line of them holds is code that a line of the source holds
(`KeptByLines.onLines`). Main statement: no primitive is called in the statements before the call, and
those after it call a primitive, and return without a value, only when the source does
(`kept_statements`). A second call is kept as it is (`kept_second_call`).
-/

namespace RpcBindings

namespace Masked

/-! ## Calls and bare returns -/

/-- The code calls a method by its name. -/
def Calls (method : String) (code : List Char) : Prop :=
  '.' :: method.toList ++ ['('] <:+: code

instance (method : String) (code : List Char) : Decidable (Calls method code) :=
  inferInstanceAs (Decidable (_ <:+: code))

/-- No value stands where the text begins: the line ends there, or the statement does, or its block. -/
def lacksValue (cs : List Char) : Bool :=
  match cs.dropWhile fun c => Text.isBlank c && c != '\n' with
  | [] => true
  | c :: _ => c == '\n' || c == ';' || c == '\x7d'

/-- No word reaches the end of the text. -/
def endsNoWord (cs : List Char) : Bool :=
  cs.getLast?.all (!isWordChar ·)

/-- A `return` stands in the code, a word of its own, and no value follows it. -/
def ReturnsBare (code : List Char) : Prop :=
  ∃ a b, code = a ++ ("return".toList ++ b) ∧ endsNoWord a = true ∧ lacksValue b = true

theorem returnsBare_iff {code : List Char} : ReturnsBare code ↔
    ∃ i < code.length, "return".toList <+: code.drop i ∧
      endsNoWord (code.take i) = true ∧ lacksValue (code.drop (i + 6)) = true := by
  constructor
  · rintro ⟨a, b, rfl, ha, hb⟩
    refine ⟨a.length, by simp, ?_, ?_, ?_⟩
    · rw [List.drop_left]
      exact List.prefix_append _ _
    · rwa [List.take_left]
    · rwa [← List.drop_drop, List.drop_left]
  · rintro ⟨i, -, ⟨b, hb⟩, ha, hvalue⟩
    refine ⟨code.take i, b, ?_, ha, ?_⟩
    · rw [hb, List.take_append_drop]
    · rwa [← List.drop_drop, ← hb] at hvalue

instance (code : List Char) : Decidable (ReturnsBare code) :=
  decidable_of_iff' _ returnsBare_iff

theorem infix_of_infix_append_left {c : Char} {w a b : List Char} (hc : c ∉ a)
    (h : c :: w <:+: a ++ b) : c :: w <:+: b := by
  rcases List.infix_append_iff.1 h with h | h | ⟨x, y, hxy, hx, hy⟩
  · exact absurd (h.subset List.mem_cons_self) hc
  · exact h
  · cases x with
    | nil => exact (show c :: w = y from hxy) ▸ hy.isInfix
    | cons e x =>
      obtain rfl := (List.cons.inj hxy).1
      exact absurd (hx.subset List.mem_cons_self) hc

theorem infix_of_infix_append_right {d : Char} {w a b : List Char} (hd : d ∉ b)
    (h : w ++ [d] <:+: a ++ b) : w ++ [d] <:+: a := by
  have hreverse : d :: w.reverse <:+: b.reverse ++ a.reverse := by
    have := List.reverse_infix.2 h
    rwa [List.reverse_append, List.reverse_append] at this
  have hd : d ∉ b.reverse := fun hmem => hd (List.mem_reverse.1 hmem)
  have := List.reverse_infix.2 (infix_of_infix_append_left hd hreverse)
  simpa using this

theorem infix_append_newline_iff {w a b : List Char} (hw : '\n' ∉ w) (hne : w ≠ []) :
    w <:+: a ++ '\n' :: b ↔ w <:+: a ∨ w <:+: b := by
  constructor
  · intro h
    rcases List.infix_append_iff.1 h with h | h | ⟨x, y, rfl, hx, hy⟩
    · exact .inl h
    · rcases List.infix_cons_iff.1 h with ⟨z, hz⟩ | h
      · obtain ⟨c, w, rfl⟩ := List.exists_cons_of_ne_nil hne
        exact absurd ((List.cons.inj hz).1 ▸ List.mem_cons_self) hw
      · exact .inr h
    · cases y with
      | nil => exact .inl (by rw [List.append_nil]; exact hx.isInfix)
      | cons c y =>
        obtain ⟨z, hz⟩ := hy
        obtain rfl : c = '\n' := (List.cons.inj hz).1
        exact absurd (List.mem_append_right x List.mem_cons_self) hw
  · rintro (h | h)
    · exact h.trans (List.prefix_append _ _).isInfix
    · exact h.trans ⟨a ++ ['\n'], [], by simp⟩

/-- A word is on a line when it holds no line feed and begins and ends with no blank. -/
theorem onLines_infix {c d : Char} {w : List Char} (hc : Text.isBlank c = false)
    (hd : Text.isBlank d = false) (hline : '\n' ∉ c :: w ++ [d]) :
    Text.OnLines (c :: w ++ [d] <:+: ·) := by
  have hout {e : Char} {b : List Char} (he : Text.isBlank e = false)
      (hb : Text.allBlank b = true) : e ∉ b := fun hmem => by
    rw [List.all_eq_true.1 hb e hmem] at he
    exact Bool.false_ne_true he.symm
  refine ⟨fun h => ?_, fun a b => infix_append_newline_iff hline (by simp),
    fun {head tail} a hhead htail => ⟨fun h => ?_, fun h => ?_⟩⟩
  · exact absurd (List.infix_nil.1 h) (by simp)
  · exact infix_of_infix_append_right (hout hd htail)
      (infix_of_infix_append_left (hout hc hhead) h)
  · exact h.trans ⟨head, tail, by simp⟩

theorem onLines_calls {method : String} (h : '\n' ∉ method.toList) :
    Text.OnLines (Calls method) := by
  refine onLines_infix (by decide) (by decide) fun hmem => ?_
  rcases List.mem_append.1 hmem with hmem | hmem
  · rcases List.mem_cons.1 hmem with hdot | hmem
    · exact absurd hdot (by decide)
    · exact h hmem
  · exact absurd hmem (by decide)

theorem lacksValue_append {e : List Char} (he : lacksValue e = true) (cs : List Char) :
    lacksValue (cs ++ e) = lacksValue cs := by
  unfold lacksValue at he ⊢
  rw [List.dropWhile_append]
  cases h : cs.dropWhile fun c => Text.isBlank c && c != '\n' with
  | nil => exact he
  | cons c rest => rfl

theorem lacksValue_of_allBlank {e : List Char} (he : Text.allBlank e = true) :
    lacksValue e = true := by
  unfold lacksValue
  cases h : e.dropWhile fun c => Text.isBlank c && c != '\n' with
  | nil => rfl
  | cons c rest =>
    have hmem : c ∈ e := (List.dropWhile_sublist _).subset (h ▸ List.mem_cons_self)
    have hnot := List.head?_dropWhile_not (fun c => Text.isBlank c && c != '\n') e
    rw [h] at hnot
    simp only [List.head?_cons, List.all_eq_true.1 he c hmem, Bool.true_and] at hnot
    simp_all

theorem lacksValue_newline (b : List Char) : lacksValue ('\n' :: b) = true := rfl

theorem endsNoWord_append {a : List Char} (ha : endsNoWord a = true) (b : List Char) :
    endsNoWord (a ++ b) = endsNoWord b := by
  cases b with
  | nil => rw [List.append_nil, ha]; rfl
  | cons c b =>
    unfold endsNoWord
    rw [List.getLast?_append_of_ne_nil _ (List.cons_ne_nil c b)]

theorem isWordChar_of_isBlank {c : Char} (h : Text.isBlank c = true) : isWordChar c = false := by
  refine Bool.eq_false_iff.2 fun hword => ?_
  have hunder : c = '_' → c.toNat = 95 := fun h => by rw [h]; rfl
  unfold Text.isBlank at h
  unfold isWordChar Char.isAlphanum Char.isAlpha Char.isUpper Char.isLower Char.isDigit at hword
  simp only [Bool.or_eq_true, Bool.and_eq_true, decide_eq_true_eq, beq_iff_eq, ge_iff_le,
    UInt32.le_iff_toNat_le] at h hword
  have hrange : c.toNat ≤ 122 ∧ 48 ≤ c.toNat := by
    rcases hword with hword | hword
    · simp only [Char.isValue, Char.reduceVal, UInt32.reduceToNat, Char.toNat_val] at hword
      omega
    · have := hunder hword
      omega
  omega

theorem endsNoWord_append_newline (a : List Char) : endsNoWord (a ++ ['\n']) = true := by
  unfold endsNoWord
  rw [List.getLast?_append_of_ne_nil _ (List.cons_ne_nil _ _)]
  rfl

theorem endsNoWord_of_allBlank {b : List Char} (hb : Text.allBlank b = true) :
    endsNoWord b = true := by
  unfold endsNoWord
  cases h : b.getLast? with
  | none => rfl
  | some c =>
    have hblank : Text.isBlank c = true := List.all_eq_true.1 hb c (List.mem_of_getLast? h)
    simp [isWordChar_of_isBlank hblank]

/-- A word in a text of two parts stands in one of them, or reaches from one into the other. -/
theorem exists_of_append_eq {a b x w y : List Char} (h : a ++ b = x ++ (w ++ y)) :
    (∃ z, x = a ++ z ∧ b = z ++ (w ++ y)) ∨ (∃ z, y = z ++ b ∧ a = x ++ (w ++ z)) ∨
      ∃ c ∈ a, ∃ d ∈ b.head?, c ∈ w ∧ d ∈ w := by
  rcases List.append_eq_append_iff.1 h with ⟨z, hx, hb⟩ | ⟨z, ha, hrest⟩
  · exact .inl ⟨z, hx, hb⟩
  · rcases List.append_eq_append_iff.1 hrest with ⟨u, rfl, hy⟩ | ⟨u, rfl, hb⟩
    · exact .inr (.inl ⟨u, hy, ha⟩)
    · cases u with
      | nil => exact .inr (.inl ⟨[], by simpa using hb.symm, by rw [ha]; simp⟩)
      | cons d u =>
        cases z with
        | nil => exact .inl ⟨[], by simpa using ha.symm, hb⟩
        | cons c z =>
          refine .inr (.inr ⟨c, by rw [ha]; simp, d, ?_, by simp, by simp⟩)
          rw [hb]
          rfl

theorem onLines_returnsBare : Text.OnLines ReturnsBare := by
  have hword {c : Char} (hc : c ∈ "return".toList) : Text.isBlank c = false := by
    revert c
    decide
  have houter {c : Char} {b : List Char} (hb : Text.allBlank b = true) (hc : c ∈ b) :
      Text.isBlank c = true :=
    List.all_eq_true.1 hb c hc
  refine ⟨?_, fun a b => ⟨?_, ?_⟩, fun {head tail} c hhead htail => ⟨?_, ?_⟩⟩
  · rintro ⟨a, b, hnil, -⟩
    exact absurd hnil (by simp)
  · rintro ⟨x, y, heq, hx, hy⟩
    rcases exists_of_append_eq heq with ⟨z, rfl, hb⟩ | ⟨z, rfl, rfl⟩ | ⟨-, -, d, hd, -, hmem⟩
    · cases z with
      | nil => exact absurd (List.cons.inj hb).1 (by decide)
      | cons d z =>
        obtain ⟨rfl, rfl⟩ := List.cons.inj hb
        rw [← List.singleton_append, ← List.append_assoc,
          endsNoWord_append (endsNoWord_append_newline a)] at hx
        exact .inr ⟨z, y, rfl, hx, hy⟩
    · rw [lacksValue_append (lacksValue_newline b)] at hy
      exact .inl ⟨x, z, rfl, hx, hy⟩
    · obtain rfl : '\n' = d := Option.some.inj hd
      exact absurd (hword hmem) (by decide)
  · rintro (⟨x, y, rfl, hx, hy⟩ | ⟨x, y, rfl, hx, hy⟩)
    · refine ⟨x, y ++ '\n' :: b, by simp, hx, ?_⟩
      rwa [lacksValue_append (lacksValue_newline b)]
    · refine ⟨a ++ ['\n'] ++ x, y, by simp, ?_, hy⟩
      rwa [endsNoWord_append (endsNoWord_append_newline a)]
  · rintro ⟨x, y, heq, hx, hy⟩
    obtain ⟨z, rfl, hrest⟩ : ∃ z, x = head ++ z ∧ c ++ tail = z ++ ("return".toList ++ y) := by
      rcases exists_of_append_eq heq with h | ⟨z, -, rfl⟩ | ⟨d, hd, -, -, hmem, -⟩
      · exact h
      · exact absurd (houter (c := 'r') hhead (by simp)) (by decide)
      · exact absurd (hword hmem) (by rw [houter hhead hd]; decide)
    rw [endsNoWord_append (endsNoWord_of_allBlank hhead)] at hx
    rcases exists_of_append_eq hrest with ⟨w, -, rfl⟩ | ⟨w, rfl, rfl⟩ | ⟨-, -, d, hd, -, hmem⟩
    · exact absurd (houter (c := 'r') htail (by simp)) (by decide)
    · rw [lacksValue_append (lacksValue_of_allBlank htail)] at hy
      exact ⟨z, w, rfl, hx, hy⟩
    · exact absurd (hword hmem)
        (by rw [houter htail (List.mem_of_mem_head? hd)]; decide)
  · rintro ⟨x, y, rfl, hx, hy⟩
    refine ⟨head ++ x, y ++ tail, by simp, ?_, ?_⟩
    · rwa [endsNoWord_append (endsNoWord_of_allBlank hhead)]
    · rwa [lacksValue_append (lacksValue_of_allBlank htail)]

/-! ## Kept statements -/

/-- A text whose statements are kept line by line: every line settles, and when the error blocks are
taken out whole lines are left. -/
structure KeptByLines (t : List Char) : Prop where
  settles : ∀ r ∈ Text.content t, settles (r ++ ['\n']) = true
  whole : Text.content (Client.without t 0 (ofSource .go t).errorBlocks) ⊆ Text.content t

instance (t : List Char) : Decidable (KeptByLines t) :=
  decidable_of_iff ((∀ r ∈ Text.content t, Masked.settles (r ++ ['\n']) = true) ∧
      ∀ r ∈ Text.content (Client.without t 0 (ofSource .go t).errorBlocks), r ∈ Text.content t)
    ⟨fun h => ⟨h.1, h.2⟩, fun h => ⟨h.1, h.2⟩⟩

/-- What the code of kept statements has on one of its lines, the code of the source has. -/
theorem KeptByLines.onLines {P : List Char → Prop} {t kept : List Char} (ht : KeptByLines t)
    (hP : Text.OnLines P) (hkept : Client.keptStatements? t = some kept)
    (h : P (mask .go kept)) : P (mask .go t) := by
  have hcontent : Text.content kept ⊆ Text.content t := by
    rw [Text.content_tidy? hkept]
    exact ht.whole
  obtain ⟨r, hr, h⟩ := (hP.iff_content _).1 h
  rw [content_mask fun r hr => ht.settles r (hcontent hr), List.mem_flatMap] at hr
  obtain ⟨line, hline, hr⟩ := hr
  refine (hP.iff_content _).2 ⟨r, ?_, h⟩
  rw [content_mask ht.settles, List.mem_flatMap]
  exact ⟨line, hcontent hline, hr⟩

/-! ## Before the call -/

variable {source : List Char} {primitives : List String} {f : FunctionSpan} {name : Span}
  {c : CallSite}

/-- A border of statements is a line feed or a character of code. -/
theorem exists_border {b : UInt8} (h : bordersStatement b = true) :
    ∃ d : Char, b = d.toUInt8 ∧ d.utf8Size = 1 ∧ d ≠ ' ' ∧ (d = '\n' ∨ isCodeChar d = true) := by
  unfold bordersStatement at h
  simp only [Bool.or_eq_true, decide_eq_true_eq] at h
  rcases h with ((rfl | rfl) | rfl) | rfl
  · exact ⟨'\n', rfl, by decide, by decide, .inl rfl⟩
  · exact ⟨';', rfl, by decide, by decide, .inr (by decide)⟩
  · exact ⟨'\x7b', rfl, by decide, by decide, .inr (by decide)⟩
  · exact ⟨'\x7d', rfl, by decide, by decide, .inr (by decide)⟩

/-- The statement of a call begins where the body does, or behind a border. -/
theorem statement_spec (hf : f ∈ (ofSource .go source).functions)
    (hc : (ofSource .go source).callSite primitives f name = .ok c) :
    (ofSource .go source).CutsAt c.statement ∧ (c.statement = c.bodyStart ∨
      ∃ i b, c.statement = i + 1 ∧ c.bodyStart ≤ i ∧ (ofSource .go source).bytes[i]? = some b ∧
        bordersStatement b = true) := by
  obtain ⟨params, hsite⟩ := callSite_eq_ok.1 hc
  have hcode := siteInCode hf hc
  have hle := Nat.le_trans hcode.body_le hcode.statement_le
  obtain ⟨-, -, hbegins⟩ := statementStart_spec (ofSource .go source) hle
  rw [hsite.body_eq, ← hsite.statement_eq] at hbegins
  rcases hbegins with heq | ⟨hlt, b, hb, hborder⟩
  · rw [heq, ← hsite.body_eq]
    exact ⟨hcode.bodyStart.cutsAt, .inl rfl⟩
  · obtain ⟨i, hi⟩ := Nat.exists_eq_add_of_lt hlt
    rw [hi, Nat.add_sub_cancel] at hb
    obtain ⟨hnarrow, hspace⟩ := lt_of_bordersStatement hborder
    rw [hi, hsite.body_eq]
    exact ⟨(cutsAt_of_byte hb hnarrow hspace).2, .inr ⟨_, b, rfl, Nat.le_add_right _ _, hb, hborder⟩⟩

/-- No primitive is called before the statement of the call. -/
theorem not_calls_before (hf : f ∈ (ofSource .go source).functions)
    (hc : (ofSource .go source).callSite primitives f name = .ok c) {q : String}
    (hq : q ∈ primitives) : ¬Calls q ((ofSource .go source).codeSlice c.bodyStart c.statement) := by
  rintro ⟨x, y, hxy⟩
  obtain ⟨params, hsite⟩ := callSite_eq_ok.1 hc
  have hcode := siteInCode hf hc
  obtain ⟨offset, hdot, hfirst⟩ := hsite.first_call
  obtain ⟨-, -, hearliest⟩ := firstCall?_eq_some hfirst
  rw [List.append_assoc] at hxy
  obtain ⟨hlen, -, hdrop⟩ := codeSlice_of_append hcode.bodyStart.cutsAt (statement_spec hf hc).1
    hcode.body_le hxy.symm
  have hpattern : Text.byteLength ('.' :: q.toList ++ ['('] ++ y) =
      (callPattern q).length + Text.byteLength y := by
    rw [callPattern, Text.length_bytes, Text.byteLength_append]
  have hpos : 0 < (callPattern q).length := List.length_pos_iff.2 (callPattern_ne_nil q)
  have hstatement := hcode.statement_le
  have hbody : c.bodyStart = f.body.start := hsite.body_eq
  have hclosed : c.dot ≤ f.body.stop := by
    have := hcode.dot_lt
    have := hcode.args_le
    have := hcode.args_lt
    have := hcode.return_le
    show c.dot ≤ f.closed
    omega
  have hcall : (callPattern q).isPrefixOf
      (((ofSource .go source).byteSlice f.body.start f.body.stop).drop (Text.byteLength x)) =
        true := by
    unfold byteSlice
    rw [List.isPrefixOf_iff_prefix, List.drop_take, List.drop_drop, List.prefix_take_iff, ← hbody,
      hdrop, Text.bytes_append, List.append_assoc]
    exact ⟨List.prefix_append _ _, by omega⟩
  rw [hearliest q hq (Text.byteLength x) (by omega)] at hcall
  exact Bool.false_ne_true hcall

/-- The statements before the call are masked as in the source. -/
theorem codeSlice_before (hf : f ∈ (ofSource .go source).functions)
    (hc : (ofSource .go source).callSite primitives f name = .ok c)
    (h : ∀ r ∈ Text.content ((ofSource .go source).slice c.bodyStart c.statement),
      settles (r ++ ['\n']) = true) :
    (ofSource .go source).codeSlice c.bodyStart c.statement =
      mask .go ((ofSource .go source).slice c.bodyStart c.statement) := by
  have hcode := siteInCode hf hc
  obtain ⟨hcut, hbegins⟩ := statement_spec hf hc
  rcases hbegins with heq | ⟨i, b, hi, hle, hb, hborder⟩
  · rw [heq]
    exact mask_slice hcode.bodyStart hcode.bodyStart (Nat.le_refl _)
  · have hlast : i + 1 < (ofSource .go source).size := by
      have := hcode.statement_le
      have := hcode.dot_lt
      have := hcode.args_le
      have := hcode.args_lt
      have := hcode.return_le
      have := hcode.closed_lt
      omega
    obtain ⟨d, rfl, -, -, rfl | hd⟩ := exists_border hborder
    · -- the statement may begin inside a comment, but the lines before it do not reach into it
      have hcuts := cutsAt_of_byte hb (by decide) (by decide)
      have hslice : (ofSource .go source).slice c.bodyStart c.statement =
          (ofSource .go source).slice c.bodyStart i ++ ['\n'] := by
        rw [hi, slice_append hcode.bodyStart.cutsAt hcuts.1 hcuts.2 hle (Nat.le_succ i),
          slice_of_hasChar (hasChar_iff.2 hb) (by decide) (by decide)]
      rw [hslice, Text.content_append_blank (by decide)] at h
      have hsolid := solid_lines h
      obtain ⟨rest, ⟨a, hsource, ha⟩, htext⟩ := hcode.bodyStart.exists_textFrom
      obtain ⟨⟨a', after, hsource', ha'⟩, -⟩ := hcut
      obtain ⟨mid, rfl, rfl, hmid⟩ := Text.exists_split_of_le hsource hsource'
        (by rw [ha, ha']; exact hcode.body_le)
      have hmid : (ofSource .go source).slice c.bodyStart c.statement = mid := by
        rw [← ha, ← ha']
        exact hmid
      rw [hslice] at hmid
      rw [Text.byteLength_append, ha] at ha'
      have hfrom : (ofSource .go source).TextFrom c.bodyStart (mid ++ after) :=
        ⟨⟨a, hsource, ha⟩, htext⟩
      rw [hslice, hmid, ← ha']
      rw [hmid] at hsolid
      exact hfrom.codeSlice hsolid.closed fun hslash => absurd hslash hsolid.no_slash
    · have hin := (inCode_of_hasChar (hasChar_iff.2 hb) hd hlast).2
      rw [← hi] at hin
      exact mask_slice hcode.bodyStart hin hcode.body_le

/-! ## Behind the call -/

/-- What still belongs to the line of the call shows, and the rest is masked on its own. -/
theorem exists_mask_afterCall (t : List Char) :
    ∃ a, t = a ++ afterCall t ∧ mask .go t = a ++ mask .go (afterCall t) ∧
      ∀ c ∈ a, c = ' ' ∨ c = '\t' ∨ c = ';' := by
  have hsplit : t = t.takeWhile (fun c => c == ' ' || c == '\t') ++
      ((t.dropWhile fun c => c == ' ' || c == '\t').takeWhile (· == ';') ++ afterCall t) := by
    unfold afterCall
    rw [List.takeWhile_append_dropWhile, List.takeWhile_append_dropWhile]
  have hall : ∀ c ∈ t.takeWhile (fun c => c == ' ' || c == '\t') ++
      (t.dropWhile fun c => c == ' ' || c == '\t').takeWhile (· == ';'),
      c = ' ' ∨ c = '\t' ∨ c = ';' := by
    intro c hc
    rcases List.mem_append.1 hc with hc | hc
    · have := List.all_eq_true.1 List.all_takeWhile c hc
      simp only [Bool.or_eq_true, beq_iff_eq] at this
      exact this.imp_right .inl
    · exact .inr (.inr (beq_iff_eq.1 (List.all_eq_true.1 List.all_takeWhile c hc)))
  rw [← List.append_assoc] at hsplit
  generalize t.takeWhile (fun c => c == ' ' || c == '\t') ++
    (t.dropWhile fun c => c == ' ' || c == '\t').takeWhile (· == ';') = a at hsplit hall
  have hbare : a.all isBareChar = true := List.all_eq_true.2 fun c hc => by
    rcases hall c hc with rfl | rfl | rfl <;> decide
  refine ⟨a, hsplit, ?_, hall⟩
  conv => lhs; rw [hsplit]
  rw [mask_append (closed_of_isBare (isBare_of_all hbare)) fun hslash => ?_,
    mask_of_isBare (isBare_of_all hbare)]
  exact absurd (List.all_eq_true.1 hbare _ (List.mem_of_getLast? hslash)) (by decide)

theorem Calls.append {method : String} {b : List Char} (h : Calls method b) (a : List Char) :
    Calls method (a ++ b) :=
  List.IsInfix.trans h (List.suffix_append a b).isInfix

theorem ReturnsBare.append {a b : List Char} (h : ReturnsBare b) (ha : endsNoWord a = true) :
    ReturnsBare (a ++ b) := by
  obtain ⟨x, y, rfl, hx, hy⟩ := h
  exact ⟨a ++ x, y, by simp, by rwa [endsNoWord_append ha], hy⟩

/-! ## All kept statements -/

/-- What the statements around a call still call, and where they return without a value. -/
theorem kept_of_callSite {receiver : Receiver} {s : SyncMethod}
    (hf : f ∈ (ofSource .go source).functions)
    (hc : (ofSource .go source).callSite primitives f name = .ok c)
    (hs : (ofSource .go source).methodAt? receiver c = some s)
    (hbefore : KeptByLines ((ofSource .go source).slice c.bodyStart c.statement))
    (hafter : KeptByLines (afterCall ((ofSource .go source).slice (c.args.stop + 1) c.returnAt))) :
    (∀ q ∈ primitives, '\n' ∉ q.toList → ¬Calls q (mask .go s.before.toList) ∧
      (Calls q (mask .go s.after.toList) →
        Calls q ((ofSource .go source).codeSlice (c.args.stop + 1) c.returnAt))) ∧
    (ReturnsBare (mask .go s.before.toList) →
      ReturnsBare ((ofSource .go source).codeSlice c.bodyStart c.statement)) ∧
    (ReturnsBare (mask .go s.after.toList) →
      ReturnsBare ((ofSource .go source).codeSlice (c.args.stop + 1) c.returnAt)) := by
  obtain ⟨hkept, hkept', -⟩ := methodAt?_eq_some hs
  have hcode := siteInCode hf hc
  have hmask := codeSlice_before hf hc hbefore.settles
  have hmask' := mask_slice hcode.args_end hcode.returnAt hcode.args_lt
  obtain ⟨a, -, ha, hchars⟩ :=
    exists_mask_afterCall ((ofSource .go source).slice (c.args.stop + 1) c.returnAt)
  have hword : endsNoWord a = true := by
    unfold endsNoWord
    cases hlast : a.getLast? with
    | none => rfl
    | some c => rcases hchars c (List.mem_of_getLast? hlast) with rfl | rfl | rfl <;> decide
  rw [hmask, hmask', ha]
  refine ⟨fun q hq hline => ⟨fun hcalls => ?_, fun hcalls => ?_⟩, fun hreturns => ?_,
    fun hreturns => ?_⟩
  · have := hbefore.onLines (onLines_calls hline) hkept hcalls
    rw [← hmask] at this
    exact not_calls_before hf hc hq this
  · exact (hafter.onLines (onLines_calls hline) hkept' hcalls).append a
  · exact hbefore.onLines onLines_returnsBare hkept hreturns
  · exact (hafter.onLines onLines_returnsBare hkept' hreturns).append hword

end Masked

namespace ClientFile

/-- Of every method that is found in a client file, the statements kept from before the call make no
call of a primitive, and those kept from behind it make one, and return without a value, only when the
source does between the call and the last `return`: when both are kept line by line. -/
theorem kept_statements {options : ClientOptions} {source : String} {file : ClientFile} {k : Nat}
    {g : ClientFunction} {s : SyncMethod} (hfile : ClientFile.read? options source = some file)
    (hg : file.functions[k]? = some g) (hs : g.outcome = .found s) :
    ∃ f c, (Masked.ofSource .go source.toList).functions[k]? = some f ∧
      (Masked.ofSource .go source.toList).siteOf? options.primitives f = some c ∧
      (Masked.KeptByLines ((Masked.ofSource .go source.toList).slice c.bodyStart c.statement) →
        Masked.KeptByLines (Masked.afterCall
          ((Masked.ofSource .go source.toList).slice (c.args.stop + 1) c.returnAt)) →
        (∀ q ∈ options.primitives, '\n' ∉ q.toList →
          ¬Masked.Calls q (Masked.mask .go s.before.toList) ∧
          (Masked.Calls q (Masked.mask .go s.after.toList) → Masked.Calls q
            ((Masked.ofSource .go source.toList).codeSlice (c.args.stop + 1) c.returnAt))) ∧
        (Masked.ReturnsBare (Masked.mask .go s.before.toList) → Masked.ReturnsBare
          ((Masked.ofSource .go source.toList).codeSlice c.bodyStart c.statement)) ∧
        (Masked.ReturnsBare (Masked.mask .go s.after.toList) → Masked.ReturnsBare
          ((Masked.ofSource .go source.toList).codeSlice (c.args.stop + 1) c.returnAt))) := by
  obtain ⟨f, receiver, c, hf, hc, -, hmethod⟩ := exists_site hfile hg hs
  obtain ⟨-, name, -, -, hsite⟩ := Masked.siteOf?_eq_some hc
  exact ⟨f, c, hf, hc, Masked.kept_of_callSite (List.mem_of_getElem? hf) hsite hmethod⟩

/-- A method with statements around its call, an error block and a comment among them. -/
def callBetweenStatements : String :=
  "func (c *C) M() (y T, err error) \x7b\n\tn := c.limit() // not c.CallRPC(\n\n" ++
  "\terr = c.CallRPC(&y, \"a\", n)\n\tif err != nil \x7b\n\t\treturn\n\t\x7d\n" ++
  "\tc.log(\"done\")\n\treturn\n\x7d\n"

theorem kept_statements_callBetweenStatements :
    ∃ (file : ClientFile) (g : ClientFunction) (s : SyncMethod),
      ClientFile.read? ⟨["CallRPC"], none⟩ callBetweenStatements = some file ∧
      file.functions[0]? = some g ∧ g.outcome = .found s ∧
      s.before = "n := c.limit() // not c.CallRPC(" ∧ s.after = "c.log(\"done\")" ∧
      ∀ q ∈ ["CallRPC"], '\n' ∉ q.toList → ¬Masked.Calls q (Masked.mask .go s.before.toList) := by
  have hread : ((ClientFile.read? ⟨["CallRPC"], none⟩ callBetweenStatements).bind
      (·.functions[0]?)).bind (·.outcome.found?) =
      some ⟨"c", "C", "M()", "y", .named "T", "n := c.limit() // not c.CallRPC(", some "a",
        "\"a\", n", "c.log(\"done\")"⟩ := by
    decide +kernel
  have hlines : ∀ c ∈ ((Masked.ofSource .go callBetweenStatements.toList).functions[0]?).bind
        ((Masked.ofSource .go callBetweenStatements.toList).siteOf? ["CallRPC"]),
      Masked.KeptByLines
        ((Masked.ofSource .go callBetweenStatements.toList).slice c.bodyStart c.statement) ∧
      Masked.KeptByLines (Masked.afterCall
        ((Masked.ofSource .go callBetweenStatements.toList).slice (c.args.stop + 1)
          c.returnAt)) := by
    decide +kernel
  obtain ⟨g, hg, hs⟩ := Option.bind_eq_some_iff.1 hread
  obtain ⟨file, hfile, hg⟩ := Option.bind_eq_some_iff.1 hg
  have hs := Masked.eq_found_of_found? hs
  obtain ⟨f, c, hf, hc, hkept⟩ := kept_statements hfile hg hs
  have hc : c ∈ ((Masked.ofSource .go callBetweenStatements.toList).functions[0]?).bind
      ((Masked.ofSource .go callBetweenStatements.toList).siteOf? ["CallRPC"]) :=
    Option.bind_eq_some_iff.2 ⟨f, hf, hc⟩
  obtain ⟨hbefore, hafter⟩ := hlines c hc
  exact ⟨file, g, _, hfile, hg, hs, rfl, rfl,
    fun q hq hline => ((hkept hbefore hafter).1 q hq hline).1⟩

/-- A method that calls a primitive twice. -/
def calledTwice : String :=
  "func (c *C) M() (y T, err error) \x7b\n\terr = c.CallRPC(&y, \"a\")\n" ++
  "\terr = c.CallRPC(&y, \"b\")\n\treturn\n\x7d\n"

/-- A second call is kept. -/
theorem kept_second_call :
    ∃ (file : ClientFile) (g : ClientFunction) (s : SyncMethod),
      ClientFile.read? ⟨["CallRPC"], none⟩ calledTwice = some file ∧
      file.functions[0]? = some g ∧ g.outcome = .found s ∧
      Masked.Calls "CallRPC" (Masked.mask .go s.after.toList) := by
  have hread : ((ClientFile.read? ⟨["CallRPC"], none⟩ calledTwice).bind
      (·.functions[0]?)).bind (·.outcome.found?) =
      some ⟨"c", "C", "M()", "y", .named "T", "", some "a", "\"a\"",
        "err = c.CallRPC(&y, \"b\")"⟩ := by
    decide +kernel
  obtain ⟨g, hg, hs⟩ := Option.bind_eq_some_iff.1 hread
  obtain ⟨file, hfile, hg⟩ := Option.bind_eq_some_iff.1 hg
  exact ⟨file, g, _, hfile, hg, Masked.eq_found_of_found? hs, by decide +kernel⟩

end ClientFile

end RpcBindings
