import RpcBindings.Client.ErrorBlock
import RpcBindings.Proofs.Masked.Line
import RpcBindings.Proofs.Masked.Nest

/-!
Error blocks and what is left without them.

The error blocks of a text stand in it one after the other, and the text can be cut at each of them
(`parts_errorBlocks`). Main statement: when they are whole lines and well nested, the statements that
are kept without them leave the same delimiters open as the text (`ShedsLines.nestFrom_kept`).
-/

namespace RpcBindings

namespace Masked

/-! ## Where blocks begin and end -/

section Places

variable {m : Masked} {i j k : Nat}

/-- Between two offsets of a blank part no other character stands than a blank. -/
theorem isBlank_of_hasChar {c : Char} (hi : m.CutsAt i) (hj : m.CutsAt j)
    (h : m.isBlank i j = true) (hik : i ≤ k) (hkj : k < j) (hc : c.utf8Size = 1)
    (hchar : m.hasChar k c = true) : Text.isBlank c = true := by
  obtain ⟨hlen, -, hdrop⟩ :=
    codeSlice_of_append (x := []) hi hj (Nat.le_of_lt (Nat.lt_of_le_of_lt hik hkj)) rfl
  rw [Text.byteLength_nil, Nat.add_zero] at hlen hdrop
  have hget : (Text.bytes (m.codeSlice i j))[k - i]? = some c.toUInt8 := by
    have := hasChar_iff.1 hchar
    rw [show k = i + (k - i) by omega, ← List.getElem?_drop, hdrop,
      List.getElem?_append_left (by rw [Text.length_bytes]; omega)] at this
    exact this
  obtain ⟨d, hd, hnarrow, heq⟩ :=
    Text.exists_of_mem_bytes (List.mem_of_getElem? hget) (Text.toUInt8_lt_of_narrow hc)
  obtain rfl := Text.eq_of_toUInt8_eq hnarrow hc heq
  exact List.all_eq_true.1 h d hd

/-- The text can be cut at the offset, and a line that is blank up to a place behind the offset begins
behind the offset, too. -/
structure Separates (m : Masked) (k : Nat) : Prop where
  cutsAt : m.CutsAt k
  le_lineStart : ∀ i, k ≤ i → m.CutsAt i → i < m.size → m.beginsLine i = true → k ≤ m.lineStart i

theorem separates_zero (m : Masked) : m.Separates 0 :=
  ⟨cutsAt_zero m, fun _ _ _ _ _ => Nat.zero_le _⟩

end Places

section Source

variable {source : List Char} {i j k : Nat}

/-- Behind a character of code and behind a line feed a text can be parted. -/
theorem separates_of_hasChar {c : Char} (hchar : (ofSource .go source).hasChar k c = true)
    (hc : c.utf8Size = 1) (hblank : c = '\n' ∨ Text.isBlank c = false) :
    (ofSource .go source).Separates (k + 1) := by
  have hspace : c ≠ ' ' := by
    rintro rfl
    exact absurd hblank (by decide)
  have hcut := cutsAt_of_hasChar hchar hc hspace
  refine ⟨hcut.2, fun i hki hi _ hline => ?_⟩
  rcases hblank with rfl | hblank
  · exact lt_lineStart (hasChar_iff.1 hchar) hki
  · refine Nat.lt_of_not_le fun hle => ?_
    have hstart := (isLineStart_lineStart (ofSource .go source) i).cutsAt
    rw [isBlank_of_hasChar hstart hi hline hle hki hc hchar] at hblank
    exact Bool.noConfusion hblank

theorem separates_size (h : Unsplit (glyphs .go source)) :
    (ofSource .go source).Separates (ofSource .go source).size :=
  ⟨h.cutsAt_size, fun _ hle _ hlt _ => absurd hlt (Nat.not_lt.2 hle)⟩

/-! ## Chains of branches -/

/-- An `else` branch ends with its brace. -/
theorem hasChar_of_elseStop? {m : Masked} (h : m.elseStop? i = some j) :
    ∃ k, j = k + 1 ∧ m.hasChar k '\x7d' = true := by
  unfold elseStop? at h
  split at h
  · exact absurd h nofun
  · split at h
    · split at h
      · exact absurd h nofun
      · rename_i opened hopened
        obtain ⟨k, hk, rfl⟩ := Option.map_eq_some_iff.1 h
        exact ⟨k, rfl, hasChar_closer (d := .brace) (hasChar_of_findTopLevel? hopened) hk⟩
    · exact absurd h nofun

/-- Behind a brace all `else` branches end with a brace. -/
theorem chainStop_spec {m : Masked} (h : m.hasChar k '\x7d' = true) :
    ∃ k', m.chainStop (k + 1) = k' + 1 ∧ k ≤ k' ∧ m.hasChar k' '\x7d' = true := by
  generalize hi : k + 1 = i
  induction i using Masked.chainStop.induct m generalizing k with
  | case1 i hnone =>
    rw [chainStop]
    split
    · exact ⟨k, hi.symm, Nat.le_refl k, h⟩
    · rename_i hsome
      rw [hnone] at hsome
      exact absurd hsome nofun
  | case2 i next hnext hlt ih =>
    rw [chainStop]
    split
    · rename_i hnone
      rw [hnext] at hnone
      exact absurd hnone nofun
    · rename_i next' hnext'
      obtain rfl : next' = next := Option.some.inj (hnext'.symm.trans hnext)
      obtain ⟨n, hn, hchar⟩ := hasChar_of_elseStop? hnext
      obtain ⟨k', hstop, hle, hchar'⟩ := ih hchar hn.symm
      exact ⟨k', hstop, by omega, hchar'⟩

/-! ## Blocks in order -/

/-- Parts of a text one after the other from an offset on, at which the text can be cut. -/
def PartsFrom (m : Masked) : Nat → List Span → Prop
  | _, [] => True
  | start, s :: ss => start ≤ s.start ∧ s.start ≤ s.stop ∧ m.CutsAt s.start ∧ m.CutsAt s.stop ∧
      m.PartsFrom s.stop ss

theorem PartsFrom.mono {m : Masked} {start start' : Nat} {ss : List Span}
    (h : m.PartsFrom start' ss) (hle : start ≤ start') : m.PartsFrom start ss := by
  cases ss with
  | nil => trivial
  | cons s ss => exact ⟨Nat.le_trans hle h.1, h.2⟩

/-- A line ends with its line feed, or with the text. -/
theorem lineEnd_spec {m : Masked} (hi : i ≤ m.size) : i ≤ m.lineEnd i ∧
    (m.lineEnd i = m.size ∨ ∃ k, m.lineEnd i = k + 1 ∧ m.hasChar k '\n' = true) := by
  have hle : i ≤ m.lineStop i := Nat.le_add_right _ _
  refine ⟨Nat.le_min.2 ⟨by omega, hi⟩, ?_⟩
  by_cases hlt : m.lineStop i < m.size
  · refine .inr ⟨m.lineStop i, Nat.min_eq_left hlt, ?_⟩
    have hsplit := List.takeWhile_append_dropWhile (p := (· != '\n'.toUInt8)) (l := m.bytes.drop i)
    have hnot := List.head?_dropWhile_not (· != '\n'.toUInt8) (m.bytes.drop i)
    generalize htake : (m.bytes.drop i).takeWhile (· != '\n'.toUInt8) = line at hsplit
    have hstop : m.lineStop i = i + line.length := by
      unfold lineStop
      rw [htake]
    cases hrest : (m.bytes.drop i).dropWhile (· != '\n'.toUInt8) with
    | nil =>
      have hlen := congrArg List.length hsplit
      rw [hrest, List.append_nil, List.length_drop] at hlen
      unfold size at hlt
      omega
    | cons b rest =>
      rw [hrest] at hsplit hnot
      have hb : b = '\n'.toUInt8 := by simpa using hnot
      rw [hasChar_iff, hstop, ← List.getElem?_drop, ← hsplit,
        List.getElem?_append_right (Nat.le_refl _), Nat.sub_self, hb]
      rfl
  · exact .inl (Nat.min_eq_right (by omega))

/-- Behind a line the text can be parted. -/
theorem separates_lineEnd (hunsplit : Unsplit (glyphs .go source))
    (hi : i ≤ (ofSource .go source).size) :
    (ofSource .go source).Separates ((ofSource .go source).lineEnd i) := by
  obtain ⟨-, heq | ⟨k, heq, hchar⟩⟩ := lineEnd_spec hi
  · rw [heq]
    exact separates_size hunsplit
  · rw [heq]
    exact separates_of_hasChar hchar (by decide) (.inl rfl)

/-- A block that is widened to its lines still begins behind what separates it from the text before
it. -/
theorem widen_spec {start stop : Nat} (hunsplit : Unsplit (glyphs .go source))
    (hstart : (ofSource .go source).Separates start) (hi : start ≤ i)
    (hcut : (ofSource .go source).CutsAt i)
    (hstop : (ofSource .go source).Separates stop) (hsize : stop ≤ (ofSource .go source).size)
    (hlt : i < (ofSource .go source).size) :
    start ≤ ((ofSource .go source).widen i stop).start ∧
      ((ofSource .go source).widen i stop).start ≤ i ∧
      (ofSource .go source).CutsAt ((ofSource .go source).widen i stop).start ∧
      stop ≤ ((ofSource .go source).widen i stop).stop ∧
      (ofSource .go source).Separates ((ofSource .go source).widen i stop).stop := by
  have hle := (lineEnd_spec hsize).1
  have hend := separates_lineEnd hunsplit hsize
  unfold widen
  dsimp only
  refine ⟨?_, ?_, ?_, ?_, ?_⟩
  · split
    · rename_i hline
      exact hstart.le_lineStart i hi hcut hlt hline
    · exact hi
  · split
    · exact lineStart_le _ i
    · exact Nat.le_refl i
  · split
    · exact (isLineStart_lineStart _ i).cutsAt
    · exact hcut
  · split
    · exact hle
    · exact Nat.le_refl stop
  · split
    · exact hend
    · exact hstop

theorem parts_errorBlocksFrom (hunsplit : Unsplit (glyphs .go source)) {starts : List Nat}
    {start : Nat} (hstarts : ∀ i ∈ starts, (ofSource .go source).wordAt "if".toList i = true)
    (hstart : (ofSource .go source).Separates start) :
    (ofSource .go source).PartsFrom start ((ofSource .go source).errorBlocksFrom starts start) := by
  induction starts generalizing start with
  | nil => trivial
  | cons i starts ih =>
    have ih {start : Nat} := @ih start fun j hj => hstarts j (List.mem_cons_of_mem i hj)
    have hword := hstarts i List.mem_cons_self
    have hfirst : (ofSource .go source).hasChar i 'i' = true :=
      hasChar_of_wordAt (k := 0) hword rfl
    have hsecond : (ofSource .go source).hasChar (i + 1) 'f' = true :=
      hasChar_of_wordAt (k := 1) hword rfl
    rw [errorBlocksFrom]
    extract_lets head
    split
    · exact ih hstart
    · rename_i hge
      have hhead : head = i + 1 + 1 := rfl
      split
      · trivial
      · rename_i opened hopened
        have hle := le_of_findTopLevel? hopened
        split
        · split
          · trivial
          · rename_i closed hclosed
            have hlt := lt_of_closer? hclosed
            have hbrace : (ofSource .go source).hasChar closed '\x7d' = true :=
              hasChar_closer (d := .brace) (hasChar_of_findTopLevel? hopened) hclosed
            obtain ⟨k, hk, hclosek, hchar⟩ := chainStop_spec hbrace
            have hksize : k < (ofSource .go source).size :=
              (List.getElem?_eq_some_iff.1 (hasChar_iff.1 hchar)).1
            have hstop := separates_of_hasChar hchar (by decide) (.inr (by decide))
            rw [← hk] at hstop
            obtain ⟨hbegin, hbegini, hcut, hend, hsep⟩ := widen_spec hunsplit hstart
              (Nat.le_of_not_lt hge) (cutsAt_of_hasChar hfirst (by decide) (by decide)).1
              hstop (by omega) (by omega)
            exact ⟨hbegin, by omega, hcut, hsep.cutsAt, ih hsep⟩
        · rw [hhead]
          exact (ih (separates_of_hasChar hsecond (by decide) (.inr (by decide)))).mono (by omega)

/-- The error blocks of a text stand in it one after the other. -/
theorem parts_errorBlocks (hunsplit : Unsplit (glyphs .go source)) :
    (ofSource .go source).PartsFrom 0 (ofSource .go source).errorBlocks :=
  parts_errorBlocksFrom hunsplit (fun _ hi => (mem_wordStarts.1 hi).2) (separates_zero _)

/-! ## Statements without error blocks -/

/-- A line begins at the offset. -/
def beginsLineAt (t : List Char) (i : Nat) : Bool :=
  (Text.takeBytes i t).getLast?.all (· == '\n')

/-- The part begins and ends with whole lines of the text. -/
def WholeLines (t : List Char) (s : Span) : Prop :=
  beginsLineAt t s.start = true ∧ (beginsLineAt t s.stop = true ∨ Text.dropBytes s.stop t = [])

instance (t : List Char) (s : Span) : Decidable (WholeLines t s) :=
  inferInstanceAs (Decidable (_ ∧ _))

/-- What stands before a line is made of whole lines. -/
theorem endsLine_of_beginsLineAt {a b c : List Char} (hsource : source = a ++ (b ++ c))
    (h : beginsLineAt source (Text.byteLength (a ++ b)) = true) :
    b.getLast?.all (· == '\n') = true := by
  unfold beginsLineAt at h
  rw [hsource, ← List.append_assoc, Text.takeBytes_append] at h
  cases b with
  | nil => rfl
  | cons d b => rwa [List.getLast?_append_of_ne_nil _ (List.cons_ne_nil d b)] at h

/-- Whole lines hold on their own what they hold in the text, and so does the text on both sides. -/
theorem WholeLines.split {a x y z : List Char} {s : Span} (h : WholeLines source s)
    (hsource : source = a ++ x ++ y ++ z) (hstart : Text.byteLength (a ++ x) = s.start)
    (hstop : Text.byteLength (a ++ x ++ y) = s.stop) :
    x.getLast?.all (· == '\n') = true ∧ Text.content (y ++ z) = Text.content y ++ Text.content z := by
  obtain ⟨hbegins, hends⟩ := h
  have hbefore : source = a ++ (x ++ (y ++ z)) := by
    rw [hsource, List.append_assoc, List.append_assoc]
  have hthrough : source = a ++ x ++ (y ++ z) := by
    rw [hsource, List.append_assoc (a ++ x)]
  refine ⟨endsLine_of_beginsLineAt hbefore (hstart ▸ hbegins), ?_⟩
  rcases hends with hends | hends
  · exact Text.content_append (endsLine_of_beginsLineAt hthrough (hstop ▸ hends)) z
  · have hz : z = [] := by
      rw [← hends, ← hstop, hsource]
      exact (Text.dropBytes_append _ z).symm
    rw [hz, List.append_nil]
    exact (List.append_nil _).symm

/-- Whole lines part the lines of the text before them and behind them. -/
theorem exists_split_of_wholeLines {start : Nat} {s : Span} {ss : List Span} {rest : List Char}
    (hrest : (ofSource .go source).SourceFrom start rest)
    (hparts : (ofSource .go source).PartsFrom start (s :: ss)) (hline : WholeLines source s) :
    ∃ x y z, (ofSource .go source).SourceFrom s.stop z ∧ (ofSource .go source).spanText s = y ∧
      Text.content rest = Text.content x ++ (Text.content y ++ Text.content z) ∧
      Text.content (Client.without source start (s :: ss)) =
        Text.content x ++ Text.content (Client.without source s.stop ss) := by
  obtain ⟨hstart, hstop, ⟨⟨b, b', hb, hbs⟩, -⟩, ⟨⟨e, z, he, hes⟩, -⟩, -⟩ := hparts
  obtain ⟨a, ha, rfl⟩ := hrest
  obtain ⟨x, rfl, rfl, hx⟩ := Text.exists_split_of_le ha hb (by omega)
  obtain ⟨y, rfl, rfl, hy⟩ := Text.exists_split_of_le hb he (by omega)
  rw [hbs] at hx
  rw [hbs, hes] at hy
  obtain ⟨hx', hyz⟩ := hline.split he hbs hes
  refine ⟨x, y, z, ⟨_, he, hes⟩, hy, ?_, ?_⟩
  · rw [Text.content_append hx', hyz]
  · have hwithout : Client.without source (Text.byteLength a) (s :: ss) =
        x ++ Client.without source s.stop ss := by
      rw [Client.without]
      exact congrArg (· ++ _) hx
    rw [hwithout, Text.content_append hx']

/-- What is left of a text without some whole lines holds lines of the text only. -/
theorem content_without_subset {start : Nat} {ss : List Span} {rest : List Char}
    (hrest : (ofSource .go source).SourceFrom start rest)
    (hparts : (ofSource .go source).PartsFrom start ss) (hlines : ∀ s ∈ ss, WholeLines source s) :
    Text.content (Client.without source start ss) ⊆ Text.content rest := by
  induction ss generalizing start rest with
  | nil =>
    obtain ⟨a, rfl, rfl⟩ := hrest
    rw [Client.without, Text.dropBytes_append]
    exact List.Subset.refl _
  | cons s ss ih =>
    obtain ⟨x, y, z, hz, -, hcontent, hwithout⟩ :=
      exists_split_of_wholeLines hrest hparts (hlines s List.mem_cons_self)
    have hlater := ih hz hparts.2.2.2.2 fun s' hs => hlines s' (List.mem_cons_of_mem s hs)
    rw [hcontent, hwithout]
    exact List.append_subset.2 ⟨List.subset_append_left _ _,
      List.subset_append_of_subset_right _ (List.subset_append_of_subset_right _ hlater)⟩

/-- What is left of a text without some whole lines that are well nested leaves the same delimiters
open. -/
theorem nestFrom_without {start : Nat} {ss : List Span} {rest : List Char}
    (hrest : (ofSource .go source).SourceFrom start rest)
    (hsettles : ∀ r ∈ Text.content rest, settles (r ++ ['\n']) = true)
    (hparts : (ofSource .go source).PartsFrom start ss) (hlines : ∀ s ∈ ss, WholeLines source s)
    (hnested : ∀ s ∈ ss, WellNested (Text.bytes (mask .go ((ofSource .go source).spanText s))))
    {st st' : List Delimiter} (h : nestFrom st (lineDelimiters (Text.content rest)) = some st') :
    nestFrom st (lineDelimiters (Text.content (Client.without source start ss))) = some st' := by
  induction ss generalizing start rest st with
  | nil =>
    obtain ⟨a, rfl, rfl⟩ := hrest
    rwa [Client.without, Text.dropBytes_append]
  | cons s ss ih =>
    obtain ⟨x, y, z, hz, hy, hcontent, hwithout⟩ :=
      exists_split_of_wholeLines hrest hparts (hlines s List.mem_cons_self)
    rw [hcontent] at h hsettles
    have hblock : WellNested (lineDelimiters (Text.content y)) := by
      have hblock := hnested s List.mem_cons_self
      unfold WellNested
      rwa [← nestFrom_mask fun r hr => hsettles r (by simp [hr]), ← hy]
    rw [lineDelimiters_append, lineDelimiters_append] at h
    obtain ⟨mid, hfirst, h⟩ := nestFrom_append_eq_some.1 h
    rw [nestFrom_append_of_eq (hblock.nestFrom mid)] at h
    rw [hwithout, lineDelimiters_append, nestFrom_append_of_eq hfirst]
    exact ih hz (fun r hr => hsettles r (by simp [hr])) hparts.2.2.2.2
      (fun s' hs => hlines s' (List.mem_cons_of_mem s hs))
      (fun s' hs => hnested s' (List.mem_cons_of_mem s hs)) h

/-- A text whose statements are kept but for whole lines that are well nested: every line settles, and
the error blocks are such lines. -/
structure ShedsLines (t : List Char) : Prop where
  settles : ∀ r ∈ Text.content t, settles (r ++ ['\n']) = true
  lines : ∀ s ∈ (ofSource .go t).errorBlocks, WholeLines t s
  nested : ∀ s ∈ (ofSource .go t).errorBlocks,
    WellNested (Text.bytes (mask .go ((ofSource .go t).spanText s)))

instance (t : List Char) : Decidable (ShedsLines t) :=
  decidable_of_iff ((∀ r ∈ Text.content t, Masked.settles (r ++ ['\n']) = true) ∧
      ∀ s ∈ (ofSource .go t).errorBlocks,
        WholeLines t s ∧ WellNested (Text.bytes (mask .go ((ofSource .go t).spanText s))))
    ⟨fun h => ⟨h.1, fun s hs => (h.2 s hs).1, fun s hs => (h.2 s hs).2⟩,
      fun h => ⟨h.1, fun s hs => ⟨h.2 s hs, h.3 s hs⟩⟩⟩

/-- The statements that are kept leave the same delimiters open as the text, and hold lines of the
text only. -/
theorem ShedsLines.nestFrom_kept {t kept : List Char} (ht : ShedsLines t)
    (hkept : Client.keptStatements? t = some kept) {st st' : List Delimiter}
    (h : Masked.nestFrom st (Text.bytes (mask .go t)) = some st') :
    Masked.nestFrom st (lineDelimiters (Text.content kept)) = some st' ∧
      ∀ r ∈ Text.content kept, Masked.settles (r ++ ['\n']) = true := by
  rw [nestFrom_mask ht.settles] at h
  have hparts := parts_errorBlocks (whole_lines ht.settles).unsplit
  rw [Text.content_tidy? hkept]
  exact ⟨nestFrom_without ⟨[], rfl, rfl⟩ ht.settles hparts ht.lines ht.nested h, fun r hr =>
    ht.settles r (content_without_subset ⟨[], rfl, rfl⟩ hparts ht.lines hr)⟩

end Source

end Masked

end RpcBindings
