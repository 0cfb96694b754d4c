import RpcBindings.Proofs.Masked.Reading

/-!
Lists between commas.

Texts that are closed, balanced and without a comma of their own can be joined by commas and split
again (`TextFrom.splitTopLevel_intercalate`). The last one must hold code, since a blank last piece is
dropped.
-/

namespace RpcBindings.Masked

variable {m : Masked} {i : Nat}

/-- A regular text in which a character does not stand at top level. -/
structure Lacks (c : Char) (t : List Char) : Prop extends Regular t where
  absent : topLevelOffset c.toUInt8 0 (Text.bytes (mask .go t)) = none

theorem solid_comma : Solid [','] := ⟨closed_of_isBare (by decide), by decide⟩

theorem mask_append_comma {a : List Char} (ha : Closed a) (b : List Char) :
    mask .go (a ++ [','] ++ b) = mask .go a ++ ',' :: mask .go b := by
  have hcomma : Detached ([','] ++ b) := detached_cons (by decide) (by decide) b
  rw [List.append_assoc, mask_append ha fun _ => hcomma, solid_comma.mask_append,
    mask_of_isBare (t := [',']) (by decide)]
  rfl

theorem Closed.append_comma {a b : List Char} (ha : Closed a) (hb : Closed b) :
    Closed (a ++ [','] ++ b) := by
  have hcomma : Detached [','] := detached_cons (by decide) (by decide) []
  refine (ha.append solid_comma.closed fun _ => hcomma).append hb fun h => ?_
  rw [List.getLast?_append_of_ne_nil _ (List.cons_ne_nil _ _)] at h
  exact absurd h solid_comma.no_slash

theorem Regular.append_comma {a b : List Char} (ha : Regular a) (hb : Regular b) :
    Regular (a ++ [','] ++ b) := by
  refine ⟨ha.closed.append_comma hb.closed, ?_⟩
  rw [mask_append_comma ha.closed, Text.bytes_append, Text.bytes_cons_of_narrow (by decide)]
  have hcomma : WellNested [','.toUInt8] := wellNested_of_all_isPlain (by decide)
  exact ha.balanced.append (hcomma.append hb.balanced)

/-- At the end of a regular text the depth is what it was. -/
theorem Regular.depthFrom_zero {t : List Char} (h : Regular t) :
    depthFrom 0 (Text.bytes (mask .go t)) = 0 :=
  depthFrom_of_nestFrom h.balanced 0

theorem regular_intercalate {t : List Char} {ts : List (List Char)}
    (hts : ∀ x ∈ t :: ts, Lacks ',' x) : Regular ([','].intercalate (t :: ts)) := by
  induction ts generalizing t with
  | nil =>
    rw [List.intercalate_singleton]
    exact (hts t List.mem_cons_self).toRegular
  | cons u ts ih =>
    rw [List.intercalate_cons_cons]
    exact (hts t List.mem_cons_self).toRegular.append_comma
      (ih fun x hx => hts x (List.mem_cons_of_mem t hx))

/-! ## Characters at top level -/

theorem Plain.lacks {t : List Char} {c : Char} (h : Plain t) (hc : c.toUInt8 ∉ Text.bytes t) :
    Lacks c t := by
  refine ⟨h.regular, ?_⟩
  rw [h.mask_eq]
  exact topLevelOffset_of_not_mem hc 0

theorem Lacks.append {a b : List Char} {c : Char} (ha : Lacks c a) (hb : Lacks c b)
    (h : a.getLast? = some '/' → Detached b) : Lacks c (a ++ b) := by
  refine ⟨ha.toRegular.append hb.toRegular h, ?_⟩
  rw [mask_append ha.closed h, Text.bytes_append, topLevelOffset_append, ha.depthFrom_zero,
    ha.absent, hb.absent]
  rfl

/-- Nothing between delimiters stands at top level. -/
theorem Regular.lacks_enclosed {a : List Char} (ha : Regular a) {d : Delimiter} {c : Char}
    (hc : c.toUInt8 ≠ d.opener.toUInt8) : Lacks c (d.opener :: (a ++ [d.closer])) := by
  have hopener : d.opener.utf8Size = 1 := by cases d <;> rfl
  have hcloser : d.closer.utf8Size = 1 := by cases d <;> rfl
  refine ⟨ha.enclose d, ?_⟩
  have hinside := topLevelOffset_of_nestFrom ha.balanced c.toUInt8 0
  have hdepth := depthFrom_of_nestFrom ha.balanced 1
  have hne : ¬(decide (0 = 0) && decide (d.opener.toUInt8 = c.toUInt8)) = true := by
    simpa using fun h => hc h.symm
  rw [List.length_nil, Nat.zero_add] at hdepth
  rw [mask_enclosed ha.closed, Text.bytes_cons_of_narrow hopener, Text.bytes_append,
    Text.bytes_cons_of_narrow hcloser, topLevelOffset, if_neg hne, depthAfter_opener,
    topLevelOffset_append, show (0 : Nat) + 1 = ([] : List Delimiter).length + (0 + 1) from rfl,
    hinside]
  show Option.map _ (Option.map _ (topLevelOffset _ (depthFrom 1 _) _)) = none
  rw [hdepth, topLevelOffset, if_neg (by simp)]
  rfl

/-- The pieces between commas are the texts that were joined by them, and the last one stands at
the end. -/
theorem pieces_intercalate {t : List Char} {ts : List (List Char)} {rest : List Char}
    (h : m.SourceFrom i ([','].intercalate (t :: ts) ++ rest)) (hts : ∀ x ∈ t :: ts, Lacks ',' x) :
    ∃ spans init, [','].intercalate (t :: ts) =
        init ++ (t :: ts).getLast (List.cons_ne_nil t ts) ∧ Solid init ∧
      piecesFrom ','.toUInt8 0 i i (Text.bytes (mask .go ([','].intercalate (t :: ts)))) =
        (spans, i + Text.byteLength init) ∧
      (spans ++ [Span.mk (i + Text.byteLength init)
        (i + Text.byteLength ([','].intercalate (t :: ts)))]).map m.spanText = t :: ts := by
  induction ts generalizing t i with
  | nil =>
    have ht := hts t List.mem_cons_self
    rw [List.intercalate_singleton] at h ⊢
    refine ⟨[], [], rfl, ⟨closed_nil, by decide⟩, ?_, ?_⟩
    · have := piecesFrom_append ht.absent i i []
      rw [List.append_nil] at this
      rw [this]
      rfl
    · show [m.slice i (i + Text.byteLength t)] = [t]
      rw [h.slice]
  | cons u ts ih =>
    have ht := hts t List.mem_cons_self
    rw [List.intercalate_cons_cons] at h ⊢
    have hslice : m.slice i (i + Text.byteLength t) = t := by
      rw [List.append_assoc, List.append_assoc] at h
      exact h.slice
    have hlater : m.SourceFrom (i + Text.byteLength t + 1)
        ([','].intercalate (u :: ts) ++ rest) := by
      rw [List.append_assoc, List.append_assoc] at h
      exact h.drop.drop
    obtain ⟨spans, init, hinit, hsolid, hpieces, htexts⟩ :=
      ih hlater fun x hx => hts x (List.mem_cons_of_mem t hx)
    have hlen (x : List Char) : i + Text.byteLength (t ++ [','] ++ x) =
        i + Text.byteLength t + 1 + Text.byteLength x := by
      rw [Text.byteLength_append, Text.byteLength_append]
      show i + (Text.byteLength t + 1 + _) = _
      omega
    refine ⟨⟨i, i + Text.byteLength t⟩ :: spans, t ++ [','] ++ init, ?_, ?_, ?_, ?_⟩
    · rw [List.getLast_cons (List.cons_ne_nil u ts), hinit, ← List.append_assoc]
    · refine ⟨ht.closed.append_comma hsolid.closed, ?_⟩
      cases init with
      | nil => simp
      | cons c init =>
        rw [List.getLast?_append_of_ne_nil _ (List.cons_ne_nil c init)]
        exact hsolid.no_slash
    · rw [mask_append_comma ht.closed, Text.bytes_append, piecesFrom_append ht.absent,
        ht.depthFrom_zero, Text.length_bytes, byteLength_mask ht.closed,
        Text.bytes_cons_of_narrow (by decide), piecesFrom_sep (by decide), hpieces, hlen]
    · rw [hlen, hlen, List.cons_append, List.map_cons, htexts]
      exact congrArg (· :: u :: ts) hslice

/-- Splitting at commas gives back the texts that were joined, when the last one holds code. -/
theorem TextFrom.splitTopLevel_intercalate {t : List Char} {ts : List (List Char)}
    {rest : List Char} (h : m.TextFrom i ([','].intercalate (t :: ts) ++ rest))
    (hts : ∀ x ∈ t :: ts, Lacks ',' x) (hrest : Detached rest)
    (hlast : Text.allBlank (mask .go ((t :: ts).getLast (List.cons_ne_nil t ts))) = false) :
    (m.splitTopLevel i (i + Text.byteLength ([','].intercalate (t :: ts))) ',').map m.spanText =
      t :: ts := by
  obtain ⟨spans, init, hinit, hsolid, hpieces, htexts⟩ := pieces_intercalate h.1 hts
  have hblank : m.isBlank (i + Text.byteLength init)
      (i + Text.byteLength ([','].intercalate (t :: ts))) = false := by
    have hend := h
    rw [hinit, List.append_assoc] at hend
    have hend := hend.drop hsolid.closed fun hslash => absurd hslash hsolid.no_slash
    have := hend.codeSlice (hts _ (List.getLast_mem _)).closed fun _ => hrest
    unfold Masked.isBlank
    rw [hinit, Text.byteLength_append, ← Nat.add_assoc, this]
    exact hlast
  unfold Masked.splitTopLevel
  rw [h.byteSlice (regular_intercalate hts).closed fun _ => hrest, hpieces]
  unfold withTail
  rw [hblank]
  exact htexts

end RpcBindings.Masked
