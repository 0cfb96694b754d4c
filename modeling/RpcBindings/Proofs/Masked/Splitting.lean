import RpcBindings.Proofs.Masked.InCode
import RpcBindings.Proofs.Masked.Nest

/-!
Splitting a range.

A range is split into pieces at separators, and into statements behind their ends. Both splits are one
loop with another test for the byte that ends a piece (`rangesFrom`), and what the loop gives lies end
to end in the range, each piece up to the first byte that ends it (`Laid`). So the pieces joined by the
separator are the range (`Laid.intercalate`), and of a well-nested range each piece is well nested
(`Laid.wellNested`).
-/

namespace RpcBindings.Masked

open Delimiter

variable {m : Masked} {ends : Nat → UInt8 → Bool} {kept start last stop t : Nat} {pieces : List Span}

/-! ## One loop -/

/-- The ranges that end at a byte that ends one at its depth, and where the last range begins. The
first `kept` bytes from that byte on belong to the range. -/
def rangesFrom (ends : Nat → UInt8 → Bool) (kept : Nat) :
    Nat → Nat → Nat → List UInt8 → List Span × Nat
  | _, start, _, [] => ([], start)
  | depth, start, i, b :: bs =>
    if ends depth b then
      let later := rangesFrom ends kept (depthAfter depth b) (i + 1) (i + 1) bs
      (⟨start, i + kept⟩ :: later.1, later.2)
    else rangesFrom ends kept (depthAfter depth b) start (i + 1) bs

/-- Whether a piece ends with a byte at a depth: a separator at top level that is no delimiter. -/
def endsPiece (sep : UInt8) (depth : Nat) (b : UInt8) : Bool :=
  isPlain b && b = sep && depth = 0

theorem depthAfter_one {b : UInt8} : depthAfter 1 b = 1 ↔ isPlain b = true := by
  unfold depthAfter isPlain
  cases ofOpener? b with
  | some d => simp
  | none =>
    cases ofCloser? b with
    | some d => simp
    | none => simp

theorem piecesFrom_eq_rangesFrom (sep : UInt8) (depth start i : Nat) (bs : List UInt8) :
    piecesFrom sep depth start i bs = rangesFrom (endsPiece sep) 0 depth start i bs := by
  induction bs generalizing depth start i with
  | nil => rfl
  | cons b bs ih =>
    have hplain : decide (depthAfter 1 b = 1) = isPlain b := by
      rw [Bool.eq_iff_iff, decide_eq_true_eq, depthAfter_one]
    rw [piecesFrom, rangesFrom, endsPiece, hplain]
    split
    · rename_i h
      simp only [Bool.and_eq_true] at h
      rw [ih, depthAfter_of_isPlain h.1.1]
      rfl
    · exact ih _ _ _

theorem statementsFrom_eq_rangesFrom (depth start i : Nat) (bs : List UInt8) :
    statementsFrom depth start i bs = rangesFrom endsStatement 1 depth start i bs := by
  induction bs generalizing depth start i with
  | nil => rfl
  | cons b bs ih =>
    rw [statementsFrom, rangesFrom]
    split
    · rw [ih]
    · exact ih _ _ _

/-- Nothing stays open behind a byte that ends a piece. -/
theorem depthAfter_of_endsPiece {sep : UInt8} {depth : Nat} {b : UInt8}
    (h : endsPiece sep depth b = true) : depthAfter depth b = 0 := by
  unfold endsPiece at h
  simp only [Bool.and_eq_true, decide_eq_true_eq] at h
  rw [depthAfter_of_isPlain h.1.1, h.2]

/-- Nothing stays open behind a byte that ends a statement. -/
theorem depthAfter_of_endsStatement {depth : Nat} {b : UInt8} (h : endsStatement depth b = true) :
    depthAfter depth b = 0 := by
  unfold endsStatement at h
  simp only [Bool.or_eq_true, Bool.and_eq_true, decide_eq_true_eq] at h
  rcases h with ⟨rfl, rfl⟩ | ⟨rfl, h⟩
  · rfl
  · exact (depthAfter_closer .brace depth).trans h

/-! ## What the loop gives -/

/-- A range from `start` on is ended by the byte at `t`. -/
def EndsAt (m : Masked) (ends : Nat → UInt8 → Bool) (start t : Nat) : Prop :=
  ∃ b, m.bytes[t]? = some b ∧ ends (depthFrom 0 (m.byteSlice start t)) b = true

/-- The byte at `t` is the first one that ends a range from `start` on. -/
structure FirstEnd (m : Masked) (ends : Nat → UInt8 → Bool) (start t : Nat) : Prop where
  le : start ≤ t
  endsAt : m.EndsAt ends start t
  first : ∀ k, start ≤ k → k < t → ¬m.EndsAt ends start k

/-- The pieces lie end to end from `start` on, each up to the first byte that ends it, and from `last`
to `stop` there is no such byte. -/
inductive Laid (m : Masked) (ends : Nat → UInt8 → Bool) (kept : Nat) :
    Nat → List Span → Nat → Nat → Prop
  | rest {start stop : Nat} (hle : start ≤ stop)
      (hnone : ∀ k, start ≤ k → k < stop → ¬m.EndsAt ends start k) :
      Laid m ends kept start [] start stop
  | cons {start t last stop : Nat} {later : List Span} (hfirst : m.FirstEnd ends start t)
      (hlater : Laid m ends kept (t + 1) later last stop) :
      Laid m ends kept start (⟨start, t + kept⟩ :: later) last stop

theorem depthFrom_byteSlice_self (m : Masked) (i : Nat) : depthFrom 0 (m.byteSlice i i) = 0 := by
  rw [byteSlice_self]
  rfl

theorem depthFrom_byteSlice_succ {b : UInt8} (hb : m.bytes[t]? = some b) (h : start ≤ t) :
    depthFrom 0 (m.byteSlice start (t + 1)) =
      depthAfter (depthFrom 0 (m.byteSlice start t)) b := by
  rw [byteSlice_succ hb h]
  unfold depthFrom
  rw [List.foldl_append]
  rfl

/-- The loop lays out the range that it reads: `i` is how far it has read, and no byte so far ends the
piece that began at `start`. -/
theorem laid_rangesFrom (hends : ∀ depth b, ends depth b = true → depthAfter depth b = 0)
    {i depth : Nat} {bs : List UInt8} (hbs : m.byteSlice i stop = bs)
    (hlen : bs.length = stop - i) (hle : start ≤ i) (hstop : i ≤ stop)
    (hdepth : depth = depthFrom 0 (m.byteSlice start i))
    (hnone : ∀ k, start ≤ k → k < i → ¬m.EndsAt ends start k) :
    m.Laid ends kept start (rangesFrom ends kept depth start i bs).1
      (rangesFrom ends kept depth start i bs).2 stop := by
  induction bs generalizing i depth start with
  | nil =>
    rw [List.length_nil] at hlen
    obtain rfl : i = stop := by omega
    exact .rest hle hnone
  | cons b bs ih =>
    rw [List.length_cons] at hlen
    obtain ⟨hb, hlater⟩ := byteSlice_eq_cons hbs
    have hnext : bs.length = stop - (i + 1) := by omega
    rw [rangesFrom]
    split
    · rename_i h
      have hend : m.FirstEnd ends start i := ⟨hle, ⟨b, hb, hdepth ▸ h⟩, hnone⟩
      refine .cons hend (ih hlater hnext (Nat.le_refl _) (by omega) ?_ fun k _ _ => by omega)
      rw [depthFrom_byteSlice_self, hends depth b h]
    · rename_i h
      refine ih hlater hnext (by omega) (by omega) ?_ fun k hk hki => ?_
      · rw [depthFrom_byteSlice_succ hb hle, hdepth]
      · rcases Nat.lt_succ_iff_lt_or_eq.1 hki with hki | rfl
        · exact hnone k hk hki
        · rintro ⟨b', hb', h'⟩
          obtain rfl := Option.some.inj (hb.symm.trans hb')
          exact h (hdepth ▸ h')

theorem laid_byteSlice (hends : ∀ depth b, ends depth b = true → depthAfter depth b = 0)
    (hle : start ≤ stop) (hstop : stop ≤ m.size) :
    m.Laid ends kept start (rangesFrom ends kept 0 start start (m.byteSlice start stop)).1
      (rangesFrom ends kept 0 start start (m.byteSlice start stop)).2 stop :=
  laid_rangesFrom hends rfl (length_byteSlice hle hstop) (Nat.le_refl _) hle
    (depthFrom_byteSlice_self m start).symm fun _ _ _ => by omega

theorem laid_piecesFrom (sep : UInt8) (hle : start ≤ stop) (hstop : stop ≤ m.size) :
    m.Laid (endsPiece sep) 0 start (piecesFrom sep 0 start start (m.byteSlice start stop)).1
      (piecesFrom sep 0 start start (m.byteSlice start stop)).2 stop := by
  rw [piecesFrom_eq_rangesFrom]
  exact laid_byteSlice (@depthAfter_of_endsPiece sep) hle hstop

theorem laid_statementsFrom (hle : start ≤ stop) (hstop : stop ≤ m.size) :
    m.Laid endsStatement 1 start (statementsFrom 0 start start (m.byteSlice start stop)).1
      (statementsFrom 0 start start (m.byteSlice start stop)).2 stop := by
  rw [statementsFrom_eq_rangesFrom]
  exact laid_byteSlice (@depthAfter_of_endsStatement) hle hstop

/-- Some spans are laid out in a range, but for a blank last one. -/
def LaidOut (m : Masked) (ends : Nat → UInt8 → Bool) (kept start stop : Nat) (spans : List Span) :
    Prop :=
  ∃ init last, spans = (if m.isBlank last stop then init else init ++ [Span.mk last stop]) ∧
    m.Laid ends kept start init last stop

theorem laidOut_splitTopLevel (sep : Char) (hle : start ≤ stop) (hstop : stop ≤ m.size) :
    m.LaidOut (endsPiece sep.toUInt8) 0 start stop (m.splitTopLevel start stop sep) :=
  ⟨_, _, rfl, laid_piecesFrom sep.toUInt8 hle hstop⟩

theorem laidOut_splitStatements (hle : start ≤ stop) (hstop : stop ≤ m.size) :
    m.LaidOut endsStatement 1 start stop (m.splitStatements start stop) :=
  ⟨_, _, rfl, laid_statementsFrom hle hstop⟩

/-- What is laid out are the ended spans, and perhaps the last one. -/
theorem mem_of_laidOut {init : List Span} {p : Span}
    (h : p ∈ if m.isBlank last stop then init else init ++ [Span.mk last stop]) :
    p ∈ init ∨ p = ⟨last, stop⟩ := by
  split at h
  · exact .inl h
  · exact (List.mem_append.1 h).imp_right List.mem_singleton.1

namespace Laid

theorem le (h : m.Laid ends kept start pieces last stop) : start ≤ last ∧ last ≤ stop := by
  induction h with
  | rest hle hnone => exact ⟨Nat.le_refl _, hle⟩
  | cons hfirst hlater ih => exact ⟨by have := hfirst.le; omega, ih.2⟩

theorem first (h : m.Laid ends kept start pieces last stop) :
    (∀ p ∈ pieces, ∃ t, p.stop = t + kept ∧ m.FirstEnd ends p.start t) ∧
      ∀ k, last ≤ k → k < stop → ¬m.EndsAt ends last k := by
  induction h with
  | rest hle hnone => exact ⟨fun p hp => absurd hp List.not_mem_nil, hnone⟩
  | cons hfirst hlater ih => exact ⟨List.forall_mem_cons.2 ⟨⟨_, rfl, hfirst⟩, ih.1⟩, ih.2⟩

/-- What holds of the ends of a range, and where one piece ends and the next one begins, holds of the
ends of all pieces. -/
theorem forall_ends {P Q : Nat → Prop}
    (hends : ∀ s t, t < stop → m.EndsAt ends s t → Q (t + kept) ∧ P (t + 1))
    (h : m.Laid ends kept start pieces last stop) (hstart : P start) (hstop : Q stop) :
    ∀ p ∈ pieces ++ [⟨last, stop⟩], P p.start ∧ Q p.stop ∧ p.start ≤ p.stop := by
  induction h with
  | rest hle hnone => exact List.forall_mem_singleton.2 ⟨hstart, hstop, hle⟩
  | cons hfirst hlater ih =>
    obtain ⟨hkept, hnext⟩ := hends _ _ (Nat.le_trans hlater.le.1 hlater.le.2) hfirst.endsAt
    have hle := hfirst.le
    refine List.forall_mem_cons.2 ⟨⟨hstart, hkept, ?_⟩, ih hends hnext hstop⟩
    exact Nat.le_add_right_of_le hle

/-- Pieces that end before a byte of its own are the range when they are joined by what that byte is. -/
theorem intercalate {α : Type} {f : Nat → Nat → List α} {x : α} {P : Nat → Prop}
    (hf : ∀ i j k, P i → P j → P k → i ≤ j → j ≤ k → f i k = f i j ++ f j k)
    (hends : ∀ s t, t < stop → m.EndsAt ends s t → P t ∧ P (t + 1) ∧ f t (t + 1) = [x])
    (h : m.Laid ends 0 start pieces last stop) (hstart : P start) (hstop : P stop) :
    [x].intercalate ((pieces ++ [Span.mk last stop]).map fun p : Span => f p.start p.stop) =
      f start stop := by
  induction h with
  | rest hle hnone => exact List.intercalate_singleton
  | @cons start t last stop later hfirst hlater ih =>
    have hle : t + 1 ≤ stop := Nat.le_trans hlater.le.1 hlater.le.2
    obtain ⟨hp, hnext, hx⟩ := hends _ _ hle hfirst.endsAt
    rw [List.cons_append, List.map_cons, List.intercalate_cons_of_ne_nil (by simp),
      ih hends hnext hstop,
      Nat.add_zero, ← hx, ← hf _ _ _ hstart hp hnext hfirst.le (Nat.le_succ t),
      ← hf _ _ _ hstart hnext hstop (Nat.le_succ_of_le hfirst.le) hle]

/-- Up to the byte that ends it each piece of a well-nested range is well nested, and so is the rest. -/
theorem wellNested (hends : ∀ depth b, ends depth b = true → depthAfter depth b = 0)
    (h : m.Laid ends kept start pieces last stop) (hnest : WellNested (m.byteSlice start stop)) :
    (∀ p ∈ pieces, ∃ t, p.stop = t + kept ∧ m.FirstEnd ends p.start t ∧
      WellNested (m.byteSlice p.start (t + 1))) ∧ WellNested (m.byteSlice last stop) := by
  induction h with
  | rest hle hnone => exact ⟨fun p hp => absurd hp List.not_mem_nil, hnest⟩
  | @cons start t last stop later hfirst hlater ih =>
    have hle : t + 1 ≤ stop := Nat.le_trans hlater.le.1 hlater.le.2
    obtain ⟨b, hb, hend⟩ := hfirst.endsAt
    unfold WellNested at hnest
    rw [byteSlice_append (Nat.le_succ_of_le hfirst.le) hle] at hnest
    obtain ⟨st, hst, hbehind⟩ := nestFrom_append_eq_some.1 hnest
    -- the depth behind the byte is the number of delimiters that are open there
    have hheight := depthFrom_of_nestFrom hst 0
    rw [List.length_nil, Nat.add_zero, Nat.add_zero, depthFrom_byteSlice_succ hb hfirst.le,
      hends _ _ hend] at hheight
    obtain rfl := List.length_eq_zero_iff.1 hheight.symm
    obtain ⟨hpieces, hrest⟩ := ih hbehind
    exact ⟨List.forall_mem_cons.2 ⟨⟨t, rfl, hfirst, hst⟩, hpieces⟩, hrest⟩

end Laid

theorem LaidOut.forall_ends {spans : List Span} {P Q : Nat → Prop}
    (h : m.LaidOut ends kept start stop spans)
    (hends : ∀ s t, t < stop → m.EndsAt ends s t → Q (t + kept) ∧ P (t + 1)) (hstart : P start)
    (hstop : Q stop) : ∀ p ∈ spans, P p.start ∧ Q p.stop ∧ p.start ≤ p.stop := by
  obtain ⟨init, last, rfl, hlaid⟩ := h
  intro p hp
  refine hlaid.forall_ends hends hstart hstop p ?_
  exact List.mem_append.2 ((mem_of_laidOut hp).imp_right List.mem_singleton.2)

/-! ## Terminators of well-nested ranges -/

/-- The separator stands at `k`, and all that a range from `start` on opens before is closed. -/
def SeparatesAt (m : Masked) (sep : Char) (start k : Nat) : Prop :=
  m.hasChar k sep = true ∧ WellNested (m.byteSlice start k)

/-- A statement from `start` on ends with the byte at `k`: a semicolon where nothing is open, or a brace
that closes all that is open. -/
def TerminatesAt (m : Masked) (start k : Nat) : Prop :=
  (m.hasChar k ';' = true ∧ WellNested (m.byteSlice start k)) ∨
    (m.hasChar k '\x7d' = true ∧ WellNested (m.byteSlice start (k + 1)))

theorem depthFrom_of_wellNested {bs : List UInt8} (h : WellNested bs) : depthFrom 0 bs = 0 :=
  depthFrom_of_nestFrom h 0

theorem nestFrom_byteSlice_succ {st : List Delimiter} {b : UInt8} (hb : m.bytes[t]? = some b)
    (hle : start ≤ t) (h : nestFrom [] (m.byteSlice start (t + 1)) = some st) :
    ∃ before, nestFrom [] (m.byteSlice start t) = some before ∧ nestStep before b = some st := by
  rw [byteSlice_succ hb hle] at h
  obtain ⟨before, hbefore, hstep⟩ := nestFrom_append_eq_some.1 h
  rw [nestFrom] at hstep
  obtain ⟨after, hafter, hst⟩ := Option.bind_eq_some_iff.1 hstep
  obtain rfl := Option.some.inj hst
  exact ⟨before, hbefore, hafter⟩

/-- A byte that is no delimiter closes nothing. -/
theorem wellNested_of_isPlain {b : UInt8} (hb : m.bytes[t]? = some b) (hplain : isPlain b = true)
    (hle : start ≤ t) (h : WellNested (m.byteSlice start (t + 1))) :
    WellNested (m.byteSlice start t) := by
  obtain ⟨before, hbefore, hstep⟩ := nestFrom_byteSlice_succ hb hle h
  rw [nestStep_of_isPlain hplain] at hstep
  obtain rfl := Option.some.inj hstep
  exact hbefore

theorem hasChar_of_endsAt {sep : Char} (h : m.EndsAt (endsPiece sep.toUInt8) start t) :
    m.hasChar t sep = true := by
  obtain ⟨b, hb, hends⟩ := h
  unfold endsPiece at hends
  simp only [Bool.and_eq_true, decide_eq_true_eq] at hends
  exact hasChar_iff.2 (hends.1.2 ▸ hb)

/-- Where the source can be cut, the pieces of the source are joined to what was split. -/
theorem Laid.intercalate_spanText {lang : SourceLang} {source : List Char} {sep : Char}
    (h : (ofSource lang source).Laid (endsPiece sep.toUInt8) 0 start pieces last stop)
    (hsep : sep.utf8Size = 1) (hspace : sep ≠ ' ') (hstart : (ofSource lang source).CutsAt start)
    (hstop : (ofSource lang source).CutsAt stop) :
    [sep].intercalate ((pieces ++ [Span.mk last stop]).map (ofSource lang source).spanText) =
      (ofSource lang source).slice start stop := by
  refine h.intercalate (fun i j k => slice_append) (fun s t _ hend => ?_) hstart hstop
  have hchar := hasChar_of_endsAt hend
  obtain ⟨hbefore, hbehind⟩ := cutsAt_of_hasChar hchar hsep hspace
  exact ⟨hbefore, hbehind, slice_of_hasChar hchar hsep hspace⟩

theorem SeparatesAt.endsAt {sep : Char} (hsep : isPlain sep.toUInt8 = true)
    (h : m.SeparatesAt sep start t) : m.EndsAt (endsPiece sep.toUInt8) start t := by
  refine ⟨sep.toUInt8, hasChar_iff.1 h.1, ?_⟩
  unfold endsPiece
  rw [hsep, depthFrom_of_wellNested h.2]
  simp

theorem TerminatesAt.endsAt (hle : start ≤ t) (h : m.TerminatesAt start t) :
    m.EndsAt endsStatement start t := by
  rcases h with ⟨hchar, hnest⟩ | ⟨hchar, hnest⟩
  · refine ⟨';'.toUInt8, hasChar_iff.1 hchar, ?_⟩
    rw [depthFrom_of_wellNested hnest]
    rfl
  · refine ⟨'\x7d'.toUInt8, hasChar_iff.1 hchar, ?_⟩
    obtain ⟨before, hbefore, hstep⟩ := nestFrom_byteSlice_succ (hasChar_iff.1 hchar) hle hnest
    have hdepth := depthFrom_of_nestFrom hbefore 0
    obtain ⟨hplain, -⟩ | ⟨d, -, hst⟩ | ⟨d, -, rfl⟩ := nestStep_eq_some hstep
    · exact absurd hplain (by decide)
    · exact absurd hst (List.cons_ne_nil _ _).symm
    · rw [List.length_nil, Nat.add_zero, List.length_singleton] at hdepth
      rw [hdepth]
      rfl

theorem EndsAt.terminatesAt (hle : start ≤ t) (h : m.EndsAt endsStatement start t)
    (hnest : WellNested (m.byteSlice start (t + 1))) : m.TerminatesAt start t := by
  obtain ⟨b, hb, hends⟩ := h
  unfold endsStatement at hends
  simp only [Bool.or_eq_true, Bool.and_eq_true, decide_eq_true_eq] at hends
  rcases hends with ⟨rfl, -⟩ | ⟨rfl, -⟩
  · exact .inl ⟨hasChar_iff.2 hb, wellNested_of_isPlain hb (by decide) hle hnest⟩
  · exact .inr ⟨hasChar_iff.2 hb, hnest⟩

/-! ## The two splits -/

/-- Some pieces are the parts of a range between separators. -/
structure IsSplit (m : Masked) (sep : Char) (start stop : Nat) (pieces : List Span) : Prop where
  /-- With a blank last piece, which is dropped, the pieces joined by the separator are the range. -/
  joined : ∃ init last, pieces = (if m.isBlank last stop then init else init ++ [Span.mk last stop]) ∧
    [sep.toUInt8].intercalate ((init ++ [Span.mk last stop]).map fun p => m.byteSlice p.start p.stop) =
      m.byteSlice start stop ∧
    (sep.utf8Size = 1 →
      [sep].intercalate ((init ++ [Span.mk last stop]).map fun p => m.codeSlice p.start p.stop) =
        m.codeSlice start stop) ∧
    (sep.utf8Size = 1 → sep ≠ ' ' → m.CutsAt start → m.CutsAt stop →
      [sep].intercalate ((init ++ [Span.mk last stop]).map m.spanText) = m.slice start stop)
  balanced : WellNested (m.byteSlice start stop) → ∀ p ∈ pieces,
    WellNested (m.byteSlice p.start p.stop) ∧
      ∀ k, p.start ≤ k → k < p.stop → ¬m.SeparatesAt sep p.start k

/-- Some spans that are not empty follow each other from one offset to another. -/
inductive Adjoin : Nat → List Span → Nat → Prop
  | nil (i : Nat) : Adjoin i [] i
  | cons {i j k : Nat} {later : List Span} (hlt : i < j) (hlater : Adjoin j later k) :
      Adjoin i (⟨i, j⟩ :: later) k

/-- Some spans are the statements of a range. -/
structure IsStatementSplit (m : Masked) (start stop : Nat) (statements : List Span) : Prop where
  /-- The statements follow each other through the range, and what they leave is blank. -/
  covered : ∃ rest, Adjoin start statements rest ∧ rest ≤ stop ∧ m.isBlank rest stop = true
  balanced : WellNested (m.byteSlice start stop) → ∀ p ∈ statements,
    WellNested (m.byteSlice p.start p.stop) ∧
      ∀ k, p.start ≤ k → k + 1 < p.stop → ¬m.TerminatesAt p.start k
  ended : WellNested (m.byteSlice start stop) → ∀ p ∈ statements.dropLast,
    ∃ k, p.start ≤ k ∧ p.stop = k + 1 ∧ m.TerminatesAt p.start k

/-- Where an ASCII character stands in the masked text it is a part of its own. -/
theorem codeSlice_of_hasChar {c : Char} (h : m.hasChar t c = true) (hc : c.utf8Size = 1) :
    Text.IsBoundary m.code t ∧ Text.IsBoundary m.code (t + 1) ∧ m.codeSlice t (t + 1) = [c] := by
  have hbyte := hasChar_iff.1 h
  rw [m.bytes_eq] at hbyte
  obtain ⟨a, d, b, hcode, rfl, hd, heq⟩ :=
    Text.exists_split_of_ascii hbyte (Text.toUInt8_lt_of_narrow hc)
  obtain rfl := Text.eq_of_toUInt8_eq hd hc heq
  have hsplit : m.code = a ++ [d] ++ b := by
    rw [hcode, List.append_assoc]
    rfl
  have hlen : Text.byteLength (a ++ [d]) = Text.byteLength a + 1 := by
    rw [Text.byteLength_append, Text.byteLength_cons, hd]
    rfl
  refine ⟨⟨a, d :: b, hcode, rfl⟩, ⟨a ++ [d], b, hsplit, hlen⟩, ?_⟩
  have hcut := Text.cut_append a [d] b
  rw [← hsplit, ← Text.byteLength_append, hlen] at hcut
  exact hcut

/-- The pieces of a well-nested range are well nested, and no separator stands at top level of one. -/
theorem wellNested_of_mem_splitTopLevel {sep : Char} {p : Span} (hsep : isPlain sep.toUInt8 = true)
    (h : WellNested (m.byteSlice start stop)) (hle : start ≤ stop) (hstop : stop ≤ m.size)
    (hp : p ∈ m.splitTopLevel start stop sep) :
    WellNested (m.byteSlice p.start p.stop) ∧
      ∀ k, p.start ≤ k → k < p.stop → ¬m.SeparatesAt sep p.start k := by
  obtain ⟨init, last, hpieces, hlaid⟩ := laidOut_splitTopLevel sep hle hstop
  obtain ⟨hinit, hrest⟩ := hlaid.wellNested (@depthAfter_of_endsPiece sep.toUInt8) h
  rcases mem_of_laidOut (hpieces ▸ hp) with hp | rfl
  · obtain ⟨t, ht, hfirst, hpiece⟩ := hinit p hp
    obtain rfl : p.stop = t := ht
    have hchar := hasChar_iff.1 (hasChar_of_endsAt hfirst.endsAt)
    exact ⟨wellNested_of_isPlain hchar hsep hfirst.le hpiece,
      fun k hk hlt hat => hfirst.first k hk hlt (hat.endsAt hsep)⟩
  · exact ⟨hrest, fun k hk hlt hat => hlaid.first.2 k hk hlt (hat.endsAt hsep)⟩

theorem le_size_of_isBoundary (h : Text.IsBoundary m.code t) : t ≤ m.size := by
  unfold size
  rw [m.bytes_eq, Text.length_bytes]
  exact h.le_byteLength

theorem isSplit_splitTopLevel {lang : SourceLang} {source : List Char} {sep : Char}
    (hstart : Text.IsBoundary (ofSource lang source).code start)
    (hstop : Text.IsBoundary (ofSource lang source).code stop) (hle : start ≤ stop)
    (hsep : isPlain sep.toUInt8 = true) :
    (ofSource lang source).IsSplit sep start stop
      ((ofSource lang source).splitTopLevel start stop sep) := by
  have hsize := le_size_of_isBoundary hstop
  obtain ⟨init, last, hpieces, hlaid⟩ := laidOut_splitTopLevel sep hle hsize
  refine ⟨⟨init, last, hpieces, ?_, fun hascii => ?_, fun hascii hspace hcuts hcuts' => ?_⟩,
    fun hnest p hp => wellNested_of_mem_splitTopLevel hsep hnest hle hsize hp⟩
  · refine hlaid.intercalate (P := fun _ => True) (fun i j k _ _ _ => byteSlice_append)
      (fun s t _ hend => ⟨trivial, trivial, ?_⟩) trivial trivial
    rw [byteSlice_succ (hasChar_iff.1 (hasChar_of_endsAt hend)) (Nat.le_refl t), byteSlice_self]
    rfl
  · exact hlaid.intercalate (fun i j k => codeSlice_append)
      (fun s t _ hend => codeSlice_of_hasChar (hasChar_of_endsAt hend) hascii) hstart hstop
  · exact hlaid.intercalate_spanText hascii hspace hcuts hcuts'

theorem Adjoin.append {i j k : Nat} {spans : List Span} (h : Adjoin i spans j) (hlt : j < k) :
    Adjoin i (spans ++ [⟨j, k⟩]) k := by
  induction h with
  | nil i => exact .cons hlt (.nil k)
  | cons hle hlater ih => exact .cons hle (ih hlt)

theorem Laid.adjoin (h : m.Laid ends 1 start pieces last stop) : Adjoin start pieces last := by
  induction h with
  | rest hle hnone => exact .nil _
  | cons hfirst hlater ih => exact .cons (Nat.lt_succ_of_le hfirst.le) ih

theorem isStatementSplit_splitStatements (hle : start ≤ stop) (hstop : stop ≤ m.size) :
    m.IsStatementSplit start stop (m.splitStatements start stop) := by
  obtain ⟨init, last, hstatements, hlaid⟩ := laidOut_splitStatements hle hstop
  rw [hstatements]
  have hdropLast : ∀ p ∈ (if m.isBlank last stop then init else init ++ [Span.mk last stop]).dropLast,
      p ∈ init := by
    intro p hp
    split at hp
    · exact (List.dropLast_sublist init).subset hp
    · rwa [List.dropLast_concat] at hp
  refine ⟨?_, fun hnest p hp => ?_, fun hnest p hp => ?_⟩
  · split
    · rename_i hblank
      exact ⟨last, hlaid.adjoin, hlaid.le.2, hblank⟩
    · rename_i hblank
      have hlt : last < stop := by
        refine Nat.lt_of_le_of_ne hlaid.le.2 fun heq => hblank ?_
        rw [heq]
        exact isBlank_self m stop
      exact ⟨stop, hlaid.adjoin.append hlt, Nat.le_refl stop, isBlank_self m stop⟩
  · obtain ⟨hinit, hrest⟩ := hlaid.wellNested (@depthAfter_of_endsStatement) hnest
    rcases mem_of_laidOut hp with hp | rfl
    · obtain ⟨t, ht, hfirst, hpiece⟩ := hinit p hp
      rw [ht]
      exact ⟨hpiece, fun k hk hlt hat => hfirst.first k hk (by omega) (hat.endsAt hk)⟩
    · exact ⟨hrest, fun k hk hlt hat => hlaid.first.2 k hk (Nat.lt_of_succ_lt hlt) (hat.endsAt hk)⟩
  · obtain ⟨hinit, -⟩ := hlaid.wellNested (@depthAfter_of_endsStatement) hnest
    obtain ⟨t, ht, hfirst, hpiece⟩ := hinit p (hdropLast p hp)
    exact ⟨t, hfirst.le, ht, hfirst.endsAt.terminatesAt hfirst.le hpiece⟩

/-- Splitting a range of a masked text loses and invents nothing. At a separator that is no delimiter
the pieces are the range without the separators at top level, but for a blank last piece, and the
statements follow each other up to a blank rest. -/
theorem split_range {lang : SourceLang} {source : List Char} {sep : Char}
    (hstart : Text.IsBoundary (ofSource lang source).code start)
    (hstop : Text.IsBoundary (ofSource lang source).code stop) (hle : start ≤ stop)
    (hsep : isPlain sep.toUInt8 = true) :
    (ofSource lang source).IsSplit sep start stop
        ((ofSource lang source).splitTopLevel start stop sep) ∧
      (ofSource lang source).IsStatementSplit start stop
        ((ofSource lang source).splitStatements start stop) := by
  exact ⟨isSplit_splitTopLevel hstart hstop hle hsep,
    isStatementSplit_splitStatements hle (le_size_of_isBoundary hstop)⟩

/-- Declarations with nested lists, a semicolon and a brace in places that end nothing, and a comment
behind the last one. -/
def declarations : List Char :=
  "fn f(a: [u8; 2]) \x7b g(\";\", 1); \x7d fn é(); // ;\n".toList

theorem split_range_declarations :
    isPlain ';'.toUInt8 = true ∧ WellNested ((ofSource .rust declarations).byteSlice 0 46) ∧
      (ofSource .rust declarations).splitTopLevel 0 46 ';' = [⟨0, 39⟩] ∧
      (ofSource .rust declarations).splitStatements 0 46 = [⟨0, 31⟩, ⟨31, 40⟩] ∧
      (ofSource .rust declarations).IsSplit ';' 0 46 [⟨0, 39⟩] ∧
      (ofSource .rust declarations).IsStatementSplit 0 46 [⟨0, 31⟩, ⟨31, 40⟩] := by
  have hsep : isPlain ';'.toUInt8 = true := by decide
  have hpieces : (ofSource .rust declarations).splitTopLevel 0 46 ';' = [⟨0, 39⟩] := by
    decide +kernel
  have hstatements : (ofSource .rust declarations).splitStatements 0 46 = [⟨0, 31⟩, ⟨31, 40⟩] := by
    decide +kernel
  have hstop : Text.IsBoundary (ofSource .rust declarations).code 46 := by decide +kernel
  obtain ⟨hsplit, hstates⟩ := split_range (Text.isBoundary_zero _) hstop (Nat.zero_le 46) hsep
  rw [hpieces] at hsplit
  rw [hstatements] at hstates
  exact ⟨hsep, by decide +kernel, hpieces, hstatements, hsplit, hstates⟩

end RpcBindings.Masked
