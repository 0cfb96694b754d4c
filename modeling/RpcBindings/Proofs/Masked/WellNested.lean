import RpcBindings.Proofs.Masked.Found

/-!
Well-nested delimiters.

`nestFrom` reads bytes with the stack of the delimiters that are open; it fails on a closer that does
not match. Searches in masked texts count depths instead. Main statements: over a run of bytes that
the stack accepts, the depth is the height of the stack (`depthFrom_of_nestFrom`), a search at top
level passes by when something stays open (`topLevelOffset_of_nestFrom`), and the partner of an opener
is the closer that takes it off the stack (`closerOffset_append`).
-/

namespace RpcBindings

namespace Delimiter

theorem eq_closer_of_ofCloser? {b : UInt8} {d : Delimiter} (h : ofCloser? b = some d) :
    b = d.closer.toUInt8 := by
  unfold ofCloser? at h
  split at h
  · obtain rfl := Option.some.inj h; assumption
  · split at h
    · obtain rfl := Option.some.inj h; assumption
    · split at h
      · obtain rfl := Option.some.inj h; assumption
      · simp at h

theorem ofOpener?_closer (d : Delimiter) : ofOpener? d.closer.toUInt8 = none := by
  cases d <;> rfl

theorem opener_inj {d e : Delimiter} (h : d.opener.toUInt8 = e.opener.toUInt8) : d = e := by
  revert h
  cases d <;> cases e <;> decide

theorem closer_inj {d e : Delimiter} (h : d.closer.toUInt8 = e.closer.toUInt8) : d = e := by
  revert h
  cases d <;> cases e <;> decide

theorem opener_ne_closer (d e : Delimiter) : d.opener.toUInt8 ≠ e.closer.toUInt8 := by
  cases d <;> cases e <;> decide

end Delimiter

namespace Masked

open Delimiter

/-! ## The stack of open delimiters -/

/-- The open delimiters after one more byte, the innermost first. -/
def nestStep (stack : List Delimiter) (b : UInt8) : Option (List Delimiter) :=
  match ofOpener? b with
  | some d => some (d :: stack)
  | none =>
    match ofCloser? b, stack with
    | none, _ => some stack
    | some _, [] => none
    | some d, e :: rest => if e = d then some rest else none

/-- The open delimiters after some bytes; none when one closes what is not open. -/
def nestFrom : List Delimiter → List UInt8 → Option (List Delimiter)
  | stack, [] => some stack
  | stack, b :: bs => (nestStep stack b).bind fun after => nestFrom after bs

/-- Every delimiter is closed by its partner, and none is left open. -/
def WellNested (bs : List UInt8) : Prop :=
  nestFrom [] bs = some []

instance (bs : List UInt8) : Decidable (WellNested bs) :=
  inferInstanceAs (Decidable (nestFrom [] bs = some []))

/-- A byte that neither opens nor closes. -/
def isPlain (b : UInt8) : Bool :=
  (ofOpener? b).isNone && (ofCloser? b).isNone

theorem nestStep_of_isPlain {b : UInt8} (h : isPlain b = true) (st : List Delimiter) :
    nestStep st b = some st := by
  unfold isPlain at h
  rw [Bool.and_eq_true, Option.isNone_iff_eq_none, Option.isNone_iff_eq_none] at h
  unfold nestStep
  rw [h.1, h.2]

@[simp] theorem nestStep_opener (d : Delimiter) (st : List Delimiter) :
    nestStep st d.opener.toUInt8 = some (d :: st) := by
  unfold nestStep
  rw [ofOpener?_opener]

@[simp] theorem nestStep_closer (d : Delimiter) (st : List Delimiter) :
    nestStep (d :: st) d.closer.toUInt8 = some st := by
  unfold nestStep
  rw [ofOpener?_closer, ofCloser?_closer]
  exact if_pos rfl

/-- What one byte can do: nothing, open a delimiter, or close the innermost one. -/
theorem nestStep_eq_some {b : UInt8} {st st' : List Delimiter} (h : nestStep st b = some st') :
    (isPlain b = true ∧ st' = st) ∨ (∃ d, b = d.opener.toUInt8 ∧ st' = d :: st) ∨
      ∃ d, b = d.closer.toUInt8 ∧ st = d :: st' := by
  unfold nestStep at h
  split at h
  · rename_i d hd
    exact .inr (.inl ⟨d, eq_opener_of_ofOpener? hd, (Option.some.inj h).symm⟩)
  · rename_i hopen
    split at h
    · rename_i hclose
      refine .inl ⟨?_, (Option.some.inj h).symm⟩
      unfold isPlain
      rw [hopen, hclose]
      rfl
    · simp at h
    · rename_i d e rest hd
      split at h
      · rename_i heq
        subst heq
        obtain rfl := Option.some.inj h
        exact .inr (.inr ⟨e, eq_closer_of_ofCloser? hd, rfl⟩)
      · simp at h

theorem nestFrom_append (st : List Delimiter) (a b : List UInt8) :
    nestFrom st (a ++ b) = (nestFrom st a).bind fun after => nestFrom after b := by
  induction a generalizing st with
  | nil => rfl
  | cons c a ih =>
    rw [List.cons_append, nestFrom, nestFrom]
    cases nestStep st c with
    | none => rfl
    | some after => exact ih after

theorem nestFrom_append_of_eq {st st' : List Delimiter} {a : List UInt8}
    (h : nestFrom st a = some st') (b : List UInt8) :
    nestFrom st (a ++ b) = nestFrom st' b := by
  rw [nestFrom_append, h, Option.bind_some]

/-- What is open further out does not matter. -/
theorem nestFrom_frame {st st' : List Delimiter} {bs : List UInt8}
    (h : nestFrom st bs = some st') (outer : List Delimiter) :
    nestFrom (st ++ outer) bs = some (st' ++ outer) := by
  induction bs generalizing st with
  | nil =>
    obtain rfl := Option.some.inj h
    rfl
  | cons b bs ih =>
    rw [nestFrom] at h ⊢
    obtain ⟨after, hstep, hrest⟩ := Option.bind_eq_some_iff.1 h
    have hframe : nestStep (st ++ outer) b = some (after ++ outer) := by
      obtain ⟨hplain, rfl⟩ | ⟨d, rfl, rfl⟩ | ⟨d, rfl, rfl⟩ := nestStep_eq_some hstep
      · exact nestStep_of_isPlain hplain _
      · exact nestStep_opener d _
      · exact nestStep_closer d _
    rw [hframe]
    exact ih hrest

theorem nestFrom_of_all_isPlain {bs : List UInt8} (h : bs.all isPlain = true)
    (st : List Delimiter) : nestFrom st bs = some st := by
  induction bs with
  | nil => rfl
  | cons b bs ih =>
    rw [List.all_cons, Bool.and_eq_true] at h
    rw [nestFrom, nestStep_of_isPlain h.1, Option.bind_some, ih h.2]

/-- A well-nested text leaves open what was open. -/
theorem WellNested.nestFrom {bs : List UInt8} (h : WellNested bs) (st : List Delimiter) :
    nestFrom st bs = some st := by
  simpa using nestFrom_frame h st

theorem WellNested.append {a b : List UInt8} (ha : WellNested a) (hb : WellNested b) :
    WellNested (a ++ b) := by
  unfold WellNested
  rw [nestFrom_append_of_eq ha]
  exact hb

/-- A well-nested text between partners is well nested. -/
theorem WellNested.enclose {bs : List UInt8} (h : WellNested bs) (d : Delimiter) :
    WellNested (d.opener.toUInt8 :: (bs ++ [d.closer.toUInt8])) := by
  show Masked.nestFrom [] (d.opener.toUInt8 :: (bs ++ [d.closer.toUInt8])) = some []
  rw [Masked.nestFrom, nestStep_opener, Option.bind_some, nestFrom_append_of_eq (h.nestFrom [d]),
    Masked.nestFrom, nestStep_closer]
  rfl

theorem wellNested_of_all_isPlain {bs : List UInt8} (h : bs.all isPlain = true) : WellNested bs :=
  nestFrom_of_all_isPlain h []

/-! ## Depths -/

/-- The depth after some bytes. -/
def depthFrom (depth : Nat) (bs : List UInt8) : Nat :=
  bs.foldl depthAfter depth

theorem depthAfter_of_isPlain {b : UInt8} (h : isPlain b = true) (depth : Nat) :
    depthAfter depth b = depth := by
  unfold isPlain at h
  rw [Bool.and_eq_true, Option.isNone_iff_eq_none, Option.isNone_iff_eq_none] at h
  unfold depthAfter
  rw [h.1, h.2]
  rfl

@[simp] theorem depthAfter_opener (d : Delimiter) (depth : Nat) :
    depthAfter depth d.opener.toUInt8 = depth + 1 := by
  unfold depthAfter
  rw [ofOpener?_opener]
  rfl

@[simp] theorem depthAfter_closer (d : Delimiter) (depth : Nat) :
    depthAfter depth d.closer.toUInt8 = depth - 1 := by
  unfold depthAfter
  rw [ofOpener?_closer, ofCloser?_closer]
  rfl

theorem depthAfter_of_nestStep {st st' : List Delimiter} {b : UInt8}
    (h : nestStep st b = some st') (k : Nat) : depthAfter (st.length + k) b = st'.length + k := by
  obtain ⟨hplain, rfl⟩ | ⟨d, rfl, rfl⟩ | ⟨d, rfl, rfl⟩ := nestStep_eq_some h
  · exact depthAfter_of_isPlain hplain _
  · rw [depthAfter_opener, List.length_cons]
    omega
  · rw [depthAfter_closer, List.length_cons]
    omega

/-- The depth is the height of the stack. -/
theorem depthFrom_of_nestFrom {st st' : List Delimiter} {bs : List UInt8}
    (h : nestFrom st bs = some st') (k : Nat) :
    depthFrom (st.length + k) bs = st'.length + k := by
  induction bs generalizing st with
  | nil =>
    obtain rfl := Option.some.inj h
    rfl
  | cons b bs ih =>
    rw [nestFrom] at h
    obtain ⟨after, hstep, hrest⟩ := Option.bind_eq_some_iff.1 h
    have := ih hrest
    unfold depthFrom at this ⊢
    rw [List.foldl_cons, depthAfter_of_nestStep hstep, this]

/-! ## Searches at top level -/

theorem topLevelOffset_append (target : UInt8) (depth : Nat) (a b : List UInt8) :
    topLevelOffset target depth (a ++ b) =
      (topLevelOffset target depth a).or
        ((topLevelOffset target (depthFrom depth a) b).map (a.length + ·)) := by
  induction a generalizing depth with
  | nil =>
    show topLevelOffset target depth b = (topLevelOffset target depth b).map (0 + ·)
    simp
  | cons c a ih =>
    rw [List.cons_append, topLevelOffset, topLevelOffset]
    split
    · rfl
    · rw [ih]
      show _ = Option.or _ ((topLevelOffset target (depthFrom (depthAfter depth c) a) b).map _)
      cases topLevelOffset target (depthAfter depth c) a with
      | some n => rfl
      | none =>
        rw [Option.none_or, Option.map_none, Option.none_or, Option.map_map]
        refine congrArg (fun f => Option.map f _) ?_
        funext n
        show a.length + n + 1 = (c :: a).length + n
        rw [List.length_cons]
        omega

/-- Below an open delimiter nothing stands at top level. -/
theorem topLevelOffset_of_nestFrom {st st' : List Delimiter} {bs : List UInt8}
    (h : nestFrom st bs = some st') (target : UInt8) (k : Nat) :
    topLevelOffset target (st.length + (k + 1)) bs = none := by
  induction bs generalizing st with
  | nil => rfl
  | cons b bs ih =>
    rw [nestFrom] at h
    obtain ⟨after, hstep, hrest⟩ := Option.bind_eq_some_iff.1 h
    rw [topLevelOffset, depthAfter_of_nestStep hstep, ih hrest, if_neg (by simp)]
    rfl

theorem topLevelOffset_of_not_mem {target : UInt8} {bs : List UInt8} (h : target ∉ bs)
    (depth : Nat) : topLevelOffset target depth bs = none := by
  induction bs generalizing depth with
  | nil => rfl
  | cons b bs ih =>
    rw [List.mem_cons, not_or] at h
    rw [topLevelOffset, ih h.2, if_neg (by simpa using fun _ => Ne.symm h.1)]
    rfl

/-! ## Pieces -/

/-- A run without a separator at top level belongs to the piece that is being read. -/
theorem piecesFrom_append {sep : UInt8} {depth : Nat} {a : List UInt8}
    (h : topLevelOffset sep depth a = none) (start i : Nat) (b : List UInt8) :
    piecesFrom sep depth start i (a ++ b) =
      piecesFrom sep (depthFrom depth a) start (i + a.length) b := by
  induction a generalizing depth i with
  | nil => rfl
  | cons c a ih =>
    rw [topLevelOffset] at h
    split at h
    · simp at h
    · rename_i hc
      rw [List.cons_append, piecesFrom, if_neg]
      · rw [ih (Option.map_eq_none_iff.1 h), List.length_cons, Nat.add_right_comm, Nat.add_assoc]
        rfl
      · intro hsep
        simp only [Bool.and_eq_true, decide_eq_true_eq] at hsep hc
        exact hc ⟨hsep.2, hsep.1.2⟩

/-- A separator at top level ends a piece. -/
theorem piecesFrom_sep {sep : UInt8} (h : isPlain sep = true) (start i : Nat) (b : List UInt8) :
    piecesFrom sep 0 start i (sep :: b) =
      (⟨start, i⟩ :: (piecesFrom sep 0 (i + 1) (i + 1) b).1,
        (piecesFrom sep 0 (i + 1) (i + 1) b).2) := by
  rw [piecesFrom, if_pos (by simp [depthAfter_of_isPlain h])]

/-! ## Partners -/

/-- The partner of an opener is passed by as long as what is opened meanwhile is closed. -/
theorem closerOffset_append {d : Delimiter} {st st' : List Delimiter} {a : List UInt8}
    (h : nestFrom st a = some st') (b : List UInt8) :
    closerOffset d (st.count d + 1) (a ++ b) =
      (closerOffset d (st'.count d + 1) b).map (a.length + ·) := by
  induction a generalizing st with
  | nil =>
    obtain rfl := Option.some.inj h
    simp
  | cons c a ih =>
    rw [nestFrom] at h
    obtain ⟨after, hstep, hrest⟩ := Option.bind_eq_some_iff.1 h
    have hlater : (closerOffset d (after.count d + 1) (a ++ b)).map (· + 1) =
        (closerOffset d (st'.count d + 1) b).map ((c :: a).length + ·) := by
      rw [ih hrest, Option.map_map]
      refine congrArg (fun f => Option.map f _) ?_
      funext n
      show a.length + n + 1 = (c :: a).length + n
      rw [List.length_cons]
      omega
    rw [List.cons_append, closerOffset, ← hlater]
    obtain ⟨hplain, rfl⟩ | ⟨e, rfl, rfl⟩ | ⟨e, rfl, rfl⟩ := nestStep_eq_some hstep
    · have hopener : c ≠ d.opener.toUInt8 := by
        rintro rfl
        simp [isPlain, ofOpener?_opener] at hplain
      have hcloser : c ≠ d.closer.toUInt8 := by
        rintro rfl
        simp [isPlain, ofCloser?_closer] at hplain
      rw [if_neg hopener, if_neg hcloser]
    · by_cases he : e = d
      · subst he
        rw [if_pos rfl, List.count_cons_self]
      · rw [if_neg fun heq => he (opener_inj heq), if_neg (opener_ne_closer e d),
          List.count_cons_of_ne he]
    · by_cases he : e = d
      · subst he
        rw [if_neg fun heq => opener_ne_closer e e heq.symm, if_pos rfl, List.count_cons_self,
          if_neg (by omega)]
        rfl
      · rw [if_neg fun heq => opener_ne_closer d e heq.symm, if_neg fun heq => he (closer_inj heq),
          List.count_cons_of_ne he]

/-- The partner of an opener before a well-nested text is the closer behind the text. -/
theorem closerOffset_of_wellNested {a : List UInt8} (h : WellNested a) (d : Delimiter)
    (b : List UInt8) : closerOffset d 1 (a ++ d.closer.toUInt8 :: b) = some a.length := by
  rw [show (1 : Nat) = ([] : List Delimiter).count d + 1 from rfl, closerOffset_append h,
    closerOffset, if_neg fun heq => opener_ne_closer d d heq.symm, if_pos rfl]
  rfl

/-- Where the stack accepts an opener and what follows it, the partner that is found takes it off the
stack, and what stands between the two is well nested. -/
theorem nestFrom_of_closerOffset {d : Delimiter} {inner outer st : List Delimiter} {bs : List UInt8}
    {k : Nat} (h : nestFrom (inner ++ d :: outer) bs = some st)
    (hk : closerOffset d (inner.count d + 1) bs = some k) :
    nestFrom inner (bs.take k) = some [] ∧ nestFrom outer (bs.drop (k + 1)) = some st := by
  induction bs generalizing inner k with
  | nil => exact absurd hk nofun
  | cons b bs ih =>
    rw [nestFrom] at h
    obtain ⟨after, hstep, hrest⟩ := Option.bind_eq_some_iff.1 h
    -- a byte that stays below the opener is passed by
    have hlater {inner' : List Delimiter} (hafter : after = inner' ++ d :: outer)
        (hinner : nestStep inner b = some inner')
        (hk : (closerOffset d (inner'.count d + 1) bs).map (· + 1) = some k) :
        nestFrom inner ((b :: bs).take k) = some [] ∧
          nestFrom outer ((b :: bs).drop (k + 1)) = some st := by
      obtain ⟨n, hn, rfl⟩ := Option.map_eq_some_iff.1 hk
      obtain ⟨hbetween, hbehind⟩ := ih (hafter ▸ hrest) hn
      refine ⟨?_, hbehind⟩
      rw [List.take_succ_cons, nestFrom, hinner]
      exact hbetween
    rw [closerOffset] at hk
    obtain ⟨hplain, rfl⟩ | ⟨e, rfl, rfl⟩ | ⟨e, rfl, hst⟩ := nestStep_eq_some hstep
    · have hopener : b ≠ d.opener.toUInt8 := by
        rintro rfl
        simp [isPlain, ofOpener?_opener] at hplain
      have hcloser : b ≠ d.closer.toUInt8 := by
        rintro rfl
        simp [isPlain, ofCloser?_closer] at hplain
      rw [if_neg hopener, if_neg hcloser] at hk
      exact hlater rfl (nestStep_of_isPlain hplain _) hk
    · refine hlater (List.cons_append (a := e)).symm (nestStep_opener e inner) ?_
      by_cases he : e = d
      · subst he
        rwa [if_pos rfl, ← List.count_cons_self] at hk
      · rwa [if_neg fun heq => he (opener_inj heq), if_neg (opener_ne_closer e d),
          ← List.count_cons_of_ne he] at hk
    · cases inner with
      | nil =>
        obtain ⟨rfl, rfl⟩ := List.cons.inj hst
        rw [if_neg fun heq => opener_ne_closer d d heq.symm, if_pos rfl, if_pos (by simp)] at hk
        obtain rfl := Option.some.inj hk
        exact ⟨rfl, hrest⟩
      | cons f inner =>
        obtain ⟨rfl, rfl⟩ := List.cons.inj hst
        refine hlater rfl (nestStep_closer f inner) ?_
        by_cases he : f = d
        · subst he
          rwa [if_neg fun heq => opener_ne_closer f f heq.symm, if_pos rfl, List.count_cons_self,
            if_neg (by omega)] at hk
        · rwa [if_neg fun heq => opener_ne_closer d f heq.symm,
            if_neg fun heq => he (closer_inj heq), List.count_cons_of_ne he] at hk

/-- Where the stack is emptied every opener has its partner. -/
theorem exists_closerOffset {d : Delimiter} {inner outer : List Delimiter} {bs : List UInt8}
    (h : nestFrom (inner ++ d :: outer) bs = some []) :
    ∃ k, closerOffset d (inner.count d + 1) bs = some k := by
  induction bs generalizing inner with
  | nil => exact absurd (Option.some.inj h) (by simp)
  | cons b bs ih =>
    rw [nestFrom] at h
    obtain ⟨after, hstep, hrest⟩ := Option.bind_eq_some_iff.1 h
    rw [closerOffset]
    obtain ⟨hplain, rfl⟩ | ⟨e, rfl, rfl⟩ | ⟨e, rfl, hst⟩ := nestStep_eq_some hstep
    · have hopener : b ≠ d.opener.toUInt8 := by
        rintro rfl
        simp [isPlain, ofOpener?_opener] at hplain
      have hcloser : b ≠ d.closer.toUInt8 := by
        rintro rfl
        simp [isPlain, ofCloser?_closer] at hplain
      obtain ⟨k, hk⟩ := ih hrest
      exact ⟨k + 1, by rw [if_neg hopener, if_neg hcloser, hk]; rfl⟩
    · obtain ⟨k, hk⟩ := ih (show nestFrom ((e :: inner) ++ d :: outer) bs = some [] from hrest)
      refine ⟨k + 1, ?_⟩
      by_cases he : e = d
      · subst he
        rw [List.count_cons_self] at hk
        rw [if_pos rfl, hk]
        rfl
      · rw [List.count_cons_of_ne he] at hk
        rw [if_neg fun heq => he (opener_inj heq), if_neg (opener_ne_closer e d), hk]
        rfl
    · cases inner with
      | nil =>
        obtain ⟨rfl, rfl⟩ := List.cons.inj hst
        exact ⟨0, by rw [if_neg fun heq => opener_ne_closer d d heq.symm, if_pos rfl]; rfl⟩
      | cons f inner =>
        obtain ⟨rfl, rfl⟩ := List.cons.inj hst
        obtain ⟨k, hk⟩ := ih hrest
        refine ⟨k + 1, ?_⟩
        by_cases he : f = d
        · subst he
          rw [if_neg fun heq => opener_ne_closer f f heq.symm, if_pos rfl, List.count_cons_self,
            if_neg (by omega), Nat.add_sub_cancel, hk]
          rfl
        · rw [List.count_cons_of_ne he, if_neg fun heq => opener_ne_closer d f heq.symm,
            if_neg fun heq => he (closer_inj heq), hk]
          rfl

/-- In a well-nested text every opener has its partner. -/
theorem exists_closer? {m : Masked} {i : Nat} {d : Delimiter} (h : WellNested m.bytes)
    (hi : m.bytes[i]? = some d.opener.toUInt8) : ∃ j, m.closer? i = some j := by
  obtain ⟨hlt, hget⟩ := List.getElem?_eq_some_iff.1 hi
  have hdrop : m.bytes.drop i = d.opener.toUInt8 :: m.bytes.drop (i + 1) := by
    rw [List.drop_eq_getElem_cons hlt, hget]
  unfold WellNested at h
  rw [← List.take_append_drop i m.bytes, hdrop, nestFrom_append] at h
  obtain ⟨st, -, hrest⟩ := Option.bind_eq_some_iff.1 h
  rw [nestFrom, nestStep_opener, Option.bind_some] at hrest
  obtain ⟨k, hk⟩ := exists_closerOffset (show nestFrom ([] ++ d :: st) _ = some [] from hrest)
  have hk : closerOffset d 1 (m.bytes.drop (i + 1)) = some k := hk
  refine ⟨i + 1 + k, ?_⟩
  unfold closer?
  simp only [hdrop, ofOpener?_opener, hk, Option.map_some]

end Masked

end RpcBindings
