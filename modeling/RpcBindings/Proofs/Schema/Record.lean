import RpcBindings.Proofs.Masked.Append
import RpcBindings.Schema.Record

/-!
Records of a schema that is written in two parts.

Every struct is looked for in the whole source: its body or its semicolon behind the keyword, its
comments and attributes above it. Main statement: when the first part ends in an empty line and none of
its structs runs over its end, each part is read as it is read alone (`Record.readAll_append`).
-/

namespace RpcBindings

open Masked

namespace Masked

variable {a b : Masked} {i : Nat}

/-! ## Structs of the second part -/

theorem structEndBody_append_add (ha : a.size = a.sourceSize) (b : Masked) (opened : Nat) :
    structEnd.body (a.append b) (a.size + opened) =
      (a.size + (structEnd.body b opened).1, (structEnd.body b opened).2) := by
  unfold structEnd.body
  rw [closer?_append_add, sourceSize_append ha]
  cases b.closer? opened <;> rfl

theorem structEnd_append_add (ha : a.size = a.sourceSize) (b : Masked) (i : Nat) :
    (a.append b).structEnd (a.size + i) =
      (a.size + (b.structEnd i).1, (b.structEnd i).2) := by
  have hbody := structEndBody_append_add ha b
  unfold structEnd
  simp only [sourceSize_append ha, findTopLevel?_append_add]
  cases b.findTopLevel? i b.sourceSize '\x7b' with
  | none => cases b.findTopLevel? i b.sourceSize ';' <;> rfl
  | some opened =>
    cases b.findTopLevel? i b.sourceSize ';' with
    | none => exact hbody opened
    | some semicolon =>
      simp only [Option.map_some, Nat.add_lt_add_iff_left]
      split
      · exact hbody opened
      · rfl

theorem recordAt_append_add (ha : a.Lined) (hseam : a.decorationFrom a.size = a.size) (b : Masked)
    (i stop : Nat) (reason? : Option SkipReason) :
    (a.append b).recordAt (a.size + i) (a.size + stop) reason? = b.recordAt i stop reason? := by
  have hname : ((a.append b).nameAfter? (a.size + i + "struct".length)).map
      (fun s => String.ofList ((a.append b).spanText s)) =
        (b.nameAfter? (i + "struct".length)).map fun s => String.ofList (b.spanText s) := by
    rw [Nat.add_assoc, nameAfter?_append_add, Option.map_map]
    exact congrArg (fun f => Option.map f _)
      (funext fun s => congrArg String.ofList (spanText_append_add ha.size_eq b s))
  unfold recordAt
  rw [ha.decorationStart_append_add hseam, slice_append_add ha.size_eq, hname]

theorem recordsFrom_append_add (ha : a.Lined) (hseam : a.decorationFrom a.size = a.size)
    (b : Masked) (places : List Nat) (start : Nat) :
    (a.append b).recordsFrom (places.map (a.size + ·)) start =
      b.recordsFrom places (start - a.size) := by
  induction places generalizing start with
  | nil => rfl
  | cons i places ih =>
    rw [List.map_cons, recordsFrom, recordsFrom]
    by_cases hi : i < start - a.size
    · rw [if_pos hi, if_pos (by omega), ih]
    · rw [if_neg hi, if_neg (by omega), structEnd_append_add ha.size_eq]
      simp only [recordAt_append_add ha hseam, ih, Nat.add_sub_cancel_left]

/-! ## Structs of the first part -/

theorem structEndBody_append {opened : Nat}
    (h : (structEnd.body a opened).2 ≠ some .unbalancedBraces) (b : Masked) :
    structEnd.body (a.append b) opened = structEnd.body a opened ∧
      (structEnd.body a opened).1 ≤ a.size := by
  unfold structEnd.body at h ⊢
  cases hc : a.closer? opened with
  | none =>
    simp only [hc] at h
    exact absurd rfl h
  | some closed =>
    simp only [closer?_append hc]
    exact ⟨trivial, (lt_of_closer? hc).2⟩

/-- A struct that ends in the first part ends there in both, and a brace or a semicolon follows its
keyword. -/
theorem structEnd_append (ha : a.size = a.sourceSize) (hi : i ≤ a.size)
    (hbody : (a.structEnd i).2 ≠ some .noStructBody)
    (hbraces : (a.structEnd i).2 ≠ some .unbalancedBraces) (b : Masked) :
    (a.append b).structEnd i = a.structEnd i ∧ (a.structEnd i).1 ≤ a.size ∧
      ∃ k c, i ≤ k ∧ a.hasChar k c = true ∧ (c = '\x7b' ∨ c = ';') := by
  have hboth {c : Char} {k : Nat} (h : a.findTopLevel? i a.size c = some k) :
      (a.append b).findTopLevel? i (a.size + b.sourceSize) c = some k ∧ k < a.size ∧
        a.hasChar k c = true :=
    ⟨findTopLevel?_append hi h b _, lt_size_of_hasChar (hasChar_of_findTopLevel? h),
      hasChar_of_findTopLevel? h⟩
  have hlater {c : Char} {k : Nat} (hnone : a.findTopLevel? i a.size c = none)
      (h : (a.append b).findTopLevel? i (a.size + b.sourceSize) c = some k) : a.size ≤ k :=
    le_of_findTopLevel?_append hi hnone h
  unfold structEnd at hbody hbraces ⊢
  simp only [sourceSize_append ha]
  simp only [← ha] at hbody hbraces ⊢
  cases hopened : a.findTopLevel? i a.size '\x7b' with
  | none =>
    cases hsemicolon : a.findTopLevel? i a.size ';' with
    | none =>
      simp only [hopened, hsemicolon] at hbody
      exact absurd rfl hbody
    | some semicolon =>
      obtain ⟨hfound, hlt, hchar⟩ := hboth hsemicolon
      refine ⟨?_, hlt, semicolon, ';', le_of_findTopLevel? hsemicolon, hchar, .inr rfl⟩
      simp only [hfound]
      cases hopened' : (a.append b).findTopLevel? i (a.size + b.sourceSize) '\x7b' with
      | none => rfl
      | some opened =>
        have := hlater hopened hopened'
        simp only [if_neg (show ¬opened < semicolon by omega)]
  | some opened =>
    obtain ⟨hfound, hlt, hchar⟩ := hboth hopened
    simp only [hfound]
    cases hsemicolon : a.findTopLevel? i a.size ';' with
    | none =>
      simp only [hopened, hsemicolon] at hbraces
      obtain ⟨heq, hle⟩ := structEndBody_append hbraces b
      refine ⟨?_, hle, opened, '\x7b', le_of_findTopLevel? hopened, hchar, .inl rfl⟩
      cases hsemicolon' : (a.append b).findTopLevel? i (a.size + b.sourceSize) ';' with
      | none => exact heq
      | some semicolon =>
        have := hlater hsemicolon hsemicolon'
        simp only [if_pos (show opened < semicolon by omega)]
        exact heq
    | some semicolon =>
      obtain ⟨hfound', hlt', hchar'⟩ := hboth hsemicolon
      simp only [hopened, hsemicolon] at hbraces
      simp only [hfound']
      split
      · rename_i hfirst
        rw [if_pos hfirst] at hbraces
        obtain ⟨heq, hle⟩ := structEndBody_append hbraces b
        exact ⟨heq, hle, opened, '\x7b', le_of_findTopLevel? hopened, hchar, .inl rfl⟩
      · exact ⟨rfl, hlt', semicolon, ';', le_of_findTopLevel? hsemicolon, hchar', .inr rfl⟩

/-- A struct of the first part is read as in the first part alone. -/
theorem recordAt_append (ha : a.Lined) (b : Masked) {k stop : Nat} {c : Char}
    (hword : a.wordAt "struct".toList i = true) (hik : i ≤ k) (hc : a.hasChar k c = true)
    (hkind : c = '\x7b' ∨ c = ';') (hstop : stop ≤ a.size) (reason? : Option SkipReason) :
    (a.append b).recordAt i stop reason? = a.recordAt i stop reason? := by
  have hi : i < a.size := by have := lt_size_of_hasChar hc; omega
  have hbehind : i + 6 ≤ k := by
    refine add_length_le_of_wordAt hword hik (hasChar_iff.1 hc) ?_
    rcases hkind with rfl | rfl <;> decide +kernel
  have hcut : a.CutsAt (i + 6) :=
    (ha.cuts (i + 5) _ (getElem?_of_wordAt (k := 5) hword rfl) (by decide) (by decide)).2
  obtain ⟨j, hj, -⟩ : ∃ j, a.skipBlank? (i + 6) = some j ∧ j ≤ k := by
    rcases hkind with rfl | rfl <;> exact exists_skipBlank? hcut hbehind hc (by decide) (by decide)
  have hsubject : ((a.append b).nameAfter? (i + "struct".length)).map
      (fun s => String.ofList ((a.append b).spanText s)) =
        (a.nameAfter? (i + "struct".length)).map fun s => String.ofList (a.spanText s) := by
    rw [show (a.append b).nameAfter? (i + "struct".length) = a.nameAfter? (i + "struct".length) from
      ha.nameAfter?_append b hj]
    exact Option.map_congr fun s hs => congrArg String.ofList (ha.spanText_append b hs)
  have hfragment : (a.append b).slice ((a.append b).decorationStart i) stop =
      a.slice (a.decorationStart i) stop := by
    rw [ha.decorationStart_append b (Nat.le_of_lt hi)]
    exact slice_append_of_le ha.size_eq
      (ha.cutsAt_of_isLineStart (isLineStart_decorationFrom (isLineStart_lineStart a i))) hstop b
  unfold recordAt
  rw [hfragment, hsubject]

/-! ## All structs -/

/-- No struct runs over the end of the text. -/
def StructsEnd (outcomes : List (Outcome Record)) : Prop :=
  ∀ d ∈ outcomes.filterMap Outcome.skipped?,
    d.reason ≠ .noStructBody ∧ d.reason ≠ .unbalancedBraces

instance (outcomes : List (Outcome Record)) : Decidable (StructsEnd outcomes) :=
  inferInstanceAs (Decidable (∀ d ∈ outcomes.filterMap Outcome.skipped?, _))

theorem StructsEnd.of_cons {o : Outcome Record} {outcomes : List (Outcome Record)}
    (h : StructsEnd (o :: outcomes)) : StructsEnd outcomes := by
  intro d hd
  obtain ⟨o', ho', hskipped⟩ := List.mem_filterMap.1 hd
  exact h d (List.mem_filterMap.2 ⟨o', List.mem_cons_of_mem o ho', hskipped⟩)

theorem structEnd_ne_of_structsEnd {outcomes : List (Outcome Record)} {stop : Nat}
    {reason? : Option SkipReason} (h : StructsEnd (a.recordAt i stop reason? :: outcomes)) :
    reason? ≠ some .noStructBody ∧ reason? ≠ some .unbalancedBraces := by
  have hreason {reason : SkipReason} (hr : reason? = some reason) :
      reason ≠ .noStructBody ∧ reason ≠ .unbalancedBraces := by
    subst hr
    exact h _ (List.mem_filterMap.2 ⟨_, List.mem_cons_self, rfl⟩)
  exact ⟨fun hr => (hreason hr).1 rfl, fun hr => (hreason hr).2 rfl⟩

/-- The structs of two texts are those of the first one and then those of the second. -/
theorem recordsFrom_append (ha : a.Lined) (hseam : a.decorationFrom a.size = a.size) (b : Masked)
    {places : List Nat} (later : List Nat) {start : Nat}
    (hplaces : ∀ i ∈ places, i < a.size ∧ a.wordAt "struct".toList i = true)
    (hstart : start ≤ a.size) (hends : StructsEnd (a.recordsFrom places start)) :
    (a.append b).recordsFrom (places ++ later.map (a.size + ·)) start =
      a.recordsFrom places start ++ b.recordsFrom later 0 := by
  induction places generalizing start with
  | nil =>
    rw [List.nil_append, recordsFrom_append_add ha hseam, Nat.sub_eq_zero_of_le hstart]
    rfl
  | cons i places ih =>
    obtain ⟨hi, hword⟩ := hplaces i List.mem_cons_self
    have hplaces := fun j hj => hplaces j (List.mem_cons_of_mem i hj)
    rw [List.cons_append, recordsFrom, recordsFrom]
    rw [recordsFrom] at hends
    by_cases hlt : i < start
    · rw [if_pos hlt] at hends
      rw [if_pos hlt, if_pos hlt, ih hplaces hstart hends]
    · rw [if_neg hlt] at hends
      obtain ⟨hbody, hbraces⟩ := structEnd_ne_of_structsEnd hends
      obtain ⟨hend, hle, k, c, hik, hc, hkind⟩ :=
        structEnd_append ha.size_eq (Nat.le_of_lt hi) hbody hbraces b
      rw [if_neg hlt, if_neg hlt]
      simp only [hend, recordAt_append ha b hword hik hc hkind hle, ih hplaces hle hends.of_cons,
        List.cons_append]

end Masked

/-- A schema in two parts is read part by part, when the copy of the whole is that of its parts, the
first part ends in an empty line, and no struct of it runs over its end. -/
theorem Record.readAll_append (s t : String)
    (hmask : mask .rust (s ++ t).toList = mask .rust s.toList ++ mask .rust t.toList)
    (hlast : ∀ line ∈ (Text.lines s.toList).getLast?, line = [])
    (hends : StructsEnd (readAll s)) : readAll (s ++ t) = readAll s ++ readAll t := by
  obtain ⟨ha, hseam⟩ : (ofSource .rust s.toList).Lined ∧
      (ofSource .rust s.toList).decorationFrom (ofSource .rust s.toList).size =
        (ofSource .rust s.toList).size := by
    rcases Text.exists_blank_line hlast with hs | ⟨before, blank, hs, hbefore, hblank⟩
    · rw [hs]
      exact ⟨lined_ofSource nofun, by decide +kernel⟩
    · rw [hs]
      refine ⟨lined_ofSource fun c hc => ?_, Lined.decorationFrom_size_ofSource hbefore hblank⟩
      rw [← List.append_assoc, List.getLast?_concat] at hc
      exact (Option.some.inj hc).symm
  have happend : ofSource .rust (s ++ t).toList =
      (ofSource .rust s.toList).append (ofSource .rust t.toList) := by
    rw [String.toList_append] at hmask ⊢
    exact ofSource_append hmask
  unfold readAll
  simp only [happend, ha.wordStarts_append (ofSource .rust t.toList)
    (show '\n'.toUInt8 ∉ Text.bytes "struct".toList by decide +kernel)]
  exact recordsFrom_append ha hseam _ _
    (fun i hi => mem_wordStarts.1 hi) (Nat.zero_le _) hends

/-- A record and a struct without field names, before an empty line. -/
def pointSchema : String :=
  "/// Point.\npub struct P \x7b pub x: u32 \x7d\nstruct U(u8);\n// end\n\n"

/-- A generic struct under a comment, and a record. -/
def shapeSchema : String :=
  "// L\nstruct L<T> \x7b a: T \x7d\npub struct Q \x7b pub y: Vec<u8> \x7d"

theorem Record.readAll_append_pointSchema :
    mask .rust (pointSchema ++ shapeSchema).toList =
        mask .rust pointSchema.toList ++ mask .rust shapeSchema.toList ∧
      (∀ line ∈ (Text.lines pointSchema.toList).getLast?, line = []) ∧
      StructsEnd (readAll pointSchema) ∧
      (readAll pointSchema).length = 2 ∧ (readAll shapeSchema).length = 2 ∧
      readAll (pointSchema ++ shapeSchema) = readAll pointSchema ++ readAll shapeSchema := by
  have hmask : mask .rust (pointSchema ++ shapeSchema).toList =
      mask .rust pointSchema.toList ++ mask .rust shapeSchema.toList := by decide +kernel
  have hlast : ∀ line ∈ (Text.lines pointSchema.toList).getLast?, line = [] := by decide +kernel
  have hends : StructsEnd (readAll pointSchema) := by decide +kernel
  exact ⟨hmask, hlast, hends, by decide +kernel, by decide +kernel,
    readAll_append pointSchema shapeSchema hmask hlast hends⟩

end RpcBindings
