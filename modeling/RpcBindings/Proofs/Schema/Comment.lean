import RpcBindings.Proofs.Masked.Behind
import RpcBindings.Proofs.Masked.Index
import RpcBindings.Proofs.Masked.Lexeme
import RpcBindings.Proofs.Masked.Word
import RpcBindings.Proofs.Schema.Interface

/-!
Declarations beside block comments.

In a schema block comments hold block comments, and a comment ends where as many have been closed as
opened (`closesComments`). Masking does not count: it hides a comment up to the first closer in it.
Main statement: that much of every comment is hidden, and no declaration is read there; the whole
comment is hidden that way exactly when it holds no other, and then what follows is masked on its own
(`Schema.comment_hides_declarations`). What a comment holds behind the end of an inner one is read as
code (`Schema.record_in_comment`).
-/

namespace RpcBindings

namespace Masked

/-! ## Comments in comments -/

/-- The text closes with its last character the last one of so many open block comments. Comments in
it are comments on their own. -/
def closesComments : Nat → List Char → Bool
  | 0, cs => cs.isEmpty
  | depth + 1, '/' :: '*' :: cs => closesComments (depth + 2) cs
  | depth + 1, '*' :: '/' :: cs => closesComments depth cs
  | depth + 1, _ :: cs => closesComments (depth + 1) cs
  | _ + 1, [] => false

/-- A character that is part of no opener and no closer changes nothing. -/
theorem closesComments_cons {depth : Nat} {c : Char} {cs : List Char}
    (hopener : ¬['/', '*'] <+: c :: cs) (hcloser : ¬['*', '/'] <+: c :: cs) :
    closesComments (depth + 1) (c :: cs) = closesComments (depth + 1) cs :=
  closesComments.eq_4 depth c cs
    (fun later hc hcs => hopener (by rw [hc, hcs]; exact List.prefix_append ['/', '*'] later))
    fun later hc hcs => hcloser (by rw [hc, hcs]; exact List.prefix_append ['*', '/'] later)

theorem infix_of_closesComments {depth : Nat} {cs : List Char}
    (h : closesComments (depth + 1) cs = true) : ['*', '/'] <:+: cs := by
  induction cs using List.twoStepInduction generalizing depth with
  | nil => exact absurd h Bool.false_ne_true
  | singleton c =>
    rw [closesComments_cons (by simp) (by simp)] at h
    exact absurd h Bool.false_ne_true
  | cons_cons c d cs ih ih' =>
    by_cases hopener : ['/', '*'] <+: c :: d :: cs
    · obtain ⟨later, hlater⟩ := hopener
      obtain ⟨rfl, rfl, rfl⟩ : '/' = c ∧ '*' = d ∧ later = cs := by simpa using hlater
      exact List.infix_cons (List.infix_cons (ih h))
    · by_cases hcloser : ['*', '/'] <+: c :: d :: cs
      · exact hcloser.isInfix
      · rw [closesComments_cons hopener hcloser] at h
        exact List.infix_cons (ih' d h)

/-- What ends holds a first end. -/
theorem exists_first_closer {cs : List Char} (h : ['*', '/'] <:+: cs) :
    ∃ body rest, cs = body ++ '*' :: '/' :: rest ∧ ¬['*', '/'] <:+: body := by
  induction cs with
  | nil => exact absurd h (by simp)
  | cons c cs ih =>
    by_cases hprefix : ['*', '/'] <+: c :: cs
    · obtain ⟨rest, hrest⟩ := hprefix
      exact ⟨[], rest, hrest.symm, by simp⟩
    · obtain ⟨body, rest, rfl, hbody⟩ := ih ((List.infix_cons_iff.1 h).resolve_left hprefix)
      refine ⟨c :: body, rest, rfl, fun hinfix => ?_⟩
      rcases List.infix_cons_iff.1 hinfix with hhead | hlater
      · exact hprefix (hhead.trans (List.prefix_append (c :: body) _))
      · exact hbody hlater

theorem not_startsWith_closer {c : Char} {body : List Char} (h : ¬['*', '/'] <:+: c :: body)
    (rest : List Char) : ¬['*', '/'] <+: c :: (body ++ '*' :: rest) := by
  rintro ⟨later, hlater⟩
  obtain ⟨hc, htail⟩ := List.cons.inj hlater
  cases body with
  | nil => exact absurd (List.cons.inj htail).1 (by decide)
  | cons d body =>
    refine h ⟨[], body, ?_⟩
    rw [← hc, ← (List.cons.inj htail).1]
    rfl

/-- Without an opener the first closer closes the last comment that has been opened. -/
theorem closesComments_of_no_opener {depth : Nat} {body rest : List Char}
    (hbody : ¬['*', '/'] <:+: body) (hno : ¬['/', '*'] <:+: body ++ '*' :: '/' :: rest)
    (h : closesComments (depth + 1) (body ++ '*' :: '/' :: rest) = true) :
    closesComments depth rest = true := by
  induction body with
  | nil => exact h
  | cons c body ih =>
    have hopener : ¬['/', '*'] <+: c :: (body ++ '*' :: '/' :: rest) := fun hprefix =>
      hno hprefix.isInfix
    rw [List.cons_append, closesComments_cons hopener (not_startsWith_closer hbody _)] at h
    exact ih (fun hinfix => hbody (List.infix_cons hinfix))
      (fun hinfix => hno (List.infix_cons hinfix)) h

/-- One closer closes one comment, and no other has been opened before it. -/
theorem no_opener_of_closesComments {depth : Nat} {body : List Char}
    (hbody : ¬['*', '/'] <:+: body) (h : closesComments (depth + 1) (body ++ ['*', '/']) = true) :
    depth = 0 ∧ ¬['/', '*'] <:+: body ++ ['*', '/'] := by
  have hend {depth : Nat} (h : closesComments (depth + 1) ['*', '/'] = true) :
      depth = 0 ∧ ¬['/', '*'] <:+: ['*', '/'] := by
    cases depth with
    | zero => exact ⟨rfl, by decide⟩
    | succ depth => exact absurd h Bool.false_ne_true
  have hcons {depth : Nat} {c : Char} {body : List Char} (hbody : ¬['*', '/'] <:+: c :: body)
      (hopener : ¬['/', '*'] <+: c :: (body ++ ['*', '/']))
      (h : closesComments (depth + 1) (c :: (body ++ ['*', '/'])) = true)
      (ih : closesComments (depth + 1) (body ++ ['*', '/']) = true →
        depth = 0 ∧ ¬['/', '*'] <:+: body ++ ['*', '/']) :
      depth = 0 ∧ ¬['/', '*'] <:+: c :: (body ++ ['*', '/']) := by
    rw [closesComments_cons hopener (not_startsWith_closer hbody _)] at h
    refine ⟨(ih h).1, fun hinfix => ?_⟩
    exact (List.infix_cons_iff.1 hinfix).elim hopener (ih h).2
  induction body using List.twoStepInduction generalizing depth with
  | nil => exact hend h
  | singleton c =>
    refine hcons hbody (fun hopener => ?_) h hend
    obtain ⟨later, hlater⟩ := hopener
    obtain ⟨rfl, -⟩ : '/' = c ∧ later = ['/'] := by simpa using hlater
    exact absurd h Bool.false_ne_true
  | cons_cons c d cs ih ih' =>
    have hlater : ¬['*', '/'] <:+: d :: cs := fun hinfix => hbody (List.infix_cons hinfix)
    refine hcons hbody (fun hopener => ?_) h (ih' d hlater)
    obtain ⟨later, hcs⟩ := hopener
    obtain ⟨rfl, rfl, -⟩ : '/' = c ∧ '*' = d ∧ later = cs ++ ['*', '/'] := by simpa using hcs
    exact absurd (ih (fun hinfix => hlater (List.infix_cons hinfix)) h).1 (Nat.succ_ne_zero _)

/-- A comment ends with its first closer exactly when it holds no other comment. -/
theorem closes_first_iff {body rest : List Char} (hbody : ¬['*', '/'] <:+: body)
    (h : closesComments 1 (body ++ '*' :: '/' :: rest) = true) :
    rest = [] ↔ ¬['/', '*'] <:+: body ++ '*' :: '/' :: rest := by
  constructor
  · rintro rfl
    exact (no_opener_of_closesComments hbody h).2
  · intro hno
    have hrest := closesComments_of_no_opener hbody hno h
    rw [closesComments.eq_1] at hrest
    exact List.isEmpty_iff.1 hrest

/-! ## What is hidden of a comment -/

variable {lang : SourceLang}

/-- A block comment is hidden up to its first closer, and what follows is masked on its own. -/
theorem mask_blockComment {before body after : List Char} {w : WordState}
    (hcode : modeBehind lang (.code .fresh) before ('/' :: '*' :: (body ++ '*' :: '/' :: after)) =
      .code w) (hbody : ¬['*', '/'] <:+: body) :
    mask lang (before ++ '/' :: '*' :: (body ++ '*' :: '/' :: after)) =
      shownBefore lang (.code .fresh) before ('/' :: '*' :: (body ++ '*' :: '/' :: after)) ++
        (('/' :: '*' :: (body ++ ['*', '/'])).flatMap Glyph.blank ++ mask lang after) := by
  have hcomment : maskFrom lang (.code w) ('/' :: '*' :: (body ++ '*' :: '/' :: after)) =
      ('/' :: '*' :: (body ++ ['*', '/'])).flatMap Glyph.blank ++ mask lang after := by
    rw [maskFrom_cons_hidden .blockOpen rfl, maskFrom_cons_hidden .blockComment rfl,
      maskFrom_blockComment hbody]
    simp only [List.flatMap_cons, List.append_assoc]
    rfl
  rw [mask, glyphs, glyphsFrom_behind, hcode, showGlyphs_append, ← hcomment]
  rfl

theorem bytes_flatMap_blank (t : List Char) :
    Text.bytes (t.flatMap Glyph.blank) = (Text.bytes t).map Glyph.blankByte := by
  induction t with
  | nil => rfl
  | cons c t ih =>
    rw [List.flatMap_cons, Text.bytes_append, Glyph.bytes_blank, ih, Text.bytes_cons,
      List.map_append]

/-- A word stands outside of a hidden text. -/
theorem outside_of_wordAt {m : Masked} {x t y word : List Char} {i : Nat} {b : UInt8}
    (hcode : m.code = x ++ (t.flatMap Glyph.blank ++ y)) (hword : m.wordAt word i = true)
    (hfirst : (Text.bytes word)[0]? = some b) (hb : isWordByte b = true) :
    i < Text.byteLength x ∨ Text.byteLength (x ++ t) ≤ i := by
  by_contra hinside
  rw [not_or, Nat.not_lt, Nat.not_le, Text.byteLength_append] at hinside
  have hbyte : m.bytes[i]? = some b := getElem?_of_wordAt hword hfirst
  have hlt : i - Text.byteLength x < (Text.bytes t).length := by
    rw [Text.length_bytes]
    omega
  rw [m.bytes_eq, hcode, Text.bytes_append, Text.bytes_append, bytes_flatMap_blank,
    List.getElem?_append_right (by rw [Text.length_bytes]; exact hinside.1),
    List.getElem?_append_left (by rwa [List.length_map, Text.length_bytes]), Text.length_bytes,
    List.getElem?_map, List.getElem?_eq_getElem hlt, Option.map_some] at hbyte
  rw [← Option.some.inj hbyte] at hb
  unfold Glyph.blankByte at hb
  split at hb
  · rename_i hline
    rw [hline] at hb
    exact absurd hb (by decide)
  · exact absurd hb (by decide)

/-! ## Where declarations are read -/

/-- The `struct` at an offset is read with an outcome. -/
def ReadsRecord (m : Masked) (i : Nat) (o : Outcome Record) : Prop :=
  m.wordAt "struct".toList i = true ∧ o = m.recordAt i (m.structEnd i).1 (m.structEnd i).2

theorem mem_recordsFrom {m : Masked} {places : List Nat} {start : Nat} {o : Outcome Record}
    (hplaces : ∀ i ∈ places, m.wordAt "struct".toList i = true)
    (h : o ∈ m.recordsFrom places start) : ∃ i, m.ReadsRecord i o := by
  induction places generalizing start with
  | nil => exact absurd h List.not_mem_nil
  | cons i places ih =>
    have hlater := fun j hj => hplaces j (List.mem_cons_of_mem i hj)
    rw [recordsFrom] at h
    split at h
    · exact ih hlater h
    · rcases List.mem_cons.1 h with rfl | h
      · exact ⟨i, hplaces i List.mem_cons_self, rfl⟩
      · exact ih hlater h

end Masked

namespace Schema

open Masked

/-- Every declaration of a schema that is read has its keyword outside of a range. -/
structure ReadsOutside (options : InterfaceOptions) (source : String) (start stop : Nat) :
    Prop where
  record : ∀ o ∈ Record.readAll source,
    ∃ i, (ofSource .rust source.toList).ReadsRecord i o ∧ (i < start ∨ stop ≤ i)
  interface : ∀ t ∈ RpcInterface.readAll options source,
    ∃ i, (ofSource .rust source.toList).ReadsInterface options i t ∧ (i < start ∨ stop ≤ i)

/-- No declaration is read in a hidden text. -/
theorem readsOutside_of_mask (options : InterfaceOptions) {source : String} {x t y : List Char}
    (h : mask .rust source.toList = x ++ (t.flatMap Glyph.blank ++ y)) :
    ReadsOutside options source (Text.byteLength x) (Text.byteLength (x ++ t)) where
  record o ho := by
    obtain ⟨i, hi⟩ := mem_recordsFrom (fun j hj => (mem_wordStarts.1 hj).2) ho
    exact ⟨i, hi, outside_of_wordAt (b := 's'.toUInt8) h hi.1 rfl (by decide)⟩
  interface t ht := by
    obtain ⟨i, hi⟩ := mem_interfacesFrom (fun j hj => (mem_wordStarts.1 hj).2) ht
    exact ⟨i, hi, outside_of_wordAt (b := 't'.toUInt8) h hi.1 rfl (by decide)⟩

/-- What is hidden of a comment between two texts: everything up to its first closer. The rest of the
comment and the text behind it are masked on their own. -/
structure HidesUpToCloser (options : InterfaceOptions) (before inner after body rest : List Char) :
    Prop where
  inner_eq : inner = body ++ '*' :: '/' :: rest
  first : ¬['*', '/'] <:+: body
  /-- That is the whole comment exactly when it holds no other one. -/
  whole_iff : rest = [] ↔ ¬['/', '*'] <:+: inner
  mask_eq : mask .rust (before ++ '/' :: '*' :: (inner ++ after)) =
    shownBefore .rust (.code .fresh) before ('/' :: '*' :: (inner ++ after)) ++
      (('/' :: '*' :: (body ++ ['*', '/'])).flatMap Glyph.blank ++ mask .rust (rest ++ after))
  outside : ReadsOutside options (.ofList (before ++ '/' :: '*' :: (inner ++ after)))
    (Text.byteLength before) (Text.byteLength (before ++ '/' :: '*' :: (body ++ ['*', '/'])))

/-- A block comment in code is hidden up to its first closer, and no declaration is read there. -/
theorem comment_hides_declarations (options : InterfaceOptions) {before inner after : List Char}
    {w : WordState}
    (hcode : modeBehind .rust (.code .fresh) before ('/' :: '*' :: (inner ++ after)) = .code w)
    (hcomment : closesComments 1 inner = true) :
    ∃ body rest, HidesUpToCloser options before inner after body rest := by
  obtain ⟨body, rest, rfl, hbody⟩ := exists_first_closer (infix_of_closesComments hcomment)
  have hinner : body ++ '*' :: '/' :: rest ++ after = body ++ '*' :: '/' :: (rest ++ after) := by
    rw [List.append_assoc]
    rfl
  rw [hinner] at hcode
  have hmask := mask_blockComment hcode hbody
  have houtside : ReadsOutside options
      (.ofList (before ++ '/' :: '*' :: (body ++ '*' :: '/' :: (rest ++ after)))) _ _ :=
    readsOutside_of_mask options (by rw [String.toList_ofList]; exact hmask)
  rw [Text.byteLength_append, byteLength_shownBefore (List.cons_ne_nil _ _),
    ← Text.byteLength_append] at houtside
  exact ⟨body, rest, rfl, hbody, closes_first_iff hbody hcomment, by rw [hinner]; exact hmask,
    by rw [hinner]; exact houtside⟩

/-- A struct and a trait in a comment, the trait in a comment of its own, between two structs. -/
theorem comment_hides_declarations_nested :
    modeBehind .rust (.code .fresh) "struct U; ".toList
        ('/' :: '*' :: (" struct V; /* trait T \x7b\x7d */ x */".toList ++ "\nstruct W;".toList)) =
      .code .fresh ∧
    closesComments 1 " struct V; /* trait T \x7b\x7d */ x */".toList = true ∧
    ∃ body rest, HidesUpToCloser ⟨none, []⟩ "struct U; ".toList
      " struct V; /* trait T \x7b\x7d */ x */".toList "\nstruct W;".toList body rest := by
  have hcode : modeBehind .rust (.code .fresh) "struct U; ".toList
      ('/' :: '*' :: (" struct V; /* trait T \x7b\x7d */ x */".toList ++ "\nstruct W;".toList)) =
    .code .fresh := by decide +kernel
  have hcomment : closesComments 1 " struct V; /* trait T \x7b\x7d */ x */".toList = true := by
    decide +kernel
  exact ⟨hcode, hcomment, comment_hides_declarations ⟨none, []⟩ hcode hcomment⟩

/-- A comment that holds another one is not hidden as a whole: a struct behind the inner one is read,
although the comment that it stands in goes on. -/
theorem record_in_comment :
    closesComments 1 "\n/* */\npub struct A \x7b pub a: u8 \x7d\n*/".toList = true ∧
      Record.readAll "/*\n/* */\npub struct A \x7b pub a: u8 \x7d\n*/" =
        [.found ⟨"A", [], [⟨"a", .scalar "u8", [], none⟩]⟩] := by
  constructor <;> decide +kernel

end Schema

end RpcBindings
