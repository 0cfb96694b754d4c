import RpcBindings.Proofs.Masked.Decoration
import RpcBindings.Proofs.Masked.Lookahead
import RpcBindings.Proofs.Masked.Splitting
import RpcBindings.Proofs.Rust.Comment
import RpcBindings.Proofs.Schema.Interface
import RpcBindings.Proofs.Text.Reindent

/-!
Comments above a method.

The text of a member begins where the member before it ends, in the middle of a line, so several groups
of comment lines may stand above the line of its first token. Main statement: a method has the group that
stands first, and that is the one directly above the method exactly when those lines stand first, as
they do where only empty lines stand above them (`RpcInterface.docComment?_own_iff`). A comment of a
section above the method, or one behind the member before it, is taken instead
(`RpcInterface.foreign_comment_taken`).
-/

namespace RpcBindings

open Masked Rust.Lexer

/-! ## Groups of comment lines -/

theorem takeWhile_append_of_stops {α : Type} {p : α → Bool} {as bs : List α}
    (h : (∃ a ∈ as, p a = false) ∨ ∀ b ∈ bs.head?, p b = false) :
    (as ++ bs).takeWhile p = as.takeWhile p := by
  induction as with
  | nil =>
    rcases h with ⟨a, ha, -⟩ | h
    · exact absurd ha List.not_mem_nil
    · cases bs with
      | nil => rfl
      | cons b bs => exact List.takeWhile_cons_of_neg (by rw [h b rfl]; exact Bool.false_ne_true)
  | cons a as ih =>
    rw [List.cons_append, List.takeWhile_cons, List.takeWhile_cons]
    cases ha : p a with
    | false => rfl
    | true =>
      refine congrArg (a :: ·) (ih (h.imp_left ?_))
      rintro ⟨b, hb, hstop⟩
      rcases List.mem_cons.1 hb with rfl | hb
      · exact absurd (ha.symm.trans hstop) (by decide)
      · exact ⟨b, hb, hstop⟩

/-- The first group of comment lines among some lines, when only empty lines stand before it. -/
def firstComments (ls : List (List Char)) : List (List Char) :=
  (ls.dropWhile List.isEmpty).takeWhile Text.isComment

/-- Behind a line that is neither empty nor a comment no group is the first. -/
theorem firstComments_append {a b : List (List Char)}
    (h : (∃ l ∈ a, isRemark l = false) ∨ ∃ l ls, b = l :: ls ∧ isRemark l = false) :
    firstComments (a ++ b) = firstComments a := by
  have hplain {l : List Char} (hl : isRemark l = false) :
      l.isEmpty = false ∧ Text.isComment l = false := Bool.or_eq_false_iff.1 hl
  have hhead (hb : ∃ l ls, b = l :: ls ∧ isRemark l = false) :
      b.dropWhile List.isEmpty = b ∧ ∀ l ∈ b.head?, Text.isComment l = false := by
    obtain ⟨l, ls, rfl, hl⟩ := hb
    refine ⟨List.dropWhile_cons_of_neg (by simp [hplain hl]), fun l' hl' => ?_⟩
    obtain rfl := Option.some.inj hl'
    exact (hplain hl).2
  unfold firstComments
  induction a with
  | nil =>
    rcases h with ⟨l, hl, -⟩ | hb
    · exact absurd hl List.not_mem_nil
    · rw [List.nil_append, (hhead hb).1]
      exact @takeWhile_append_of_stops _ _ [] b (.inr (hhead hb).2)
  | cons l a ih =>
    rw [List.cons_append, List.dropWhile_cons, List.dropWhile_cons]
    cases hl : l.isEmpty with
    | true =>
      refine ih (h.imp_left ?_)
      rintro ⟨x, hx, hstop⟩
      rcases List.mem_cons.1 hx with rfl | hx
      · exact absurd (hl.symm.trans (hplain hstop).1) (by decide)
      · exact ⟨x, hx, hstop⟩
    | false =>
      exact @takeWhile_append_of_stops _ _ (l :: a) b (h.imp
        (fun ⟨x, hx, hstop⟩ => ⟨x, hx, (hplain hstop).2⟩) fun hb => (hhead hb).2)

/-- A group of comment lines stands first among some lines: only empty lines stand before it, and no
other comment line directly behind it. An empty group stands where the first line is that is not
empty. -/
def IsFirstGroup (group ls : List (List Char)) : Prop :=
  (∀ l ∈ group, Text.isComment l = true) ∧ ∃ n rest, ls = List.replicate n [] ++ (group ++ rest) ∧
    ∀ l ∈ rest.head?, Text.isComment l = false ∧ (group = [] → l ≠ [])

theorem ne_nil_of_isComment {l : List Char} (h : Text.isComment l = true) : l ≠ [] := by
  rintro rfl
  exact absurd h (by decide)

theorem isFirstGroup_firstComments (ls : List (List Char)) : IsFirstGroup (firstComments ls) ls := by
  refine ⟨fun l hl => List.all_eq_true.1 List.all_takeWhile l hl,
    (ls.takeWhile List.isEmpty).length, (ls.dropWhile List.isEmpty).dropWhile Text.isComment, ?_, ?_⟩
  · have hempty : ls.takeWhile List.isEmpty =
        List.replicate (ls.takeWhile List.isEmpty).length [] :=
      List.eq_replicate_iff.2 ⟨rfl, fun l hl =>
        List.isEmpty_iff.1 (List.all_eq_true.1 List.all_takeWhile l hl)⟩
    rw [firstComments, List.takeWhile_append_dropWhile, ← hempty, List.takeWhile_append_dropWhile]
  · intro l hl
    have hcomment := List.head?_dropWhile_not Text.isComment (ls.dropWhile List.isEmpty)
    rw [Option.mem_def.1 hl] at hcomment
    refine ⟨hcomment, fun hnil => ?_⟩
    have hwhole := List.takeWhile_append_dropWhile (p := Text.isComment)
      (l := ls.dropWhile List.isEmpty)
    rw [show (ls.dropWhile List.isEmpty).takeWhile Text.isComment = [] from hnil,
      List.nil_append] at hwhole
    have hempty := List.head?_dropWhile_not List.isEmpty ls
    rw [← hwhole, Option.mem_def.1 hl] at hempty
    rintro rfl
    exact absurd hempty (by decide)

theorem firstComments_eq_of_isFirstGroup {group ls : List (List Char)} (h : IsFirstGroup group ls) :
    firstComments ls = group := by
  obtain ⟨hgroup, n, rest, rfl, hrest⟩ := h
  have hstop : rest.takeWhile Text.isComment = [] := by
    cases rest with
    | nil => rfl
    | cons l rest => exact List.takeWhile_cons_of_neg (by simp [hrest l rfl])
  have hbegins : (group ++ rest).dropWhile List.isEmpty = group ++ rest := by
    cases group with
    | nil =>
      cases rest with
      | nil => rfl
      | cons l rest => exact List.dropWhile_cons_of_neg (by simpa using (hrest l rfl).2 rfl)
    | cons l group =>
      exact List.dropWhile_cons_of_neg
        (by simpa using ne_nil_of_isComment (hgroup l List.mem_cons_self))
  unfold firstComments
  rw [List.dropWhile_append_of_pos fun l hl => by rw [List.eq_of_mem_replicate hl]; rfl, hbegins,
    List.takeWhile_append_of_pos hgroup, hstop, List.append_nil]

theorem firstComments_eq_iff {group ls : List (List Char)} :
    firstComments ls = group ↔ IsFirstGroup group ls :=
  ⟨fun h => h ▸ isFirstGroup_firstComments ls, firstComments_eq_of_isFirstGroup⟩

/-- A comment of some lines, if there are any. -/
def joined? (ls : List (List Char)) : Option String :=
  match ls with
  | [] => none
  | ls => some (.ofList (Text.joinLines ls))

/-- A comment line as it is kept: without a line feed, and without blanks at its end. -/
def IsKeptLine (l : List Char) : Prop :=
  Text.isComment l = true ∧ '\n' ∉ l ∧ Text.EndsInInk l

/-- Different lines make different comments. -/
theorem joined?_inj {a b : List (List Char)} (ha : ∀ l ∈ a, IsKeptLine l)
    (hb : ∀ l ∈ b, IsKeptLine l) : joined? a = joined? b ↔ a = b := by
  have hlines {ls : List (List Char)} (h : ∀ l ∈ ls, IsKeptLine l) :
      Text.lines (Text.joinLines ls) = ls :=
    Text.lines_joinLines (fun l hl => (h l hl).2.1) (fun l hl => (h l hl).2.2) fun l hl =>
      ne_nil_of_isComment (h l (List.mem_of_getLast? hl)).1
  refine ⟨fun h => ?_, congrArg joined?⟩
  cases a with
  | nil =>
    cases b with
    | nil => rfl
    | cons l b => exact absurd h nofun
  | cons l a =>
    cases b with
    | nil => exact absurd h nofun
    | cons l' b =>
      rw [← hlines ha, ← hlines hb, String.ofList_injective (Option.some.inj h)]

/-! ## Lines above a member -/

namespace RpcMethod

/-- The text of a member before its first token. -/
def leadText (text : List Char) : List Char :=
  text.rdrop (afterComments (dropMark text)).length

/-- The lines above the one of a member's first token, without the blanks around them. The first of
them is the rest of a line on which something else stands. -/
def linesAbove (text : List Char) : List (List Char) :=
  (Text.lines ((leadText text).rdropWhile (· != '\n'))).map Text.trim

/-- The lines of comment directly above a member. -/
def ownComments (text : List Char) : List (List Char) :=
  (linesAbove text).tail.rtakeWhile Text.isComment

variable {text : List Char}

theorem leadText_append (text : List Char) :
    leadText text ++ afterComments (dropMark text) = text := by
  obtain ⟨lead, hlead⟩ := (afterComments_suffix (dropMark text)).trans (dropMark_suffix text)
  have hdrop : (lead ++ afterComments (dropMark text)).rdrop (afterComments (dropMark text)).length =
      lead := List.rdrop_append_length
  rw [hlead] at hdrop
  rw [leadText, hdrop, hlead]

/-- A text that begins with a byte order mark does not begin as a comment. -/
theorem exists_first_line_mark (cs : List Char) :
    ∃ line ls, Text.lines ('\ufeff' :: cs) = line :: ls ∧ isRemark (Text.trim line) = false := by
  have htrim (a : List Char) : isRemark (Text.trim ('\ufeff' :: a)) = false := by
    have hstart : Text.trimStart ('\ufeff' :: a) = '\ufeff' :: a :=
      List.dropWhile_cons_of_neg (by decide)
    rw [Text.trim, hstart, Text.trimEnd_cons (by decide)]
    rfl
  by_cases hmem : '\n' ∈ cs
  · obtain ⟨a, b, rfl, ha⟩ := List.eq_append_cons_of_mem hmem
    have ha : '\n' ∉ '\ufeff' :: a := by simp [ha]
    refine ⟨Text.endLine ('\ufeff' :: a).reverse, Text.lines b, ?_, ?_⟩
    · have := Text.linesAux_newline ha [] b
      rwa [List.append_nil] at this
    · rw [Text.trim_endLine, List.reverse_reverse]
      exact htrim a
  · refine ⟨'\ufeff' :: cs, [], ?_, htrim cs⟩
    rw [Text.lines, Text.linesAux_of_not_mem (by simp [hmem])]
    rfl

theorem getLast?_rdropWhile (t : List Char) :
    ∀ c ∈ (t.rdropWhile (· != '\n')).getLast?, c = '\n' := by
  intro c hc
  have hne : t.rdropWhile (· != '\n') ≠ [] := by
    rintro h
    rw [h] at hc
    exact absurd hc nofun
  have hlast := List.rdropWhile_last_not (· != '\n') t hne
  rw [List.getLast?_eq_some_getLast hne] at hc
  obtain rfl := Option.some.inj hc
  simpa using hlast

theorem dropMark_cases (text : List Char) :
    dropMark text = text ∨ ∃ cs, text = '\ufeff' :: cs := by
  unfold dropMark
  split
  · exact .inr ⟨_, rfl⟩
  · exact .inl rfl

/-- Above the first token of a member or on its line stands a line that is neither empty nor begins as
a comment. -/
theorem exists_plain_line {whole margin decl : List Char} (htext : text = whole ++ (margin ++ decl))
    (hwhole : ∀ c ∈ whole.getLast?, c = '\n') (hmargin : '\n' ∉ margin)
    (hdecl : decl = afterComments (dropMark text)) (hne : decl ≠ []) :
    (∃ l ∈ (Text.lines whole).map Text.trim, isRemark l = false) ∨
      ∃ l ls, (Text.lines (margin ++ decl)).map Text.trim = l :: ls ∧ isRemark l = false := by
  rcases dropMark_cases text with hmark | ⟨cs, hmark⟩
  · by_cases hremark : ∀ line ∈ Text.lines whole, isRemark (Text.trim line) = true
    · have hskip : decl = afterComments (margin ++ decl) := by
        rwa [hmark, htext, afterComments_lines hwhole hremark] at hdecl
      obtain ⟨line, ls, hlines, hline⟩ :=
        exists_first_line (congrArg (margin ++ ·) hskip) hmargin (hskip ▸ hne)
      exact .inr ⟨_, ls.map Text.trim, by rw [hlines, List.map_cons], hline⟩
    · obtain ⟨line, hline⟩ := not_forall.1 hremark
      obtain ⟨hmem, hplain⟩ := Classical.not_imp.1 hline
      exact .inl ⟨_, List.mem_map_of_mem hmem, Bool.eq_false_iff.2 hplain⟩
  · rw [hmark] at htext
    cases whole with
    | nil =>
      obtain ⟨line, ls, hlines, hline⟩ := exists_first_line_mark cs
      rw [htext, List.nil_append] at hlines
      exact .inr ⟨_, ls.map Text.trim, by rw [hlines, List.map_cons], hline⟩
    | cons c whole =>
      obtain ⟨rfl, -⟩ := List.cons.inj htext
      obtain ⟨line, ls, hlines, hline⟩ := exists_first_line_mark whole
      exact .inl ⟨_, List.mem_map_of_mem (hlines ▸ List.mem_cons_self), hline⟩

/-- The comment of a member is read off the lines above the one of its first token. -/
theorem leadingComment?_eq (h : afterComments (dropMark text) ≠ []) :
    leadingComment? text = joined? (firstComments (linesAbove text)) := by
  have hmargin : '\n' ∉ (leadText text).rtakeWhile (· != '\n') := fun hmem =>
    absurd (List.mem_rtakeWhile_imp hmem) (by decide)
  have htext : text = (leadText text).rdropWhile (· != '\n') ++
      ((leadText text).rtakeWhile (· != '\n') ++ afterComments (dropMark text)) := by
    rw [← List.append_assoc, List.rdropWhile_append_rtakeWhile, leadText_append]
  have hlines : (Text.lines text).map Text.trim = linesAbove text ++
      (Text.lines ((leadText text).rtakeWhile (· != '\n') ++
        afterComments (dropMark text))).map Text.trim := by
    rw [linesAbove, ← List.map_append, ← Text.lines_append (getLast?_rdropWhile _), ← htext]
  have hfirst : firstComments ((Text.lines text).map Text.trim) = firstComments (linesAbove text) := by
    rw [hlines]
    exact firstComments_append (exists_plain_line htext (getLast?_rdropWhile _) hmargin rfl h)
  exact congrArg joined? hfirst

theorem isKeptLine_of_mem_linesAbove {l : List Char} (hl : l ∈ linesAbove text)
    (hcomment : Text.isComment l = true) : IsKeptLine l := by
  obtain ⟨line, hline, rfl⟩ := List.mem_map.1 hl
  exact ⟨hcomment, fun hmem => Text.not_mem_lines hline (Text.mem_of_mem_trim hmem),
    Text.endsInInk_trimEnd _⟩

theorem isKeptLine_of_mem_firstComments {l : List Char} (hl : l ∈ firstComments (linesAbove text)) :
    IsKeptLine l :=
  isKeptLine_of_mem_linesAbove
    ((List.dropWhile_sublist _).subset ((List.takeWhile_sublist _).subset hl))
    (List.all_eq_true.1 List.all_takeWhile l hl)

theorem isKeptLine_of_mem_ownComments {l : List Char} (hl : l ∈ ownComments text) : IsKeptLine l :=
  isKeptLine_of_mem_linesAbove
    ((List.tail_sublist _).subset ((List.rtakeWhile_suffix _ _).subset hl))
    (List.mem_rtakeWhile_imp hl)

/-- A member that is read is not made of comments. -/
theorem afterComments_ne_nil {options : InterfaceOptions} {nspace : String} {m : RpcMethod}
    (h : ofText options nspace text = .found m) : afterComments (dropMark text) ≠ [] := by
  intro hnil
  have hread : Rust.TraitMember.ofText? (.ofList text) = none :=
    Rust.TraitMember.ofText?_of_comments (by rw [String.toList_ofList, hnil])
  obtain ⟨t, ht, -⟩ := ofText_eq_found h
  rw [hread] at ht
  exact absurd ht nofun

/-- How the comment of a method stands to the lines above its member. -/
structure CommentRead (text : List Char) (comment? : Option String) : Prop where
  /-- It is the group of comment lines that stands first. -/
  first : ∃ group, IsFirstGroup group (linesAbove text) ∧ comment? = joined? group
  /-- It is the group directly above the member exactly when these lines stand first. -/
  own_iff : comment? = joined? (ownComments text) ↔ IsFirstGroup (ownComments text) (linesAbove text)
  /-- So it is where only empty lines stand above that group. -/
  own : ∀ n, linesAbove text = List.replicate n [] ++ ownComments text →
    comment? = joined? (ownComments text)

theorem commentRead {options : InterfaceOptions} {nspace : String} {m : RpcMethod}
    (h : ofText options nspace text = .found m) : CommentRead text m.docComment? := by
  have hfirst : m.docComment? = joined? (firstComments (linesAbove text)) :=
    (docComment?_of_ofText h).trans (leadingComment?_eq (afterComments_ne_nil h))
  have hiff : m.docComment? = joined? (ownComments text) ↔
      IsFirstGroup (ownComments text) (linesAbove text) := by
    rw [hfirst, ← firstComments_eq_iff]
    exact joined?_inj (fun l => isKeptLine_of_mem_firstComments)
      fun l => isKeptLine_of_mem_ownComments
  refine ⟨⟨_, isFirstGroup_firstComments _, hfirst⟩, hiff, fun n habove => hiff.2 ?_⟩
  exact ⟨fun l hl => List.mem_rtakeWhile_imp hl, n, [], by rw [List.append_nil, habove], nofun⟩

end RpcMethod

/-! ## Where members begin -/

namespace Masked

theorem eq_of_endsStatement {depth : Nat} {b : UInt8} (h : endsStatement depth b = true) :
    ∃ c, isStatementEnd c = true ∧ b = c.toUInt8 := by
  unfold endsStatement at h
  simp only [Bool.or_eq_true, Bool.and_eq_true, decide_eq_true_eq] at h
  rcases h with ⟨hb, -⟩ | ⟨hb, -⟩
  · exact ⟨';', rfl, hb⟩
  · exact ⟨'\x7d', rfl, hb⟩

/-- In the source a brace or a semicolon stands directly before an offset. -/
def FollowsMember (m : Masked) (i : Nat) : Prop :=
  ∃ k, i = k + 1 ∧ ∃ c ∈ ['{', '\x7d', ';'], m.slice k i = [c]

end Masked

namespace RpcInterface

/-- The members of an interface are read from the statements of its body, each of which begins behind a
brace or a semicolon. -/
theorem exists_statements {options : InterfaceOptions} {source : String} {i : RpcInterface}
    (hi : i ∈ readAll options source) :
    ∃ opened closed, (ofSource .rust source.toList).closer? opened = some closed ∧
      i.members = ((ofSource .rust source.toList).memberTexts (opened + 1) closed).map
        (RpcMethod.ofText options i.nspace) ∧
      ∀ s ∈ (ofSource .rust source.toList).splitStatements (opened + 1) closed,
        (ofSource .rust source.toList).FollowsMember s.start := by
  obtain ⟨_, -, name, opened, closed, -, hopened, hclosed, rfl⟩ :=
    mem_interfacesFrom (fun j hj => (mem_wordStarts.1 hj).2) hi
  have hfollows {k : Nat} {c : Char} (hc : c ∈ ['{', '\x7d', ';'])
      (hchar : (ofSource .rust source.toList).hasChar k c = true) :
      (ofSource .rust source.toList).FollowsMember (k + 1) := by
    have hnarrow : c.utf8Size = 1 ∧ c ≠ ' ' := by
      simp only [List.mem_cons, List.not_mem_nil, or_false] at hc
      rcases hc with rfl | rfl | rfl <;> decide
    exact ⟨k, rfl, c, hc, slice_of_hasChar hchar hnarrow.1 hnarrow.2⟩
  obtain ⟨hlt, hsize⟩ := lt_of_closer? hclosed
  have hstarts := (laidOut_splitStatements hlt (Nat.le_of_lt hsize)).forall_ends
    (P := (ofSource .rust source.toList).FollowsMember) (Q := fun _ => True) (fun _ t _ hend => ?_)
    (hfollows List.mem_cons_self (hasChar_of_findTopLevel? hopened)) trivial
  · exact ⟨opened, closed, hclosed, rfl, fun s hs => (hstarts s hs).1⟩
  · obtain ⟨b, hb, hends⟩ := hend
    obtain ⟨c, hc, rfl⟩ := eq_of_endsStatement hends
    refine ⟨trivial, hfollows ?_ (hasChar_iff.2 hb)⟩
    rcases isStatementEnd_iff.1 hc with rfl | rfl <;> decide

/-- The members of an interface are the statements of its body, which begin behind a brace or a
semicolon, and the comments of its methods are read off the lines above these. -/
def CommentsRead (m : Masked) (options : InterfaceOptions) (i : RpcInterface) : Prop :=
  ∃ opened closed, m.closer? opened = some closed ∧
    i.members = (m.memberTexts (opened + 1) closed).map (RpcMethod.ofText options i.nspace) ∧
    ∀ s ∈ m.splitStatements (opened + 1) closed, m.FollowsMember s.start ∧
      ∀ method, RpcMethod.ofText options i.nspace (m.spanText s) = .found method →
        RpcMethod.CommentRead (m.spanText s) method.docComment?

/-- Every method of an interface has the group of comment lines that stands first above it, what is left
of the line of the member before it included. That is the group directly above the method exactly when
these lines stand first, and so it is where only empty lines stand above them. -/
theorem docComment?_own_iff {options : InterfaceOptions} {source : String} {i : RpcInterface}
    (hi : i ∈ readAll options source) : CommentsRead (ofSource .rust source.toList) options i := by
  obtain ⟨opened, closed, hclosed, hmembers, hfollows⟩ := exists_statements hi
  exact ⟨opened, closed, hclosed, hmembers, fun s hs =>
    ⟨hfollows s hs, fun method hmethod => RpcMethod.commentRead hmethod⟩⟩

/-- A trait with some members. -/
def commentedTrait (members : List String) : String :=
  "trait T \x7b" ++ String.join members ++ "\n\x7d\n"

/-- A trait with one method and a comment above it. -/
def documentedTrait : String :=
  commentedTrait
    ["\n\n    // one\n    /// two\n    #[rpc(name = \"a\")]\n    fn a(&self) -> u8;"]

theorem docComment?_own_documented : ∃ i ∈ readAll ⟨none, []⟩ documentedTrait,
    i.members = [.found ⟨some "// one\n/// two", "a", "a", "A", [], .scalar "u8"⟩] ∧
      CommentsRead (ofSource .rust documentedTrait.toList) ⟨none, []⟩ i := by
  have hread : (readAll ⟨none, []⟩ documentedTrait).map (·.members) =
      [[.found ⟨some "// one\n/// two", "a", "a", "A", [], .scalar "u8"⟩]] := by decide +kernel
  obtain ⟨i, later, hreadAll, hi, -⟩ := List.map_eq_cons_iff.1 hread
  have hmem : i ∈ readAll ⟨none, []⟩ documentedTrait := hreadAll ▸ List.mem_cons_self
  exact ⟨i, hmem, hi, docComment?_own_iff hmem⟩

/-- A method below a comment of its section. -/
def sectionMember : String :=
  "\n    // --- section ---\n\n    /// Doc.\n    #[rpc(name = \"a\")]\n    fn a(&self) -> u8;"

/-- A method, and one behind a comment on the line of the first. -/
def trailedMembers : List String :=
  ["\n    #[rpc(name = \"a\")]\n    fn a(&self) -> u8;",
    " // about a\n    #[rpc(name = \"b\")]\n    fn b(&self) -> u8;"]

/-- The comment of the section is taken instead of the method's own, and the comment on the line of one
method is taken for the other, which has none. -/
theorem foreign_comment_taken :
    (ofSource .rust (commentedTrait [sectionMember]).toList).memberTexts 9 93 =
        [sectionMember.toList] ∧
      RpcMethod.ownComments sectionMember.toList = ["/// Doc.".toList] ∧
      (readAll ⟨none, []⟩ (commentedTrait [sectionMember])).map (·.members) =
        [[.found ⟨some "// --- section ---", "a", "a", "A", [], .scalar "u8"⟩]] ∧
    (ofSource .rust (commentedTrait trailedMembers).toList).memberTexts 9 113 =
        trailedMembers.map (·.toList) ∧
      trailedMembers.map (RpcMethod.ownComments ·.toList) = [[], []] ∧
      (readAll ⟨none, []⟩ (commentedTrait trailedMembers)).map (·.members) =
        [[.found ⟨none, "a", "a", "A", [], .scalar "u8"⟩,
          .found ⟨some "// about a", "b", "b", "B", [], .scalar "u8"⟩]] := by
  refine ⟨?_, ?_, ?_, ?_, ?_, ?_⟩ <;> decide +kernel

end RpcInterface

end RpcBindings
