import RpcBindings.Proofs.Rust.TypeName
import RpcBindings.Proofs.Text.Content

/-!
Comments before Rust tokens.

What a text begins with besides tokens are blanks and comments. Documentation is among the comments
here, although it is read as attributes, and comments nest as they are read. Main statements: lines that
are empty or begin as a comment does are passed over whole (`afterComments_line`), and a text of blanks
and comments is no member of a trait (`TraitMember.ofText?_of_comments`).
-/

namespace RpcBindings.Rust

open Text

namespace Lexer

/-! ## One comment -/

/-- What follows the blank or the comment that a text begins with. -/
def afterComment? : List Char → Option (List Char)
  | [] => none
  | c :: rest =>
    match plainComment? (c :: rest) with
    | some after => some after
    | none => if isSpace c then some rest else (docComment? (c :: rest)).map (·.2.2)

variable {c : Char} {cs rest after line : List Char}

theorem suffix_of_blockEnd? {depth : Nat} (h : blockEnd? depth cs = some after) : after <:+ cs := by
  fun_induction blockEnd? depth cs with
  | case1 depth cs ih => exact (ih h).trans (List.suffix_append ['/', '*'] cs)
  | case2 depth cs hdepth =>
    obtain rfl := Option.some.inj h
    exact List.suffix_append ['*', '/'] cs
  | case3 depth cs hdepth ih => exact (ih h).trans (List.suffix_append ['*', '/'] cs)
  | case4 depth c cs hopen hclose ih => exact (ih h).trans (List.suffix_cons c cs)
  | case5 => exact absurd h (by simp)

theorem suffix_of_plainComment? (h : plainComment? (c :: rest) = some after) : after <:+ rest := by
  unfold plainComment? at h
  split at h
  · rename_i body hbody
    obtain ⟨rfl, rfl⟩ := List.cons.inj hbody
    have hline (h : some (body.dropWhile (· != '\n')) = some after) : after <:+ '/' :: body :=
      Option.some.inj h ▸ (List.dropWhile_suffix _).trans (List.suffix_cons '/' body)
    split at h
    · exact absurd h nofun
    · exact hline h
    · exact absurd h nofun
    · exact hline h
  · rename_i body hbody
    obtain ⟨rfl, rfl⟩ := List.cons.inj hbody
    split at h
    · exact absurd h nofun
    · rename_i more
      obtain rfl := Option.some.inj h
      exact List.suffix_append ['*', '*', '/'] _
    · exact (suffix_of_blockEnd? h).trans (List.suffix_cons '*' _)
    · exact absurd h nofun
    · exact (suffix_of_blockEnd? h).trans (List.suffix_cons '*' _)
  · exact absurd h nofun

theorem lineText_snd (cs : List Char) : (lineText cs).2 = cs.dropWhile (· != '\n') := by
  unfold lineText
  cases cs.dropWhile (· != '\n') <;> rfl

theorem suffix_of_docComment? {doc : Bool × List Char × List Char}
    (h : docComment? (c :: rest) = some doc) : doc.2.2 <:+ rest := by
  have hline {body : List Char} {inner : Bool} (hbody : body <:+ rest)
      (h : some (inner, (lineText body).1, (lineText body).2) = some doc) : doc.2.2 <:+ rest := by
    rw [← Option.some.inj h]
    exact (lineText_snd body ▸ List.dropWhile_suffix _).trans hbody
  unfold docComment? at h
  extract_lets block at h
  have hblock {body : List Char} {inner : Bool} (hbody : body <:+ rest)
      (h : block inner body = some doc) : doc.2.2 <:+ rest := by
    obtain ⟨after, hafter, rfl⟩ := Option.map_eq_some_iff.1 h
    exact (suffix_of_blockEnd? hafter).trans hbody
  split at h
  · obtain ⟨-, rfl⟩ := List.cons.inj ‹_›
    exact hline (List.suffix_append ['/', '!'] _) h
  · obtain ⟨-, rfl⟩ := List.cons.inj ‹_›
    exact hblock (List.suffix_append ['*'] _) h
  · exact absurd h nofun
  · obtain ⟨-, rfl⟩ := List.cons.inj ‹_›
    exact hline (List.suffix_append ['/', '/'] _) h
  · exact absurd h nofun
  · obtain ⟨-, rfl⟩ := List.cons.inj ‹_›
    exact hblock (List.suffix_append ['*'] _) h
  · exact absurd h nofun

theorem suffix_of_afterComment? (h : afterComment? (c :: rest) = some after) : after <:+ rest := by
  rw [afterComment?] at h
  split at h
  · obtain rfl := Option.some.inj h
    exact suffix_of_plainComment? ‹_›
  · split at h
    · obtain rfl := Option.some.inj h
      exact List.suffix_refl _
    · obtain ⟨doc, hdoc, rfl⟩ := Option.map_eq_some_iff.1 h
      exact suffix_of_docComment? hdoc

theorem length_lt_of_afterComment? (h : afterComment? cs = some after) :
    after.length < cs.length := by
  cases cs with
  | nil => exact absurd h nofun
  | cons c rest => exact Nat.lt_succ_of_le (suffix_of_afterComment? h).length_le

/-! ## All comments -/

/-- A text without the blanks and comments at its start, of which at most so many are taken away. -/
def dropComments : Nat → List Char → List Char
  | 0, cs => cs
  | fuel + 1, cs =>
    match afterComment? cs with
    | none => cs
    | some after => dropComments fuel after

/-- A text from its first token on, documentation aside. -/
def afterComments (cs : List Char) : List Char :=
  dropComments cs.length cs

theorem dropComments_eq {fuel more : Nat} (hfuel : cs.length ≤ fuel) (hmore : cs.length ≤ more) :
    dropComments fuel cs = dropComments more cs := by
  induction fuel generalizing more cs with
  | zero =>
    obtain rfl := List.length_eq_zero_iff.1 (Nat.le_zero.1 hfuel)
    cases more <;> rfl
  | succ fuel ih =>
    cases more with
    | zero =>
      obtain rfl := List.length_eq_zero_iff.1 (Nat.le_zero.1 hmore)
      rfl
    | succ more =>
      unfold dropComments
      cases hafter : afterComment? cs with
      | none => rfl
      | some after =>
        have := length_lt_of_afterComment? hafter
        exact ih (by omega) (by omega)

theorem afterComments_of_eq_none (h : afterComment? cs = none) : afterComments cs = cs := by
  unfold afterComments
  cases hlength : cs.length with
  | zero => rfl
  | succ n => rw [dropComments, h]

/-- Blanks and comments are passed over one by one. -/
theorem afterComments_of_eq_some (h : afterComment? cs = some after) :
    afterComments cs = afterComments after := by
  have hlt := length_lt_of_afterComment? h
  obtain ⟨n, hn⟩ := Nat.exists_eq_add_of_lt hlt
  have hsteps : dropComments cs.length cs = dropComments (after.length + n) after := by
    rw [hn, dropComments, h]
  exact hsteps.trans (dropComments_eq (by omega) (Nat.le_refl _))

theorem afterComments_suffix (cs : List Char) : afterComments cs <:+ cs := by
  induction hlength : cs.length using Nat.strongRecOn generalizing cs with
  | ind n ih =>
    cases hafter : afterComment? cs with
    | none => exact ⟨[], afterComments_of_eq_none hafter⟩
    | some after =>
      rw [afterComments_of_eq_some hafter]
      refine (ih _ (hlength ▸ length_lt_of_afterComment? hafter) after rfl).trans ?_
      cases cs with
      | nil => exact absurd hafter nofun
      | cons c rest => exact (suffix_of_afterComment? hafter).trans (List.suffix_cons c rest)

theorem dropMark_suffix (text : List Char) : dropMark text <:+ text := by
  unfold dropMark
  split
  · exact List.suffix_cons _ _
  · exact List.suffix_rfl

/-! ## Lines of comment -/

theorem afterComments_blank_cons (h : isBlank c = true) (cs : List Char) :
    afterComments (c :: cs) = afterComments cs := by
  have hplain : plainComment? (c :: cs) = none := by
    have hslash : c ≠ '/' := by
      rintro rfl
      exact absurd h (by decide)
    unfold plainComment?
    split
    · exact absurd (List.cons.inj ‹_›).1 hslash
    · exact absurd (List.cons.inj ‹_›).1 hslash
    · rfl
  refine afterComments_of_eq_some ?_
  rw [afterComment?, hplain, isSpace, h]
  rfl

theorem afterComments_blanks {blanks : List Char} (h : allBlank blanks = true) (cs : List Char) :
    afterComments (blanks ++ cs) = afterComments cs := by
  induction blanks with
  | nil => rfl
  | cons c blanks ih =>
    obtain ⟨hc, hblanks⟩ := Bool.and_eq_true_iff.1 h
    exact (afterComments_blank_cons hc _).trans (ih hblanks)

/-- What begins with two slashes is a comment up to the end of its line. -/
theorem afterComment?_slashes (body : List Char) :
    afterComment? ('/' :: '/' :: body) = some (body.dropWhile (· != '\n')) := by
  have hdoc (inner : Bool) (more : List Char) (hplain : plainComment? ('/' :: '/' :: body) = none)
      (hread : docComment? ('/' :: '/' :: body) = some (inner, lineText more))
      (hmore : body.dropWhile (· != '\n') = more.dropWhile (· != '\n')) :
      afterComment? ('/' :: '/' :: body) = some (body.dropWhile (· != '\n')) := by
    rw [afterComment?, hplain, hread, hmore, ← lineText_snd]
    rfl
  cases body with
  | nil => rfl
  | cons c more =>
    by_cases hbang : c = '!'
    · subst hbang
      exact hdoc true more rfl rfl rfl
    · by_cases hslash : c = '/'
      · subst hslash
        cases more with
        | nil => exact hdoc false [] rfl rfl rfl
        | cons d more =>
          by_cases hslash : d = '/'
          · subst hslash
            rfl
          · refine hdoc false (d :: more) ?_ ?_ rfl
            · simp [plainComment?, hslash]
            · simp [docComment?, hslash]
      · have hplain : plainComment? ('/' :: '/' :: c :: more) =
            some ((c :: more).dropWhile (· != '\n')) := by
          simp [plainComment?, hbang, hslash]
        rw [afterComment?, hplain]

/-- A line, once the blanks around it are gone, that is empty or begins as a comment. -/
def isRemark (line : List Char) : Bool :=
  line.isEmpty || isComment line

theorem exists_slashes_of_isComment {a : List Char} (h : isComment (trim a) = true) :
    ∃ body, trimStart a = '/' :: '/' :: body := by
  obtain ⟨tail, htail, -⟩ := exists_trimEnd (trimStart a)
  obtain ⟨body, hbody⟩ := List.isPrefixOf_iff_prefix.1 h
  refine ⟨body ++ tail, htail.trans ?_⟩
  rw [show trimEnd (trimStart a) = trim a from rfl, ← hbody]
  rfl

/-- A line that is empty or begins as a comment is passed over. -/
theorem afterComments_line (hremark : isRemark (trim line) = true) (hline : '\n' ∉ line)
    (hrest : ∀ c ∈ rest.head?, c = '\n') : afterComments (line ++ rest) = afterComments rest := by
  obtain ⟨head, hhead, hblank⟩ := exists_trimStart line
  have hskip : afterComments (line ++ rest) = afterComments (trimStart line ++ rest) := by
    rw [hhead, List.append_assoc, afterComments_blanks hblank, ← hhead]
  rw [hskip]
  rcases Bool.or_eq_true_iff.1 hremark with hempty | hcomment
  · have hnil : trimStart line = [] := by
      cases htrim : trimStart line with
      | nil => rfl
      | cons c cs =>
        rw [trim, htrim, trimEnd_cons (not_isBlank_of_trimStart_eq htrim)] at hempty
        exact absurd hempty nofun
    rw [hnil, List.nil_append]
  · obtain ⟨body, hbody⟩ := exists_slashes_of_isComment hcomment
    have hmem : '\n' ∉ body := fun hmem => hline (hhead ▸ List.mem_append_right _
      (hbody ▸ List.mem_cons_of_mem _ (List.mem_cons_of_mem _ hmem)))
    have hdrop : (body ++ rest).dropWhile (· != '\n') = rest := by
      rw [List.dropWhile_append_of_pos fun c hc => bne_iff_ne.2 (ne_of_mem_of_not_mem hc hmem)]
      cases rest with
      | nil => rfl
      | cons c rest => exact List.dropWhile_cons_of_neg (by simp [hrest c rfl])
    rw [hbody]
    exact afterComments_of_eq_some ((afterComment?_slashes (body ++ rest)).trans
      (congrArg some hdrop))

/-- Whole lines that are empty or begin as comments are passed over. -/
theorem afterComments_lines {above : List Char} (habove : ∀ c ∈ above.getLast?, c = '\n')
    (hremark : ∀ line ∈ lines above, isRemark (trim line) = true) (rest : List Char) :
    afterComments (above ++ rest) = afterComments rest := by
  induction above using lines_induction with
  | line a ha =>
    rcases List.eq_nil_or_concat' a with rfl | ⟨a, c, rfl⟩
    · rfl
    · exact absurd (by simp [habove c (by simp)]) ha
  | more a b ha ih =>
    rw [lines, linesAux_newline ha, List.append_nil] at hremark
    have hline := hremark _ List.mem_cons_self
    rw [trim_endLine, List.reverse_reverse] at hline
    have hlater : afterComments (b ++ rest) = afterComments rest :=
      ih (fun c hc => habove c (by
        rw [List.getLast?_append, List.getLast?_cons, Option.mem_def.1 hc]
        rfl))
        fun line hmem => hremark line (List.mem_cons_of_mem _ hmem)
    rw [List.append_assoc, afterComments_line hline ha (by simp), ← hlater]
    exact afterComments_blank_cons isBlank_newline (b ++ rest)

/-- The line on which the first token begins is neither empty nor begins as a comment. -/
theorem exists_first_line {margin : List Char} (hrest : rest = margin ++ afterComments rest)
    (hmargin : '\n' ∉ margin) (hne : afterComments rest ≠ []) :
    ∃ line ls, lines rest = line :: ls ∧ isRemark (trim line) = false := by
  by_cases hmem : '\n' ∈ rest
  · obtain ⟨a, b, hsplit, ha⟩ := List.eq_append_cons_of_mem hmem
    refine ⟨endLine a.reverse, lines b, ?_, ?_⟩
    · rw [hsplit, lines, linesAux_newline ha, List.append_nil]
    · rw [trim_endLine, List.reverse_reverse]
      refine Bool.eq_false_iff.2 fun hremark => ?_
      -- the first token would stand behind the line feed
      have hlater : afterComments rest = afterComments b := by
        rw [hsplit, afterComments_line hremark ha (by simp), afterComments_blank_cons isBlank_newline]
      obtain ⟨front, hfront⟩ := afterComments_suffix b
      have hsame : a ++ '\n' :: front ++ afterComments b = margin ++ afterComments b := by
        rw [← hlater, ← hrest, List.append_assoc, List.cons_append, hlater, hfront, hsplit]
      exact hmargin (List.append_cancel_right hsame ▸ List.mem_append_right a List.mem_cons_self)
  · refine ⟨rest, [], ?_, Bool.eq_false_iff.2 fun hremark => hne ?_⟩
    · have hnil : rest ≠ [] := by
        rintro rfl
        exact hne rfl
      rw [lines, linesAux_of_not_mem hmem, if_neg (by simpa using hnil)]
      rfl
    · have hline := @afterComments_line [] rest hremark hmem (by simp)
      rw [List.append_nil] at hline
      exact hline

/-! ## Texts of comments -/

/-- A step over a blank or a comment leaves the tokens of documentation, if any. -/
theorem afterComment?_of_step? {first : List FlatToken} (h : step? c rest = some (first, after))
    (hcomment : afterComment? (c :: rest) ≠ none) : afterComment? (c :: rest) = some after ∧
      ∃ docs : List (Bool × List Char), first = docs.flatMap fun d => docTokens d.1 d.2 := by
  unfold step? at h
  extract_lets whole at h
  split at h
  · rename_i hplain
    obtain ⟨rfl, rfl⟩ := Prod.mk.inj (Option.some.inj h)
    exact ⟨by rw [afterComment?, hplain], [], rfl⟩
  · rename_i hplain
    have hread : afterComment? (c :: rest) =
        if isSpace c then some rest else (docComment? whole).map (·.2.2) := by
      rw [afterComment?, hplain]
    split at h
    · rename_i hspace
      obtain ⟨rfl, rfl⟩ := Prod.mk.inj (Option.some.inj h)
      exact ⟨hread.trans (if_pos hspace), [], rfl⟩
    · rename_i hspace
      rw [if_neg hspace] at hread
      split at h
      · rename_i inner text stop hdoc
        split at h
        · cases h
        · obtain ⟨rfl, rfl⟩ := Prod.mk.inj (Option.some.inj h)
          exact ⟨by rw [hread, hdoc]; rfl, [(inner, text)], (List.append_nil _).symm⟩
      · rename_i hdoc
        exact absurd (by rw [hread, hdoc]; rfl) hcomment

/-- Where no token is left, all tokens are those of documentation. -/
theorem docTokens_of_flatFrom {fuel : Nat} {ts : List FlatToken} (hcs : afterComments cs = [])
    (h : flatFrom fuel cs = some ts) :
    ∃ docs : List (Bool × List Char), ts = docs.flatMap fun d => docTokens d.1 d.2 := by
  induction fuel generalizing cs ts with
  | zero =>
    cases cs with
    | nil => exact ⟨[], (Option.some.inj h).symm⟩
    | cons c rest => cases h
  | succ fuel ih =>
    cases cs with
    | nil => exact ⟨[], (Option.some.inj h).symm⟩
    | cons c rest =>
      have hcomment : afterComment? (c :: rest) ≠ none := fun hnone =>
        absurd ((afterComments_of_eq_none hnone).symm.trans hcs) (List.cons_ne_nil c rest)
      rw [flatFrom] at h
      cases hstep : step? c rest with
      | none =>
        rw [hstep] at h
        cases h
      | some r =>
        obtain ⟨first, after⟩ := r
        rw [hstep] at h
        obtain ⟨later, hlater, rfl⟩ := Option.map_eq_some_iff.1 h
        obtain ⟨hafter, docs, rfl⟩ := afterComment?_of_step? hstep hcomment
        obtain ⟨more, rfl⟩ := ih ((afterComments_of_eq_some hafter).symm.trans hcs) hlater
        exact ⟨docs ++ more, List.flatMap_append.symm⟩

theorem build?_map_leaf (done ts : List Token) :
    build? [] done (ts.map .leaf) = some (done.reverse ++ ts) := by
  induction ts generalizing done with
  | nil => exact congrArg some (List.append_nil _).symm
  | cons t ts ih =>
    rw [List.map_cons, build?, ih, List.reverse_cons, List.append_assoc]
    rfl

end Lexer

open Lexer

/-- Attributes, up to the first one that belongs to what encloses it. -/
inductive IsAttributes : List Token → Prop where
  | nil : IsAttributes []
  | outer (joint : Bool) (content : List Token) {ts : List Token} (h : IsAttributes ts) :
    IsAttributes (.punct '#' joint :: .group .bracket content :: ts)
  | inner (joint bang : Bool) (ts : List Token) :
    IsAttributes (.punct '#' joint :: .punct '!' bang :: ts)

theorem isAttributes_of_docTokens (docs : List (Bool × List Char)) :
    ∃ ts, (docs.flatMap fun d => docTokens d.1 d.2) = ts.map .leaf ∧ IsAttributes ts := by
  induction docs with
  | nil => exact ⟨[], rfl, .nil⟩
  | cons d docs ih =>
    obtain ⟨ts, hts, hattributes⟩ := ih
    rw [List.flatMap_cons, hts]
    obtain ⟨inner, text⟩ := d
    cases inner with
    | false => exact ⟨.punct '#' false :: .group .bracket _ :: ts, rfl, .outer false _ hattributes⟩
    | true => exact ⟨.punct '#' false :: .punct '!' false :: .group .bracket _ :: ts, rfl,
        .inner false false _⟩

namespace Parser

variable {α : Type} {content : Parser α} {i after : Input}

/-- The step of reading one attribute. -/
def attributeStep (content : Parser α) : Parser (Option α) :=
  whenAt (atPunct "#") (some <$> (do
    let _ ← punct "#"
    group .bracket content)) none

theorem attributeStep_group (joint : Bool) (inner ts : List Token) (stray : Bool) :
    attributeStep content ⟨.punct '#' joint :: .group .bracket inner :: ts, stray⟩ =
      (content ⟨inner, stray⟩).map fun p =>
        (some p.1, ⟨ts, p.2.stray || !p.2.tokens.isEmpty⟩) := by
  show ((content ⟨inner, stray⟩).map _).bind _ = _
  cases content ⟨inner, stray⟩ <;> rfl

/-- Of attributes all are read. -/
theorem repeatFrom_attributeStep {fuel : Nat} {found : List α} (hi : IsAttributes i.tokens)
    (h : repeatFrom (attributeStep content) fuel i = some (found, after)) : after.tokens = [] := by
  induction fuel generalizing i found with
  | zero => cases h
  | succ fuel ih =>
    rw [repeatFrom, bind_apply] at h
    obtain ⟨ts, stray⟩ := i
    cases hi with
    | nil =>
      obtain ⟨-, rfl⟩ := Prod.mk.inj (Option.some.inj h)
      rfl
    | outer joint inner hts =>
      rw [attributeStep_group] at h
      cases hcontent : content ⟨inner, stray⟩ with
      | none =>
        rw [hcontent] at h
        cases h
      | some r =>
        rw [hcontent, Option.map_some, Option.bind_some] at h
        simp only [bind_apply] at h
        obtain ⟨later, hlater, heq⟩ := Option.bind_eq_some_iff.1 h
        obtain ⟨-, rfl⟩ := Prod.mk.inj (Option.some.inj heq)
        exact ih hts hlater
    | inner joint bang ts => cases h

/-- Attributes alone are no member of a trait. -/
theorem traitMember_of_isAttributes {g : Grammar} {r : (TraitMember × Option String) × Input}
    (hi : IsAttributes i.tokens) (h : traitMember g i = some r) : False := by
  rw [traitMember, bind_apply] at h
  obtain ⟨⟨attributes, ts, stray⟩, hattributes, h⟩ := Option.bind_eq_some_iff.1 h
  obtain rfl : ts = [] := repeatFrom_attributeStep hi hattributes
  exact absurd h nofun

end Parser

/-- A text of blanks and comments is no member of a trait. -/
theorem TraitMember.ofText?_of_comments {text : String}
    (h : afterComments (dropMark text.toList) = []) : TraitMember.ofText? text = none := by
  refine Option.map_eq_none_iff.2 (Option.eq_none_iff_forall_ne_some.2 fun r hr => ?_)
  obtain ⟨ts, htokens, hread⟩ := Option.bind_eq_some_iff.1 hr
  obtain ⟨flat, hflat, hbuild⟩ := Option.bind_eq_some_iff.1 htokens
  obtain ⟨docs, rfl⟩ := docTokens_of_flatFrom h hflat
  obtain ⟨attributes, hdocs, hattributes⟩ := isAttributes_of_docTokens docs
  rw [hdocs, build?_map_leaf] at hbuild
  obtain rfl := Option.some.inj hbuild
  unfold readTokens? at hread
  split at hread
  · exact Parser.traitMember_of_isAttributes hattributes ‹_›
  · exact absurd hread nofun

end RpcBindings.Rust
