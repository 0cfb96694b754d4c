import RpcBindings.Proofs.Go.Identifier
import RpcBindings.Rust.Lexer

/-!
Names among Rust tokens.

A name is read up to its end, whatever its letters may open elsewhere, and so is an angle bracket. Main
statements: each of them is one token, and a text of such parts has the tokens of its parts
(`Lexer.readAs_name`, `Lexer.readAs_bracket`, `Lexer.ReadAs.append`, `tokens?_of_readAs`).
-/

namespace RpcBindings.Rust

open Text

/-! ## Tokens -/

namespace Lexer

/-- Text that makes no literal out of the letters before it. -/
def Plain (cs : List Char) : Prop :=
  ∀ c ∈ cs.head?, c ∉ ['"', '#', '\'']

/-- Text before which a word ends, and no literal begins. -/
def EndsWord (cs : List Char) : Prop :=
  Plain cs ∧ ∀ c ∈ cs.head?, Identifier.isContinue c = false

variable {c : Char} {cs rest : List Char}

theorem lt_of_isLetterOrDigit (h : Go.isLetterOrDigit c = true) : c.toNat < 0x80 :=
  Nat.lt_succ_of_le (UInt32.le_iff_toNat_le.1
    (Char.utf8Size_eq_one_iff.1 (Go.isWordByte_of_isLetterOrDigit h).1))

theorem isContinue_of_isLetterOrDigit (h : Go.isLetterOrDigit c = true) :
    Identifier.isContinue c = true := by
  unfold Identifier.isContinue
  rw [if_pos (lt_of_isLetterOrDigit h)]
  exact h

theorem isStart_of_isLetter (h : Go.isLetter c = true) : Identifier.isStart c = true := by
  unfold Identifier.isStart
  rw [if_pos (lt_of_isLetterOrDigit (Go.isLetterOrDigit_of_isLetter h))]
  exact h

theorem not_isDigit_of_isLetter (h : Go.isLetter c = true) : c.isDigit = false := by
  unfold Go.isLetter Char.isAlpha Char.isUpper Char.isLower at h
  unfold Char.isDigit
  simp only [Bool.or_eq_true, Bool.and_eq_true, decide_eq_true_eq, beq_iff_eq, ge_iff_le,
    UInt32.le_iff_toNat_le, Bool.and_eq_false_iff, decide_eq_false_iff_not, Nat.not_le] at h ⊢
  refine .inr ?_
  rcases h with (h | h) | rfl
  · exact Nat.lt_of_lt_of_le (by decide) h.1
  · exact Nat.lt_of_lt_of_le (by decide) h.1
  · decide

theorem letters_of_isName (h : Go.IsName (c :: cs)) :
    Go.isLetter c = true ∧ cs.all Go.isLetterOrDigit = true := by
  obtain ⟨d, ds, heq, hd, hds⟩ := Go.exists_cons_of_isName h
  obtain ⟨rfl, rfl⟩ := List.cons.inj heq
  exact ⟨hd, hds⟩

theorem plain_append (hcs : cs.all Go.isLetterOrDigit = true) (hrest : EndsWord rest) :
    Plain (cs ++ rest) := by
  intro d hd
  cases cs with
  | nil => exact hrest.1 d hd
  | cons e cs =>
    obtain rfl := Option.some.inj hd
    have hword := (Go.isWordByte_of_isLetterOrDigit
      (List.all_eq_true.1 hcs e List.mem_cons_self)).2
    simp only [List.mem_cons, List.not_mem_nil, or_false, not_or]
    exact ⟨Go.ne_of_isWordByte hword (by decide), Go.ne_of_isWordByte hword (by decide),
      Go.ne_of_isWordByte hword (by decide)⟩

/-- What follows a later character of a word opens no literal either. -/
theorem plain_of_append_eq {d : Char} {more : List Char} (hd : Identifier.isContinue d = true)
    (hcs : cs.all Go.isLetterOrDigit = true) (hrest : EndsWord rest) (h : cs ++ rest = d :: more) :
    Plain more := by
  cases cs with
  | nil =>
    have hend := hrest.2 d (by rw [show rest = d :: more from h]; rfl)
    rw [hd] at hend
    exact absurd hend (by decide)
  | cons e cs =>
    obtain ⟨-, rfl⟩ := List.cons.inj h
    rw [List.all_cons, Bool.and_eq_true] at hcs
    exact plain_append hcs.2 hrest

theorem identifier?_name (h : Go.IsName (c :: cs)) (hrest : EndsWord rest) :
    Literal.identifier? (c :: (cs ++ rest)) = some (c :: cs, rest) := by
  obtain ⟨hc, hcs⟩ := letters_of_isName h
  have hinside : ∀ d ∈ cs, Identifier.isContinue d = true := fun d hd =>
    isContinue_of_isLetterOrDigit (List.all_eq_true.1 hcs d hd)
  have hstop : rest.takeWhile Identifier.isContinue = [] ∧
      rest.dropWhile Identifier.isContinue = rest := by
    cases rest with
    | nil => exact ⟨rfl, rfl⟩
    | cons d rest =>
      have hd := hrest.2 d rfl
      exact ⟨List.takeWhile_cons_of_neg (by simp [hd]), List.dropWhile_cons_of_neg (by simp [hd])⟩
  rw [Literal.identifier?, if_pos (isStart_of_isLetter hc), List.takeWhile_append_of_pos hinside,
    List.dropWhile_append_of_pos hinside, hstop.1, hstop.2, List.append_nil]

theorem raw?_of_plain {a : Literal.Alphabet} (h : Plain cs) : Literal.raw? a cs = none := by
  have hopening : Literal.rawOpening? cs = none := by
    unfold Literal.rawOpening?
    split
    · exact absurd (h _ rfl) (by decide)
    · exact absurd (h _ rfl) (by decide)
    · rfl
  unfold Literal.raw?
  rw [hopening]

/-- A word is not the letters that open a literal, up to a quote or hash. -/
theorem not_isPrefixOf_name {p : List Char} (hcs : cs.all Go.isLetterOrDigit = true)
    (hrest : EndsWord rest)
    (hp : (p.dropWhile Identifier.isContinue).head?.any ['"', '#', '\''].contains = true) :
    p.isPrefixOf (cs ++ rest) = false := by
  induction p generalizing cs with
  | nil => exact absurd hp (by decide)
  | cons d p ih =>
    refine Bool.eq_false_iff.2 fun hprefix => ?_
    obtain ⟨more, hmore⟩ := List.isPrefixOf_iff_prefix.1 hprefix
    rw [List.cons_append] at hmore
    by_cases hd : Identifier.isContinue d = true
    · rw [List.dropWhile_cons_of_pos hd] at hp
      cases cs with
      | nil =>
        have hend := hrest.2 d (by rw [show rest = d :: (p ++ more) from hmore.symm]; rfl)
        exact absurd hend (by rw [hd]; decide)
      | cons e cs =>
        rw [List.all_cons, Bool.and_eq_true] at hcs
        rw [List.cons_append] at hmore
        have hlater := ih hcs.2 hp
        rw [← (List.cons.inj hmore).2, List.isPrefixOf_iff_prefix.2 ⟨more, rfl⟩] at hlater
        exact absurd hlater (by decide)
    · rw [List.dropWhile_cons_of_neg hd] at hp
      have hplain := plain_append hcs hrest
      rw [← hmore] at hplain
      exact hplain d rfl (List.contains_iff_mem.1 hp)

/-- The letters among the hexadecimal digits are no decimal ones. -/
theorem ten_le_of_hexDigit? {d : Nat} (hc : c.isDigit = false) (h : Literal.hexDigit? c = some d) :
    10 ≤ d := by
  unfold Literal.hexDigit? at h
  rw [hc, if_neg Bool.false_ne_true] at h
  split at h
  · rw [← Option.some.inj h]
    exact Nat.le_add_left _ _
  · split at h
    · rw [← Option.some.inj h]
      exact Nat.le_add_left _ _
    · exact absurd h nofun

theorem int?_of_not_isDigit (hc : c.isDigit = false) (cs : List Char) :
    Literal.int? (c :: cs) = none := by
  have hdigits : Literal.digits? (c :: cs) = none := by
    have hzero : c ≠ '0' := by
      rintro rfl
      exact absurd hc (by decide)
    unfold Literal.digits?
    split
    · exact absurd (List.cons.inj ‹_›).1 hzero
    · exact absurd (List.cons.inj ‹_›).1 hzero
    · exact absurd (List.cons.inj ‹_›).1 hzero
    · unfold Literal.digitsFrom
      split
      · rfl
      · cases hd : Literal.hexDigit? c with
        | none => rfl
        | some d =>
          have hten := ten_le_of_hexDigit? hc hd
          simp only [if_neg (Nat.not_lt.2 hten), hc]
          rfl
  unfold Literal.int?
  rw [hdigits]

/-- A name begins no literal. -/
theorem read?_name (h : Go.IsName (c :: cs)) (hrest : EndsWord rest) :
    Literal.read? (c :: (cs ++ rest)) = none := by
  obtain ⟨hc, hcs⟩ := letters_of_isName h
  have hdigit := not_isDigit_of_isLetter hc
  have hplain := plain_append hcs hrest
  have hquote {d : Char} (hd : Masked.isWordByte d.toUInt8 = false) : c ≠ d :=
    h.ne_of_mem List.mem_cons_self hd
  have hsecond {d : Char} {more : List Char} (hd : d ∈ ['"', '\'']) (heq : cs ++ rest = d :: more) :
      False := by
    rw [heq] at hplain
    have := hplain d rfl
    simp only [List.mem_cons, List.not_mem_nil, or_false] at hd this
    tauto
  have hfloat : Literal.float? (c :: (cs ++ rest)) = none := by
    rw [Literal.float?, hdigit]
    rfl
  unfold Literal.read?
  rw [hfloat, int?_of_not_isDigit hdigit]
  split
  case h_1 heq => exact absurd (List.cons.inj heq).1 (hquote (by decide))
  case h_2 heq =>
    rw [← (List.cons.inj heq).2, raw?_of_plain hplain]
    rfl
  case h_3 heq => exact (hsecond (by decide) (List.cons.inj heq).2).elim
  case h_4 heq =>
    rw [raw?_of_plain (plain_of_append_eq (by decide) hcs hrest (List.cons.inj heq).2)]
    rfl
  case h_5 heq => exact (hsecond (by decide) (List.cons.inj heq).2).elim
  case h_6 heq =>
    rw [raw?_of_plain (plain_of_append_eq (by decide) hcs hrest (List.cons.inj heq).2)]
    rfl
  case h_7 heq => exact (hsecond (by decide) (List.cons.inj heq).2).elim
  case h_8 heq => exact absurd (List.cons.inj heq).1 (hquote (by decide))
  case h_9 => rfl

theorem punctNext_name (h : Go.IsName (c :: cs)) (rest : List Char) :
    punctNext (c :: rest) = false := by
  unfold punctNext
  split
  · rfl
  · rfl
  · rename_i heq
    obtain ⟨rfl, -⟩ := List.cons.inj heq
    refine Bool.eq_false_iff.2 fun hpunct => ?_
    have hmarks : ∀ d ∈ "~!@#$%^&*-=+|;:,<.>/?'".toList,
        Masked.isWordByte d.toUInt8 = false := by decide +kernel
    exact h.ne_of_mem List.mem_cons_self (hmarks c (List.contains_iff_mem.1 hpunct)) rfl
  · rfl

/-- A name is one token. -/
theorem leaf?_name (h : Go.IsName (c :: cs)) (hrest : EndsWord rest) :
    leaf? (c :: (cs ++ rest)) = some (.ident (.ofList (c :: cs)), rest) := by
  obtain ⟨hc, hcs⟩ := letters_of_isName h
  have hplain := plain_append hcs hrest
  have hopens : opensLiteral (c :: (cs ++ rest)) = false := by
    have hletters : (c :: cs).all Go.isLetterOrDigit = true := by
      rw [List.all_cons, Go.isLetterOrDigit_of_isLetter hc, hcs]
      rfl
    have hopeners : ∀ p ∈ ["r\"", "r#\"", "r##", "b\"", "b'", "br\"", "br#", "c\"", "cr\"", "cr#"],
        (p.toList.dropWhile Identifier.isContinue).head?.any ['"', '#', '\''].contains = true := by
      decide +kernel
    refine List.any_eq_false.2 fun p hp => ?_
    rw [← List.cons_append, not_isPrefixOf_name hletters hrest (hopeners p hp)]
    exact Bool.false_ne_true
  have hname : name? (c :: (cs ++ rest)) = some (c :: cs, rest) := by
    unfold name?
    split
    · rename_i heq
      rw [(List.cons.inj heq).2] at hplain
      exact absurd (hplain _ rfl) (by decide)
    · exact identifier?_name h hrest
  unfold leaf?
  rw [read?_name h hrest]
  simp only [if_neg (h.ne_of_mem List.mem_cons_self (d := '\'') (by decide)),
    punctNext_name h (cs ++ rest), hopens, hname, Bool.false_eq_true, if_false, Option.map_some]

theorem step?_name (h : Go.IsName (c :: cs)) (hrest : EndsWord rest) :
    step? c (cs ++ rest) = some ([.leaf (.ident (.ofList (c :: cs)))], rest) := by
  have hne {d : Char} (hd : Masked.isWordByte d.toUInt8 = false) : c ≠ d :=
    h.ne_of_mem List.mem_cons_self hd
  have hplain : plainComment? (c :: (cs ++ rest)) = none := by
    unfold plainComment?
    split
    · exact absurd (List.cons.inj ‹_›).1 (hne (by decide))
    · exact absurd (List.cons.inj ‹_›).1 (hne (by decide))
    · rfl
  have hdoc : docComment? (c :: (cs ++ rest)) = none := by
    have hslash : c ≠ '/' := hne (by decide)
    unfold docComment?
    split <;> first | rfl | exact absurd (List.cons.inj ‹_›).1 hslash
  have hspace : isSpace c = false := by
    unfold isSpace
    rw [h.not_isBlank c List.mem_cons_self, beq_eq_false_iff_ne.2 (hne (by decide)),
      beq_eq_false_iff_ne.2 (hne (by decide))]
    rfl
  have hread : unreadable.isPrefixOf (c :: (cs ++ rest)) = false := by
    have hparen : ('(' == c) = false := beq_eq_false_iff_ne.2 (hne (by decide)).symm
    rw [show unreadable = '(' :: "/*ERROR*/)".toList by decide +kernel, List.isPrefixOf_cons_cons, hparen,
      Bool.false_and]
  unfold step?
  simp only [hplain, hdoc, hspace, hread, Bool.false_eq_true, if_false]
  split
  case h_7 => rw [leaf?_name h hrest]; rfl
  all_goals exact absurd rfl (hne (by decide))

theorem flatFrom_nil (fuel : Nat) : flatFrom fuel [] = some [] := by
  cases fuel <;> rfl

/-- The flat tokens of a text that begins with a name. -/
theorem flatFrom_name {t : List Char} (h : Go.IsName t) (hrest : EndsWord rest) (fuel : Nat) :
    flatFrom (fuel + 1) (t ++ rest) = (flatFrom fuel rest).map (.leaf (.ident (.ofList t)) :: ·) := by
  cases t with
  | nil => exact absurd rfl h.ne_nil
  | cons c cs =>
    rw [List.cons_append, flatFrom, step?_name h hrest]
    rfl

/-- The flat tokens of a text that begins with an angle bracket. -/
theorem flatFrom_bracket (hc : c = '<' ∨ c = '>') (rest : List Char) (fuel : Nat) :
    flatFrom (fuel + 1) (c :: rest) =
      (flatFrom fuel rest).map (.leaf (.punct c (punctNext rest)) :: ·) := by
  have hread : Literal.read? (c :: rest) = none := by
    have hdigit : c.isDigit = false := by rcases hc with rfl | rfl <;> decide
    have hfloat : Literal.float? (c :: rest) = none := by
      rw [Literal.float?, hdigit]
      rfl
    unfold Literal.read?
    rw [hfloat, int?_of_not_isDigit hdigit]
    rcases hc with rfl | rfl <;> rfl
  have hleaf : leaf? (c :: rest) = some (.punct c (punctNext rest), rest) := by
    have hpunct : punctNext (c :: rest) = true := by
      rcases hc with rfl | rfl
      · show isPunct '<' = true
        decide +kernel
      · show isPunct '>' = true
        decide +kernel
    unfold leaf?
    rw [hread]
    simp only [hpunct, if_true]
    rcases hc with rfl | rfl <;> rfl
  have hstep : step? c rest = some ([.leaf (.punct c (punctNext rest))], rest) := by
    have hmarked : unreadable.isPrefixOf (c :: rest) = false := by
      rw [show unreadable = '(' :: "/*ERROR*/)".toList by decide +kernel, List.isPrefixOf_cons_cons]
      rcases hc with rfl | rfl <;> rfl
    have hcomment : plainComment? (c :: rest) = none ∧ docComment? (c :: rest) = none := by
      rcases hc with rfl | rfl <;> exact ⟨rfl, rfl⟩
    have hspace : isSpace c = false := by rcases hc with rfl | rfl <;> rfl
    unfold step?
    simp only [hcomment, hspace, hmarked, hleaf, Bool.false_eq_true, if_false, Option.map_some]
    rcases hc with rfl | rfl <;> rfl
  rw [flatFrom, hstep]
  rfl

theorem endsWord_bracket (hc : c = '<' ∨ c = '>') (rest : List Char) : EndsWord (c :: rest) := by
  rcases hc with rfl | rfl <;>
    exact ⟨fun d hd => Option.some.inj hd ▸ by decide, fun d hd => Option.some.inj hd ▸ by decide⟩

theorem dropMark_name {t : List Char} (h : Go.IsName t) (rest : List Char) :
    dropMark (t ++ rest) = t ++ rest := by
  unfold dropMark
  split
  · rename_i heq
    cases t with
    | nil => exact absurd rfl h.ne_nil
    | cons c cs =>
      obtain ⟨rfl, -⟩ := List.cons.inj heq
      exact absurd rfl (h.ne_of_mem List.mem_cons_self (d := '\ufeff') (by decide))
  · rfl

/-! ## Texts of several tokens -/

/-- Before another text, a text is read as tokens, in no more steps than it has characters. -/
def ReadAs (rest cs : List Char) (ts : List Token) : Prop :=
  ∃ steps ≤ cs.length, ∀ fuel,
    flatFrom (fuel + steps) (cs ++ rest) = (flatFrom fuel rest).map (ts.map .leaf ++ ·)

/-- A text of two parts has the tokens of both. -/
theorem ReadAs.append {ds : List Char} {ts us : List Token} (h : ReadAs (ds ++ rest) cs ts)
    (h' : ReadAs rest ds us) : ReadAs rest (cs ++ ds) (ts ++ us) := by
  obtain ⟨n, hn, hcs⟩ := h
  obtain ⟨m, hm, hds⟩ := h'
  refine ⟨m + n, by rw [List.length_append]; omega, fun fuel => ?_⟩
  rw [← Nat.add_assoc, List.append_assoc, hcs, hds, Option.map_map, List.map_append]
  exact congrArg (Option.map · _) (funext fun _ => (List.append_assoc _ _ _).symm)

theorem readAs_name {t : List Char} (h : Go.IsName t) (hrest : EndsWord rest) :
    ReadAs rest t [.ident (.ofList t)] :=
  ⟨1, List.length_pos_iff.2 h.ne_nil, flatFrom_name h hrest⟩

theorem readAs_bracket (hc : c = '<' ∨ c = '>') (rest : List Char) :
    ReadAs rest [c] [.punct c (punctNext rest)] :=
  ⟨1, Nat.le_refl 1, flatFrom_bracket hc rest⟩

theorem build?_leaves (done ts : List Token) :
    build? [] done (ts.map .leaf) = some (done.reverse ++ ts) := by
  induction ts generalizing done with
  | nil => rw [List.append_nil]; rfl
  | cons t ts ih =>
    rw [List.map_cons, build?, ih, List.reverse_cons, List.append_assoc, List.singleton_append]

end Lexer

open Lexer

theorem tokens?_of_readAs {cs : List Char} {ts : List Token} (hmark : dropMark cs = cs)
    (h : ReadAs [] cs ts) : tokens? cs = some ts := by
  obtain ⟨steps, hsteps, hflat⟩ := h
  obtain ⟨fuel, hfuel⟩ := Nat.exists_eq_add_of_le' hsteps
  have hall := hflat fuel
  rw [List.append_nil, flatFrom_nil, Option.map_some, List.append_nil] at hall
  unfold tokens?
  dsimp only
  rw [hmark, hfuel, hall, Option.bind_some, build?_leaves]
  rfl

end RpcBindings.Rust
