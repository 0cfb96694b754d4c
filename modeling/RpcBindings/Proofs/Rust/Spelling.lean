import RpcBindings.Proofs.Rust.Comment
import RpcBindings.Proofs.Rust.NameIn

/-!
How the names among Rust tokens are spelled.

A token is read from an end of the text, since what follows a comment, a literal or a name is one,
so the characters of a name come from the text. Main statement: without the mark of a raw one, a
name among the tokens of a text is an identifier whose characters all stand in the text, the name
`doc` of documentation aside (`isSpelled_of_nameIn`).
-/

namespace RpcBindings.Rust

namespace Literal

open Text

variable {a : Alphabet} {cs rest : List Char}

theorem suffix_cons_of {c : Char} (h : rest <:+ cs) : rest <:+ c :: cs :=
  h.trans (List.suffix_cons c cs)

attribute [local grind .] List.suffix_rfl
attribute [local grind ←] suffix_cons_of
attribute [local grind =] Option.map_eq_some_iff

theorem suffix_of_identifier? {n : List Char} (h : identifier? cs = some (n, rest)) :
    rest <:+ cs := by
  unfold identifier? at h
  split at h
  · exact absurd h nofun
  · split at h
    · obtain ⟨-, rfl⟩ := Prod.mk.inj (Option.some.inj h)
      exact (List.dropWhile_suffix _).trans (List.suffix_cons _ _)
    · exact absurd h nofun

theorem dropSuffix_suffix (cs : List Char) : dropSuffix cs <:+ cs := by
  unfold dropSuffix
  split
  · exact suffix_of_identifier? ‹_›
  · exact List.suffix_rfl

theorem suffix_of_unicodeEscape? {digits value : Nat} {c : Char}
    (h : unicodeEscape? a digits value cs = some (c, rest)) : rest <:+ cs := by
  fun_induction unicodeEscape? a digits value cs <;> grind

theorem suffix_of_continueLine? {b : Bool}
    (h : continueLine? b cs = some rest) : rest <:+ cs := by
  fun_induction continueLine? b cs <;> grind

theorem suffix_of_quotedChar? {c? : Option Char} (h : quotedChar? a cs = some (c?, rest)) :
    rest <:+ cs := by
  unfold quotedChar? at h
  split at h <;> grind [suffix_of_unicodeEscape?, suffix_of_continueLine?]

theorem suffix_of_quotedFrom {fuel : Nat} {v : List Char}
    (h : quotedFrom a fuel cs = some (v, rest)) : rest <:+ cs := by
  induction fuel generalizing cs v with
  | zero => exact absurd h nofun
  | succ fuel ih =>
    unfold quotedFrom at h
    split at h
    · obtain ⟨-, rfl⟩ := Prod.mk.inj (Option.some.inj h)
      exact List.suffix_cons _ _
    · split at h
      · exact absurd h nofun
      · obtain ⟨p, hp, heq⟩ := Option.map_eq_some_iff.1 h
        obtain ⟨-, rfl⟩ := Prod.mk.inj heq
        exact (ih hp).trans (suffix_of_quotedChar? ‹_›)

theorem suffix_of_rawOpening? {n : Nat} (h : rawOpening? cs = some (n, rest)) : rest <:+ cs := by
  fun_induction rawOpening? cs generalizing n <;> grind

theorem suffix_of_dropHashes? {n : Nat} (h : dropHashes? n cs = some rest) : rest <:+ cs := by
  fun_induction dropHashes? n cs <;> grind

theorem suffix_of_rawFrom {n : Nat} {v : List Char} (h : rawFrom a n cs = some (v, rest)) :
    rest <:+ cs := by
  fun_induction rawFrom a n cs generalizing v <;> grind [suffix_of_dropHashes?]

theorem suffix_of_raw? {v : List Char} (h : raw? a cs = some (v, rest)) : rest <:+ cs := by
  unfold raw? at h
  split at h
  · split at h
    · exact (suffix_of_rawFrom h).trans (suffix_of_rawOpening? ‹_›)
    · exact absurd h nofun
  · exact absurd h nofun

theorem suffix_of_oneChar? (h : oneChar? a cs = some rest) : rest <:+ cs := by
  unfold oneChar? at h
  split at h <;> grind [suffix_of_unicodeEscape?]

theorem suffix_of_character? (h : character? a cs = some rest) : rest <:+ cs := by
  unfold character? at h
  split at h
  · obtain rfl := Option.some.inj h
    exact (List.suffix_cons _ _).trans (suffix_of_oneChar? ‹_›)
  · exact absurd h nofun

theorem suffix_of_numberEnd? (h : numberEnd? cs = some rest) : rest <:+ cs := by
  have hrest : rest = dropSuffix cs := by
    unfold numberEnd? at h
    grind
  exact hrest ▸ dropSuffix_suffix cs

theorem suffix_of_digitsFrom {base : Nat} {v? : Option Nat} {v : Nat}
    (h : digitsFrom base v? cs = some (v, rest)) : rest <:+ cs := by
  fun_induction digitsFrom base v? cs <;> grind

theorem suffix_of_digits? {v : Nat} (h : digits? cs = some (v, rest)) : rest <:+ cs := by
  unfold digits? at h
  split at h
  · exact suffix_cons_of (suffix_cons_of (suffix_of_digitsFrom h))
  · exact suffix_cons_of (suffix_cons_of (suffix_of_digitsFrom h))
  · exact suffix_cons_of (suffix_cons_of (suffix_of_digitsFrom h))
  · exact suffix_of_digitsFrom h

theorem suffix_of_int? {v : Nat} {suffixed : Bool} (h : int? cs = some (v, suffixed, rest)) :
    rest <:+ cs := by
  unfold int? at h
  split at h
  · exact absurd h nofun
  · obtain ⟨after, hafter, heq⟩ := Option.map_eq_some_iff.1 h
    obtain ⟨-, -, rfl⟩ : _ ∧ _ ∧ after = rest := by simpa using heq
    exact (suffix_of_numberEnd? hafter).trans (suffix_of_digits? ‹_›)

theorem suffix_of_exponentFrom {signed valued : Bool}
    (h : exponentFrom signed valued cs = some rest) : rest <:+ cs := by
  fun_induction exponentFrom signed valued cs <;> grind

theorem suffix_of_floatFrom {dotted : Bool} (h : floatFrom dotted cs = some rest) :
    rest <:+ cs := by
  fun_induction floatFrom dotted cs <;> grind [suffix_of_exponentFrom]

theorem suffix_of_float? (h : float? cs = some rest) : rest <:+ cs := by
  unfold float? at h
  split at h
  · split at h
    · split at h
      · exact (suffix_of_numberEnd? h).trans (suffix_cons_of (suffix_of_floatFrom ‹_›))
      · exact absurd h nofun
    · exact absurd h nofun
  · exact absurd h nofun

/-- What follows a literal is an end of the text. -/
theorem suffix_of_read? {kind : LiteralKind} (h : read? cs = some (kind, rest)) : rest <:+ cs := by
  unfold read? at h
  simp only [Option.orElse_eq_orElse, Option.orElse_eq_or, Option.or_eq_some_iff] at h
  rcases h with h | ⟨-, h | ⟨-, h⟩⟩
  · split at h
    case h_9 => exact absurd h nofun
    all_goals
      obtain ⟨p, hp, heq⟩ := Option.map_eq_some_iff.1 h
      obtain ⟨-, rfl⟩ := Prod.mk.inj heq
      refine (dropSuffix_suffix _).trans ?_
    · exact suffix_cons_of (suffix_of_quotedFrom hp)
    · exact suffix_cons_of (suffix_of_raw? hp)
    · exact suffix_cons_of (suffix_cons_of (suffix_of_quotedFrom hp))
    · exact suffix_cons_of (suffix_cons_of (suffix_of_raw? hp))
    · exact suffix_cons_of (suffix_cons_of (suffix_of_quotedFrom hp))
    · exact suffix_cons_of (suffix_cons_of (suffix_of_raw? hp))
    · exact suffix_cons_of (suffix_cons_of (suffix_of_character? hp))
    · exact suffix_cons_of (suffix_of_character? hp)
  · obtain ⟨after, hafter, heq⟩ := Option.map_eq_some_iff.1 h
    exact (Prod.mk.inj heq).2 ▸ suffix_of_float? hafter
  · obtain ⟨⟨v, suffixed, after⟩, hafter, heq⟩ := Option.map_eq_some_iff.1 h
    exact (Prod.mk.inj heq).2 ▸ suffix_of_int? hafter

end Literal

/-- A text that is an identifier of Rust, reserved words included. -/
def IsIdentifier (w : List Char) : Prop :=
  ∃ c cs, w = c :: cs ∧ Text.Identifier.isStart c = true ∧
    ∀ d ∈ cs, Text.Identifier.isContinue d = true

/-- The name is an identifier whose characters are in the text, or that of documentation. -/
structure IsSpelled (text : List Char) (n : String) : Prop where
  isIdentifier : IsIdentifier n.toList
  subset : n.toList ⊆ text ∨ n = "doc"

theorem IsSpelled.mono {text text' : List Char} {n : String} (h : IsSpelled text n)
    (htext : text ⊆ text') : IsSpelled text' n :=
  ⟨h.isIdentifier, h.subset.imp_left fun hsubset => List.Subset.trans hsubset htext⟩

namespace Lexer

open Text

variable {c : Char} {cs rest after w : List Char}

theorem of_identifier? (h : Literal.identifier? cs = some (w, after)) :
    cs = w ++ after ∧ IsIdentifier w := by
  unfold Literal.identifier? at h
  split at h
  · exact absurd h nofun
  · rename_i d ds
    split at h
    · obtain ⟨rfl, rfl⟩ := Prod.mk.inj (Option.some.inj h)
      refine ⟨by rw [List.cons_append, List.takeWhile_append_dropWhile], d, _, rfl, ‹_›,
        fun e he => List.all_eq_true.1 List.all_takeWhile e he⟩
    · exact absurd h nofun

theorem plainName_raw (w : List Char) :
    plainName (.ofList ('r' :: '#' :: w)) = .ofList w := by
  unfold plainName
  rw [String.toList_ofList]
  rfl

theorem isSpelled_doc (text : List Char) : IsSpelled text (plainName "doc") := by
  have hdoc : plainName "doc" = "doc" := by decide +kernel
  rw [hdoc]
  exact ⟨⟨'d', ['o', 'c'], by decide +kernel, by decide +kernel, by decide +kernel⟩, .inr rfl⟩

theorem plainName_of_isIdentifier (h : IsIdentifier w) :
    plainName (.ofList w) = .ofList w := by
  obtain ⟨c, cs, rfl, -, hcs⟩ := h
  unfold plainName
  rw [String.toList_ofList]
  split
  · rename_i heq
    obtain ⟨-, rfl⟩ := List.cons.inj heq
    exact absurd (hcs '#' List.mem_cons_self) (by decide)
  · rfl

/-- What is read as a name is an identifier at the start of the text, perhaps after the mark of a
raw one. -/
theorem of_name? (h : name? cs = some (w, after)) :
    after <:+ cs ∧ IsSpelled cs (plainName (.ofList w)) := by
  unfold name? at h
  split at h
  · rename_i raw
    split at h
    · rename_i w' after' hread
      split at h
      · exact absurd h nofun
      · obtain ⟨rfl, rfl⟩ := Prod.mk.inj (Option.some.inj h)
        obtain ⟨rfl, hw'⟩ := of_identifier? hread
        rw [plainName_raw]
        refine ⟨⟨'r' :: '#' :: w', rfl⟩, by rwa [String.toList_ofList], .inl ?_⟩
        rw [String.toList_ofList]
        exact fun d hd =>
          List.mem_cons_of_mem _ (List.mem_cons_of_mem _ (List.mem_append_left _ hd))
    · exact absurd h nofun
  · obtain ⟨rfl, hw⟩ := of_identifier? h
    rw [plainName_of_isIdentifier hw]
    refine ⟨⟨w, rfl⟩, by rwa [String.toList_ofList], .inl ?_⟩
    rw [String.toList_ofList]
    exact fun d hd => List.mem_append_left _ hd

theorem suffix_of_lifetime? (h : lifetime? cs = some (w, after)) : after <:+ cs := by
  unfold lifetime? at h
  split at h
  · exact absurd h nofun
  · have hname := (of_name? ‹_›).1
    split at h
    · exact absurd h nofun
    · split at h
      · exact (Prod.mk.inj (Option.some.inj h)).2 ▸ hname
      · exact absurd h nofun
    · exact (Prod.mk.inj (Option.some.inj h)).2 ▸ hname

/-- A token that is no delimiter leaves an end of the text, and when it is a name, it is spelled
there. -/
theorem of_leaf? {t : Token} (h : leaf? cs = some (t, after)) :
    after <:+ cs ∧ ∀ n, NameIn n [t] → IsSpelled cs (plainName n) := by
  unfold leaf? at h
  split at h
  · obtain ⟨rfl, rfl⟩ := Prod.mk.inj (Option.some.inj h)
    exact ⟨Literal.suffix_of_read? ‹_›, fun n hn => absurd (nameIn_singleton hn) (by simp)⟩
  split at h
  · exact absurd h nofun
  rename_i c rest
  split at h
  · obtain ⟨p, hp, heq⟩ := Option.map_eq_some_iff.1 h
    split at heq
    · obtain ⟨rfl, rfl⟩ := Prod.mk.inj heq
      exact ⟨List.suffix_cons _ _, fun n hn => absurd (nameIn_singleton hn) (by simp)⟩
    · obtain ⟨rfl, rfl⟩ := Prod.mk.inj heq
      exact ⟨(suffix_of_lifetime? hp).trans (List.suffix_cons _ _),
        fun n hn => absurd (nameIn_singleton hn) (by simp)⟩
  split at h
  · obtain ⟨rfl, rfl⟩ := Prod.mk.inj (Option.some.inj h)
    exact ⟨List.suffix_cons _ _, fun n hn => absurd (nameIn_singleton hn) (by simp)⟩
  split at h
  · exact absurd h nofun
  obtain ⟨p, hp, heq⟩ := Option.map_eq_some_iff.1 h
  obtain ⟨rfl, rfl⟩ := Prod.mk.inj heq
  obtain ⟨hsuffix, hspelled⟩ := of_name? hp
  refine ⟨hsuffix, fun n hn => ?_⟩
  obtain rfl := Token.ident.inj ((nameIn_singleton hn).resolve_right nofun)
  exact hspelled

/-! ## Flat tokens -/

/-- The name stands among the flat tokens, perhaps within the attribute of a documentation
comment. -/
def FlatNameIn (n : String) (ts : List FlatToken) : Prop :=
  ∃ t, .leaf t ∈ ts ∧ NameIn n [t]

variable {n : String} {ts ts' : List FlatToken}

theorem FlatNameIn.of_append (h : FlatNameIn n (ts ++ ts')) :
    FlatNameIn n ts ∨ FlatNameIn n ts' := by
  obtain ⟨t, ht, hn⟩ := h
  exact (List.mem_append.1 ht).imp (fun ht => ⟨t, ht, hn⟩) fun ht => ⟨t, ht, hn⟩

theorem FlatNameIn.cons (h : FlatNameIn n ts) (t : FlatToken) : FlatNameIn n (t :: ts) := by
  obtain ⟨t', ht, hn⟩ := h
  exact ⟨t', List.mem_cons_of_mem _ ht, hn⟩

theorem FlatNameIn.of_leaf {t : Token} (h : FlatNameIn n [.leaf t]) : NameIn n [t] := by
  obtain ⟨t', ht, hn⟩ := h
  obtain rfl := FlatToken.leaf.inj (List.mem_singleton.1 ht)
  exact hn

/-- A documentation comment holds the one name of its attribute. -/
theorem eq_doc_of_docTokens {inner : Bool} {text : List Char}
    (h : FlatNameIn n (docTokens inner text)) : n = "doc" := by
  obtain ⟨t, ht, hn⟩ := h
  have ht : (∃ c, t = .punct c false) ∨ ∃ value, t = .group .bracket
      [.ident "doc", .punct '=' false, .literal (.str (.ofList text)) value] := by
    unfold docTokens at ht
    cases inner with
    | false =>
      simp only [Bool.false_eq_true, if_false, List.singleton_append, List.mem_cons,
        FlatToken.leaf.injEq, List.not_mem_nil, or_false] at ht
      exact ht.imp (fun h => ⟨_, h⟩) fun h => ⟨_, h⟩
    | true =>
      simp only [if_true, List.cons_append, List.nil_append, List.mem_cons, FlatToken.leaf.injEq,
        List.not_mem_nil, or_false] at ht
      rcases ht with h | h | h
      exacts [.inl ⟨_, h⟩, .inl ⟨_, h⟩, .inr ⟨_, h⟩]
  rcases ht with ⟨c, rfl⟩ | ⟨value, rfl⟩
  · exact absurd (nameIn_singleton hn) (by simp)
  · obtain ⟨d, ts, heq, hn⟩ := (nameIn_singleton hn).resolve_left nofun
    obtain ⟨-, rfl⟩ := Token.group.inj heq
    cases hn with
    | head => rfl
    | tail _ hn =>
      cases hn with
      | tail _ hn => exact absurd (nameIn_singleton hn) (by simp)

/-- One step leaves an end of the text, and the names among its tokens are spelled in the text. -/
theorem of_step? (h : step? c rest = some (ts, after)) :
    after <:+ c :: rest ∧ ∀ n, FlatNameIn n ts → IsSpelled (c :: rest) (plainName n) := by
  have hnone (n : String) : ¬FlatNameIn n [] := fun ⟨t, ht, _⟩ => List.not_mem_nil ht
  have hdelimiter {t : FlatToken} (ht : ∀ t', t ≠ .leaf t') (n : String) : ¬FlatNameIn n [t] :=
    fun ⟨t', ht', _⟩ => ht t' (List.mem_singleton.1 ht').symm
  unfold step? at h
  dsimp only at h
  split at h
  · obtain ⟨rfl, rfl⟩ := Prod.mk.inj (Option.some.inj h)
    exact ⟨(suffix_of_plainComment? ‹_›).trans (List.suffix_cons _ _),
      fun n hn => absurd hn (hnone n)⟩
  split at h
  · obtain ⟨rfl, rfl⟩ := Prod.mk.inj (Option.some.inj h)
    exact ⟨List.suffix_cons _ _, fun n hn => absurd hn (hnone n)⟩
  split at h
  · split at h
    · exact absurd h nofun
    · obtain ⟨rfl, rfl⟩ := Prod.mk.inj (Option.some.inj h)
      refine ⟨(suffix_of_docComment? ‹_›).trans (List.suffix_cons _ _), fun n hn => ?_⟩
      rw [eq_doc_of_docTokens hn]
      exact isSpelled_doc _
  split at h
  · obtain ⟨rfl, rfl⟩ := Prod.mk.inj (Option.some.inj h)
    exact ⟨List.drop_suffix _ _, fun n hn => absurd (nameIn_singleton hn.of_leaf) (by simp)⟩
  split at h
  case h_7 =>
    obtain ⟨p, hp, heq⟩ := Option.map_eq_some_iff.1 h
    obtain ⟨rfl, rfl⟩ := Prod.mk.inj heq
    obtain ⟨hsuffix, hspelled⟩ := of_leaf? hp
    exact ⟨hsuffix, fun n hn => hspelled n hn.of_leaf⟩
  all_goals
    obtain ⟨rfl, rfl⟩ := Prod.mk.inj (Option.some.inj h)
    exact ⟨List.suffix_cons _ _, fun n hn => absurd hn (hdelimiter (by simp) n)⟩

theorem isSpelled_of_flatFrom {fuel : Nat} (h : flatFrom fuel cs = some ts)
    (hn : FlatNameIn n ts) : IsSpelled cs (plainName n) := by
  induction fuel generalizing cs ts with
  | zero =>
    cases cs with
    | nil =>
      obtain rfl := Option.some.inj h
      obtain ⟨t, ht, -⟩ := hn
      exact absurd ht List.not_mem_nil
    | cons c rest => cases h
  | succ fuel ih =>
    cases cs with
    | nil =>
      obtain rfl := Option.some.inj h
      obtain ⟨t, ht, -⟩ := hn
      exact absurd ht List.not_mem_nil
    | cons c rest =>
      rw [flatFrom] at h
      split at h
      · cases h
      · obtain ⟨hsuffix, hspelled⟩ := of_step? ‹_›
        obtain ⟨later, hlater, rfl⟩ := Option.map_eq_some_iff.1 h
        rcases hn.of_append with hn | hn
        · exact hspelled n hn
        · exact (ih hlater hn).mono hsuffix.subset

/-! ## Trees -/

theorem nameIn_reverse {ts : List Token} : NameIn n ts.reverse ↔ NameIn n ts := by
  induction ts with
  | nil => rfl
  | cons t ts ih =>
    rw [List.reverse_cons, nameIn_append, ih, or_comm, ← nameIn_append, List.singleton_append]

/-- The trees hold no names that neither the flat tokens nor the open groups have held. -/
theorem of_build? {frames : List Frame} {done trees : List Token}
    (h : build? frames done ts = some trees) (hn : NameIn n trees) :
    (∃ f ∈ frames, NameIn n f.2) ∨ NameIn n done ∨ FlatNameIn n ts := by
  fun_induction build? frames done ts with
  | case1 done =>
    obtain rfl := Option.some.inj h
    exact .inr (.inl (nameIn_reverse.1 hn))
  | case2 => exact absurd h nofun
  | case3 frames done t ts ih =>
    rcases ih h with hframe | hdone | hflat
    · exact .inl hframe
    · rcases (@nameIn_append _ [t] _).1 hdone with ht | hdone
      · exact .inr (.inr ⟨t, List.mem_cons_self, ht⟩)
      · exact .inr (.inl hdone)
    · exact .inr (.inr (hflat.cons _))
  | case4 frames done d ts ih =>
    rcases ih h with ⟨f, hf, hn⟩ | hdone | hflat
    · rcases List.mem_cons.1 hf with rfl | hf
      · exact .inr (.inl hn)
      · exact .inl ⟨f, hf, hn⟩
    · exact absurd hdone nofun
    · exact .inr (.inr (hflat.cons _))
  | case5 => exact absurd h nofun
  | case6 _ _ _ _ _ ih =>
    rcases ih h with ⟨f, hf, hn⟩ | hdone | hflat
    · exact .inl ⟨f, List.mem_cons_of_mem _ hf, hn⟩
    · cases hdone with
      | inner hinner => exact .inr (.inl (nameIn_reverse.1 hinner))
      | tail _ houter => exact .inl ⟨_, List.mem_cons_self, houter⟩
    · exact .inr (.inr (hflat.cons _))
  | case7 => exact absurd h nofun

end Lexer

/-- The names among the tokens of a text are spelled in it. -/
theorem isSpelled_of_nameIn {text : List Char} {ts : List Token} {n : String}
    (h : tokens? text = some ts) (hn : NameIn n ts) :
    IsSpelled text (plainName n) := by
  obtain ⟨flat, hflat, hbuild⟩ := Option.bind_eq_some_iff.1 h
  rcases Lexer.of_build? hbuild hn with ⟨f, hf, -⟩ | hn | hn
  · exact absurd hf List.not_mem_nil
  · exact absurd hn nofun
  · exact (Lexer.isSpelled_of_flatFrom hflat hn).mono (Lexer.dropMark_suffix text).subset

end RpcBindings.Rust
