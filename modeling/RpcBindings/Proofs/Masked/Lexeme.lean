import RpcBindings.Proofs.Masked.Closed
import RpcBindings.Text.Identifier

/-!
Lexical elements and what masking leaves of them.

A source is a sequence of elements: code, comments and literals, and in Rust raw identifiers and
lifetimes. Each element is shown up to its opening and from its closing on, and hidden between the
two. Main statement: when no element reads otherwise because of what stands beside it, the masked
copy of the source is the elements one after the other, each with its inside blanked
(`mask_lexemes`). A word is a run of ASCII characters here, and the text before a string is looked
at as a whole: judging two neighbours at a time and words by their Unicode properties is not enough
(`mask_lexemes_in_pairs`).
-/

namespace RpcBindings

/-- A lexical element, by the text between its delimiters. -/
inductive Lexeme where
  | code (text : List Char)
  /-- A comment up to the end of its line, or up to the end of the source. -/
  | lineComment (body : List Char) (ended : Bool)
  | blockComment (body : List Char)
  | quoted (body : List Char)
  | character (body : List Char)
  | backQuoted (body : List Char)
  | rawString (byte : Bool) (hashes : Nat) (body : List Char)
  | rawIdentifier (name : List Char)
  | lifetime (name : List Char)
  deriving DecidableEq, Repr

namespace Lexeme

/-- What is shown before the inside of an element. -/
def opening : Lexeme → List Char
  | code text => text
  | quoted _ => ['"']
  | character _ => ['\'']
  | backQuoted _ => ['`']
  | rawString byte hashes _ =>
    (if byte then ['b', 'r'] else ['r']) ++ (List.replicate hashes '#' ++ ['"'])
  | rawIdentifier name => 'r' :: '#' :: name
  | lifetime name => '\'' :: name
  | lineComment .. | blockComment _ => []

/-- What is hidden of an element. -/
def inside : Lexeme → List Char
  | lineComment body ended => '/' :: '/' :: (body ++ if ended then ['\n'] else [])
  | blockComment body => '/' :: '*' :: (body ++ ['*', '/'])
  | quoted body | character body | backQuoted body | rawString _ _ body => body
  | code _ | rawIdentifier _ | lifetime _ => []

/-- What is shown behind the inside of an element. -/
def closing : Lexeme → List Char
  | quoted _ => ['"']
  | character _ => ['\'']
  | backQuoted _ => ['`']
  | rawString _ hashes _ => '"' :: List.replicate hashes '#'
  | code _ | lineComment .. | blockComment _ | rawIdentifier _ | lifetime _ => []

/-- The element as it is written. -/
def text (e : Lexeme) : List Char :=
  e.opening ++ (e.inside ++ e.closing)

/-- The element with its inside blanked: spaces for bytes, and line feeds where they stand. -/
def masked (e : Lexeme) : List Char :=
  e.opening ++ (e.inside.flatMap Glyph.blank ++ e.closing)

/-! ## Elements of a language -/

/-- The inside of a string, in which a backslash takes the next character along. -/
def isStringBody : List Char → Bool
  | [] => true
  | '\\' :: _ :: cs => isStringBody cs
  | ['\\'] => false
  | c :: cs => c != '"' && isStringBody cs

/-- The inside of a character literal: one character, or an escape. -/
def isCharacterBody : List Char → Bool
  | [] => false
  | [c] => c != '\\'
  | first :: c :: cs => first == '\\' && c.utf8Size == 1 && !cs.contains '\''

/-- A character that opens a literal. -/
def isQuote (lang : SourceLang) (c : Char) : Bool :=
  c == '"' || c == '\'' || (lang == .go && c == '`')

/-- What the elements of a language hold. -/
def Valid (lang : SourceLang) : Lexeme → Prop
  | code text =>
    (∀ c ∈ text, isQuote lang c = false) ∧ ¬['/', '/'] <:+: text ∧ ¬['/', '*'] <:+: text
  | lineComment body _ => '\n' ∉ body
  | blockComment body => ¬['*', '/'] <:+: body ∧ ¬['/', '*'] <:+: body
  | quoted body => isStringBody body = true
  | character body => isCharacterBody body = true
  | backQuoted body => lang = .go ∧ '`' ∉ body
  | rawString _ hashes body => lang = .rust ∧ ¬('"' :: List.replicate hashes '#') <:+: body
  | rawIdentifier name | lifetime name =>
    lang = .rust ∧ name ≠ [] ∧ ∀ c ∈ name, Text.Identifier.isContinue c = true

instance (lang : SourceLang) : (e : Lexeme) → Decidable (e.Valid lang)
  | code _ => inferInstanceAs (Decidable (_ ∧ _ ∧ _))
  | lineComment _ _ => inferInstanceAs (Decidable (_ ∉ _))
  | blockComment _ => inferInstanceAs (Decidable (¬_ ∧ ¬_))
  | quoted _ | character _ => inferInstanceAs (Decidable (_ = true))
  | backQuoted _ => inferInstanceAs (Decidable (_ ∧ _ ∉ _))
  | rawString _ _ _ => inferInstanceAs (Decidable (_ ∧ ¬_))
  | rawIdentifier _ | lifetime _ => inferInstanceAs (Decidable (_ ∧ _ ∧ _))

/-! ## Neighbours -/

/-- The text ends in a word `r` or `br` and in some hashes behind it. -/
def endsInRawPrefix (isWord : Char → Bool) (before : List Char) : Bool :=
  let word := (before.reverse.dropWhile (· == '#')).takeWhile isWord
  word == ['r'] || word == ['r', 'b']

/-- An element is read as it is written between the text before it and the text after it. -/
def StandsAlone (lang : SourceLang) (before : List Char) (e : Lexeme) (after : List Char) : Prop :=
  match e with
  | code text => text.getLast? = some '/' → Masked.Detached after
  | lineComment _ ended => ended = false → after = []
  | quoted _ => lang = .rust → endsInRawPrefix isWordChar before = false
  | rawString .. => ∀ c ∈ before.getLast?, isWordChar c = false
  | lifetime _ => after.head? ≠ some '\''
  | _ => True

instance (lang : SourceLang) (before : List Char) (after : List Char) :
    (e : Lexeme) → Decidable (e.StandsAlone lang before after)
  | code _ => inferInstanceAs (Decidable (_ → _ ∧ _))
  | lineComment _ _ | quoted _ => inferInstanceAs (Decidable (_ → _))
  | rawString _ _ _ => Option.decidableForallMem _
  | lifetime _ => inferInstanceAs (Decidable (_ ≠ _))
  | blockComment _ | character _ | backQuoted _ | rawIdentifier _ =>
    inferInstanceAs (Decidable True)

/-- The text of some elements. -/
def textOf (es : List Lexeme) : List Char :=
  es.flatMap text

/-- Behind a text all of some elements are read as they are written. -/
def Apart (lang : SourceLang) : List Char → List Lexeme → Prop
  | _, [] => True
  | before, e :: es => e.StandsAlone lang before (textOf es) ∧ Apart lang (before ++ e.text) es

instance (lang : SourceLang) : (before : List Char) → (es : List Lexeme) →
    Decidable (Apart lang before es)
  | _, [] => inferInstanceAs (Decidable True)
  | before, e :: es =>
    have : Decidable (Apart lang (before ++ e.text) es) := instDecidableApart lang _ es
    inferInstanceAs (Decidable (_ ∧ _))

theorem text_code (t : List Char) : (code t).text = t := by
  simp [text, opening, inside, closing]

theorem masked_code (t : List Char) : (code t).masked = t := by
  simp [masked, opening, inside, closing]

theorem text_rawIdentifier (name : List Char) : (rawIdentifier name).text = 'r' :: '#' :: name := by
  simp [text, opening, inside, closing]

theorem masked_rawIdentifier (name : List Char) :
    (rawIdentifier name).masked = 'r' :: '#' :: name := by
  simp [masked, opening, inside, closing]

theorem text_lifetime (name : List Char) : (lifetime name).text = '\'' :: name := by
  simp [text, opening, inside, closing]

theorem masked_lifetime (name : List Char) : (lifetime name).masked = '\'' :: name := by
  simp [masked, opening, inside, closing]

theorem textOf_cons (e : Lexeme) (es : List Lexeme) : textOf (e :: es) = e.text ++ textOf es := rfl

end Lexeme

namespace Masked

open Lexeme

variable {lang : SourceLang}

/-! ## Words before a position -/

/-- The state of the scan behind a text of code. -/
def wordAfter (before : List Char) : WordState :=
  before.foldl WordState.next .fresh

theorem wordAfter_concat (before : List Char) (c : Char) :
    wordAfter (before ++ [c]) = (wordAfter before).next c := by
  unfold wordAfter
  rw [List.foldl_append]
  rfl

/-- The state says of the word that reaches the position whether there is one, and whether it is a
lone `b`. -/
theorem wordAfter_eq (before : List Char) :
    (wordAfter before = .fresh ↔ before.reverse.takeWhile isWordChar = []) ∧
      (wordAfter before = .afterB ↔ before.reverse.takeWhile isWordChar = ['b']) := by
  induction before using List.reverseRecOn with
  | nil => decide
  | append_singleton before c ih =>
    rw [wordAfter_concat, List.reverse_append, List.reverse_singleton, List.singleton_append]
    unfold WordState.next
    by_cases hc : isWordChar c = true
    · rw [List.takeWhile_cons_of_pos hc, hc]
      by_cases hb : c = 'b'
      · by_cases hfresh : wordAfter before = .fresh
        · simp [hb, hfresh, ih.1.1 hfresh]
        · have hword := mt ih.1.2 hfresh
          simp [hb, hfresh, hword]
      · simp [hb]
    · rw [List.takeWhile_cons_of_neg hc]
      simp [hc]

theorem wordAfter_of_not_isWordChar {before : List Char}
    (h : ∀ c, before.getLast? = some c → isWordChar c = false) : wordAfter before = .fresh := by
  rw [(wordAfter_eq before).1]
  cases hr : before.reverse with
  | nil => rfl
  | cons c cs =>
    have hlast : before.getLast? = some c := by
      rw [← List.head?_reverse, hr]
      rfl
    exact List.takeWhile_cons_of_neg (by simp [h c hlast])

theorem wordAfter_concat_of_not_isWordChar (before : List Char) {c : Char}
    (h : isWordChar c = false) : wordAfter (before ++ [c]) = .fresh := by
  rw [wordAfter_concat]
  unfold WordState.next
  rw [h]
  rfl

/-- Where a raw string could begin, an `r` and hashes end a text as its prefix. -/
theorem endsInRawPrefix_of_wordAfter {before : List Char} (h : wordAfter before ≠ .inWord)
    (n : Nat) :
    endsInRawPrefix isWordChar (before ++ 'r' :: List.replicate n '#') = true := by
  have hword : ((before ++ 'r' :: List.replicate n '#').reverse.dropWhile (· == '#')).takeWhile
      isWordChar = 'r' :: before.reverse.takeWhile isWordChar := by
    rw [List.reverse_append, List.reverse_cons, List.reverse_replicate, List.append_assoc,
      List.dropWhile_append_of_pos fun c hc => by simp [List.eq_of_mem_replicate hc]]
    rfl
  unfold endsInRawPrefix
  simp only [hword]
  cases hstate : wordAfter before with
  | fresh => simp [(wordAfter_eq before).1.1 hstate]
  | afterB => simp [(wordAfter_eq before).2.1 hstate]
  | inWord => exact absurd hstate h

/-- An opening quote is read behind hashes. -/
theorem rawHashes?_eq_some {cs : List Char} {n : Nat} (h : rawHashes? cs = some n) :
    ∃ rest, cs = List.replicate n '#' ++ '"' :: rest := by
  induction cs generalizing n with
  | nil => simp [rawHashes?] at h
  | cons c cs ih =>
    unfold rawHashes? at h
    split at h
    · rename_i rest heq
      obtain ⟨rfl, rfl⟩ := List.cons.inj heq
      obtain rfl := Option.some.inj h
      exact ⟨cs, rfl⟩
    · rename_i rest heq
      obtain ⟨rfl, rfl⟩ := List.cons.inj heq
      obtain ⟨k, hk, rfl⟩ := Option.map_eq_some_iff.1 h
      obtain ⟨rest, rfl⟩ := ih hk
      exact ⟨rest, by rw [List.replicate_succ]; rfl⟩
    · simp at h

/-- Hashes and a quote behind them that begin a text without quotes and its rest begin with hashes
only in the text. -/
theorem hashes_split {t rest quote : List Char} {n : Nat} (ht : '"' ∉ t)
    (h : t ++ rest = List.replicate n '#' ++ '"' :: quote) :
    ∃ k m, n = k + m ∧ t = List.replicate k '#' ∧ rest = List.replicate m '#' ++ '"' :: quote := by
  induction t generalizing n with
  | nil => exact ⟨0, n, (Nat.zero_add n).symm, rfl, h⟩
  | cons c t ih =>
    rw [List.mem_cons, not_or] at ht
    cases n with
    | zero => exact absurd (List.cons.inj h).1.symm ht.1
    | succ n =>
      obtain ⟨hc, htail⟩ := List.cons.inj h
      obtain ⟨k, m, hn, ht, hrest⟩ := ih ht.2 htail
      exact ⟨k + 1, m, by omega, by rw [hc, ht]; rfl, hrest⟩

theorem rawHashes?_replicate (n : Nat) (rest : List Char) :
    rawHashes? (List.replicate n '#' ++ '"' :: rest) = some n := by
  induction n with
  | zero => rfl
  | succ n ih =>
    rw [List.replicate_succ, List.cons_append]
    show (rawHashes? (List.replicate n '#' ++ '"' :: rest)).map (· + 1) = some (n + 1)
    rw [ih]
    rfl

/-! ## Masking from a mode on -/

/-- What a text shows that is read from a mode on. -/
def maskFrom (lang : SourceLang) (mode : ScanMode) (cs : List Char) : List Char :=
  showGlyphs (glyphsFrom lang mode cs)

theorem maskFrom_cons (mode : ScanMode) (c : Char) (rest : List Char) :
    maskFrom lang mode (c :: rest) =
      Glyph.code ⟨c, (step lang mode c rest).1⟩ ++ maskFrom lang (step lang mode c rest).2 rest :=
  rfl

theorem maskFrom_cons_shown {mode : ScanMode} {c : Char} {rest : List Char} (next : ScanMode)
    (h : step lang mode c rest = (.shown, next)) :
    maskFrom lang mode (c :: rest) = c :: maskFrom lang next rest := by
  rw [maskFrom_cons, h]
  rfl

theorem maskFrom_cons_hidden {mode : ScanMode} {c : Char} {rest : List Char} (next : ScanMode)
    (h : step lang mode c rest = (.hidden, next)) :
    maskFrom lang mode (c :: rest) = Glyph.blank c ++ maskFrom lang next rest := by
  rw [maskFrom_cons, h]
  rfl

/-- A literal that runs on is hidden. -/
theorem literalStep_of_ne_nil {rest : List Char} (h : rest ≠ []) (next : ScanMode) :
    literalStep rest next = (.hidden, next) := by
  have : rest.isEmpty = false := by simpa using h
  unfold literalStep
  rw [this]
  rfl

/-! ## Code -/

/-- No raw string is made of the end of a text and the hashes and the quote that follow it. -/
def NoRawPrefix (lang : SourceLang) (before after : List Char) : Prop :=
  lang = .rust → ∀ n rest, after = List.replicate n '#' ++ '"' :: rest →
    endsInRawPrefix isWordChar (before ++ List.replicate n '#') = false

/-- A character of code is shown when nothing begins with it. -/
theorem codeStep_plain {w : WordState} {c : Char} {rest : List Char} (hquote : c ≠ '"')
    (hback : lang = .go → c ≠ '`') (hsingle : c = '\'' → characterBody? rest = none)
    (hslash : c = '/' → Detached rest)
    (hraw : c = 'r' → lang = .rust → w ≠ .inWord → rawHashes? rest = none) :
    codeStep lang w c rest = (.shown, .code (w.next c)) := by
  unfold codeStep
  extract_lets plain
  split
  · obtain ⟨hs, ht⟩ := hslash rfl
    split
    · exact absurd rfl hs
    · exact absurd rfl ht
    · rfl
  · split
    · rename_i hword
      simp only [Bool.and_eq_true, decide_eq_true_eq, bne_iff_ne] at hword
      rw [hraw rfl hword.1 hword.2]
    · rfl
  · exact absurd rfl hquote
  · split
    · rename_i hgo
      exact absurd rfl (hback hgo)
    · rfl
  · rw [hsingle rfl]
  · rfl

/-- A text in which nothing begins is shown as it is. -/
theorem maskFrom_shown {before t rest : List Char} (hquote : '"' ∉ t) (hback : lang = .go → '`' ∉ t)
    (hsingle : ∀ a b, t = a ++ '\'' :: b → characterBody? (b ++ rest) = none)
    (hslash : ∀ a b, t = a ++ '/' :: b → Detached (b ++ rest))
    (hraw : NoRawPrefix lang (before ++ t) rest) :
    maskFrom lang (.code (wordAfter before)) (t ++ rest) =
      t ++ maskFrom lang (.code (wordAfter (before ++ t))) rest := by
  induction t generalizing before with
  | nil => rw [List.append_nil]; rfl
  | cons c t ih =>
    rw [List.mem_cons, not_or] at hquote
    have hstep : step lang (.code (wordAfter before)) c (t ++ rest) =
        (.shown, .code ((wordAfter before).next c)) := by
      refine codeStep_plain (Ne.symm hquote.1) (fun hgo heq => hback hgo (heq ▸ List.mem_cons_self))
        (fun hc => hsingle [] t (by rw [hc]; rfl)) (fun hc => hslash [] t (by rw [hc]; rfl))
        fun hc hrust hword => ?_
      -- an `r` that opens a raw string would reach over the text to a quote behind it
      refine Option.eq_none_iff_forall_ne_some.2 fun n hn => ?_
      obtain ⟨quote, hquoted⟩ := rawHashes?_eq_some hn
      obtain ⟨k, m, hn, ht, hrest⟩ := hashes_split hquote.2 hquoted
      have hprefix := hraw hrust m quote hrest
      have hends := endsInRawPrefix_of_wordAfter hword n
      rw [hc, ht, List.append_assoc, List.cons_append, List.replicate_append_replicate, ← hn,
        hends] at hprefix
      exact Bool.noConfusion hprefix
    have hlater : before ++ c :: t = (before ++ [c]) ++ t := by simp
    rw [hlater] at hraw
    rw [List.cons_append, maskFrom_cons_shown _ hstep, ← wordAfter_concat,
      ih hquote.2 (fun hgo hmem => hback hgo (List.mem_cons_of_mem c hmem))
        (fun a b hab => hsingle (c :: a) b (by rw [hab]; rfl))
        (fun a b hab => hslash (c :: a) b (by rw [hab]; rfl)) hraw, hlater]
    rfl

/-! ## Hidden texts -/

/-- A text is hidden that leaves the scan in its mode with each character. -/
theorem maskFrom_hidden (mode : ScanMode) {body rest : List Char}
    (h : ∀ a c b, body = a ++ c :: b → step lang mode c (b ++ rest) = (.hidden, mode)) :
    maskFrom lang mode (body ++ rest) = body.flatMap Glyph.blank ++ maskFrom lang mode rest := by
  induction body with
  | nil => rfl
  | cons c body ih =>
    rw [List.cons_append, maskFrom_cons_hidden _ (h [] c body rfl),
      ih fun a d b hab => h (c :: a) d b (by rw [hab]; rfl), List.flatMap_cons, List.append_assoc]

theorem not_mem_of_split {body a b : List Char} {c d : Char} (h : d ∉ body)
    (hsplit : body = a ++ c :: b) : c ≠ d := by
  rintro rfl
  exact h (by simp [hsplit])

theorem maskFrom_lineComment {body rest : List Char} (h : '\n' ∉ body) :
    maskFrom lang .lineComment (body ++ rest) =
      body.flatMap Glyph.blank ++ maskFrom lang .lineComment rest :=
  maskFrom_hidden _ fun _ _ _ hsplit => if_neg (not_mem_of_split h hsplit)

theorem maskFrom_blockComment {body rest : List Char} (h : ¬['*', '/'] <:+: body) :
    maskFrom lang .blockComment (body ++ '*' :: '/' :: rest) =
      (body ++ ['*', '/']).flatMap Glyph.blank ++ maskFrom lang (.code .fresh) rest := by
  have hopen (a : List Char) (c : Char) (b : List Char) (hsplit : body = a ++ c :: b) :
      step lang .blockComment c (b ++ '*' :: '/' :: rest) = (.hidden, .blockComment) := by
    refine if_neg fun hclose => ?_
    simp only [Bool.and_eq_true, decide_eq_true_eq] at hclose
    cases b with
    | nil => exact absurd hclose.2 (by simp)
    | cons d b =>
      have hd : d = '/' := Option.some.inj hclose.2
      exact h ⟨a, b, by rw [hsplit, hclose.1, hd]; simp⟩
  rw [maskFrom_hidden _ hopen, maskFrom_cons_hidden .blockClose rfl,
    maskFrom_cons_hidden (.code .fresh) rfl, List.flatMap_append, List.append_assoc]
  rfl

/-- The inside of a string is hidden up to the quote that closes it. -/
theorem maskFrom_quoted {body rest : List Char} (h : isStringBody body = true) :
    maskFrom lang (.quoted '"' true) (body ++ '"' :: rest) =
      body.flatMap Glyph.blank ++ '"' :: maskFrom lang (.code .fresh) rest := by
  have hne (cs : List Char) : cs ++ '"' :: rest ≠ [] := by simp
  induction body using isStringBody.induct with
  | case1 => exact maskFrom_cons_shown _ rfl
  | case2 c cs ih =>
    have hbackslash : step lang (.quoted '"' true) '\\' (c :: cs ++ '"' :: rest) =
        (.hidden, .escaped '"') := literalStep_of_ne_nil (hne (c :: cs)) _
    have hescaped : step lang (.escaped '"') c (cs ++ '"' :: rest) = (.hidden, .quoted '"' true) :=
      literalStep_of_ne_nil (hne cs) _
    rw [List.cons_append, maskFrom_cons_hidden _ hbackslash, List.cons_append,
      maskFrom_cons_hidden _ hescaped, ih h]
    simp only [List.flatMap_cons, List.append_assoc]
  | case3 => exact absurd h Bool.false_ne_true
  | case4 c cs hpair hlone ih =>
    have hbackslash : c ≠ '\\' := by
      rintro rfl
      cases cs with
      | nil => exact hlone rfl rfl
      | cons d cs => exact hpair d cs rfl rfl
    rw [isStringBody, Bool.and_eq_true, bne_iff_ne] at h
    · have hstep : step lang (.quoted '"' true) c (cs ++ '"' :: rest) =
          (.hidden, .quoted '"' true) := by
        unfold step
        simp only [hbackslash, h.1, decide_false, Bool.and_false, Bool.false_eq_true, if_false]
        exact literalStep_of_ne_nil (hne cs) _
      rw [List.cons_append, maskFrom_cons_hidden _ hstep, ih h.2, List.flatMap_cons,
        List.append_assoc]
    · exact hpair
    · exact hlone

theorem maskFrom_backQuoted {body rest : List Char} (h : '`' ∉ body) :
    maskFrom lang (.quoted '`' false) (body ++ '`' :: rest) =
      body.flatMap Glyph.blank ++ '`' :: maskFrom lang (.code .fresh) rest := by
  rw [maskFrom_hidden (.quoted '`' false), maskFrom_cons_shown (.code .fresh) rfl]
  intro a c b hsplit
  have hc := not_mem_of_split h hsplit
  unfold step
  simp only [Bool.false_and, Bool.false_eq_true, hc, if_false]
  exact literalStep_of_ne_nil (by simp) _

theorem maskFrom_character_ahead {body rest : List Char} (h : '\'' ∉ body) :
    maskFrom lang (.character 0) (body ++ '\'' :: rest) =
      body.flatMap Glyph.blank ++ '\'' :: maskFrom lang (.code .fresh) rest := by
  rw [maskFrom_hidden (.character 0), maskFrom_cons_shown (.code .fresh) rfl]
  exact fun a c b hsplit => if_neg (not_mem_of_split h hsplit)

/-- A quote and the inside of a character literal open one. -/
theorem maskFrom_character {w : WordState} {body rest : List Char}
    (h : isCharacterBody body = true) :
    maskFrom lang (.code w) ('\'' :: (body ++ '\'' :: rest)) =
      '\'' :: (body.flatMap Glyph.blank ++ '\'' :: maskFrom lang (.code .fresh) rest) := by
  have hopen (n : Nat) (hn : characterBody? (body ++ '\'' :: rest) = some n) :
      step lang (.code w) '\'' (body ++ '\'' :: rest) = (.shown, .character n) := by
    show codeStep lang w '\'' _ = _
    unfold codeStep
    simp only [hn]
  match body, h with
  | [c], h =>
    have hc : c ≠ '\\' := by
      rintro rfl
      exact absurd h (by decide)
    have hbody : characterBody? ([c] ++ '\'' :: rest) = some 1 := by simp [characterBody?]
    rw [maskFrom_cons_shown _ (hopen 1 hbody), List.cons_append,
      maskFrom_cons_hidden (.character 0) rfl]
    rw [List.nil_append, maskFrom_cons_shown (.code .fresh) rfl, List.flatMap_singleton]
  | first :: c :: cs, h =>
    simp only [isCharacterBody, Bool.and_eq_true, beq_iff_eq, Bool.not_eq_true',
      List.contains_eq_mem, decide_eq_false_iff_not] at h
    obtain ⟨⟨rfl, hc⟩, hcs⟩ := h
    rw [maskFrom_cons_shown _ (hopen 2 (by simp [characterBody?, hc]))]
    rw [List.cons_append, maskFrom_cons_hidden (.character 1) rfl, List.cons_append,
      maskFrom_cons_hidden (.character 0) rfl, maskFrom_character_ahead hcs]
    simp only [List.flatMap_cons, List.append_assoc]

/-! ## Raw strings -/

/-- The hashes and the quote that open a raw string are shown. -/
theorem maskFrom_rawOpen (left hashes : Nat) (rest : List Char) :
    maskFrom lang (.rawOpen left hashes) (List.replicate left '#' ++ '"' :: rest) =
      List.replicate left '#' ++ '"' :: maskFrom lang (.raw hashes) rest := by
  induction left with
  | zero => exact maskFrom_cons_shown _ rfl
  | succ left ih =>
    rw [List.replicate_succ, List.cons_append, maskFrom_cons_shown (.rawOpen left hashes)
      rfl, ih, List.cons_append]

/-- The hashes that close a raw string are shown. -/
theorem maskFrom_rawClose (left : Nat) (rest : List Char) :
    maskFrom lang (.rawClose left) (List.replicate (left + 1) '#' ++ rest) =
      List.replicate (left + 1) '#' ++ maskFrom lang (.code .fresh) rest := by
  induction left with
  | zero => exact maskFrom_cons_shown _ rfl
  | succ left ih =>
    rw [List.replicate_succ, List.cons_append, maskFrom_cons_shown (.rawClose left) rfl,
      ih, List.cons_append]

theorem beginsWithHashes_replicate (n : Nat) (rest : List Char) :
    beginsWithHashes n (List.replicate n '#' ++ rest) = true := by
  induction n with
  | zero => rfl
  | succ n ih => exact ih

/-- Hashes that begin a text and a quote behind it are all of the text. -/
theorem exists_of_beginsWithHashes {n : Nat} {b rest : List Char}
    (h : beginsWithHashes n (b ++ '"' :: rest) = true) : ∃ b', b = List.replicate n '#' ++ b' := by
  induction n generalizing b with
  | zero => exact ⟨b, rfl⟩
  | succ n ih =>
    cases b with
    | nil => exact absurd h (by simp [beginsWithHashes])
    | cons c b =>
      have hc : c = '#' := by
        refine Decidable.byContradiction fun hc => ?_
        simp [beginsWithHashes, hc] at h
      subst hc
      obtain ⟨b', rfl⟩ := ih h
      exact ⟨b', rfl⟩

/-- A raw string is hidden up to the first quote with its hashes behind. -/
theorem maskFrom_raw {hashes : Nat} {body rest : List Char}
    (h : ¬('"' :: List.replicate hashes '#') <:+: body) :
    maskFrom lang (.raw hashes) (body ++ '"' :: (List.replicate hashes '#' ++ rest)) =
      body.flatMap Glyph.blank ++
        '"' :: (List.replicate hashes '#' ++ maskFrom lang (.code .fresh) rest) := by
  have hinside (a : List Char) (c : Char) (b : List Char) (hsplit : body = a ++ c :: b) :
      step lang (.raw hashes) c (b ++ '"' :: (List.replicate hashes '#' ++ rest)) =
        (.hidden, .raw hashes) := by
    refine if_neg fun hclose => ?_
    simp only [Bool.and_eq_true, decide_eq_true_eq] at hclose
    obtain ⟨b', rfl⟩ := exists_of_beginsWithHashes hclose.2
    exact h ⟨a, b', by rw [hsplit, hclose.1]; simp⟩
  rw [maskFrom_hidden _ hinside]
  cases hashes with
  | zero => rw [maskFrom_cons_shown (.code .fresh) rfl]; rfl
  | succ left =>
    have hclose : step lang (.raw (left + 1)) '"' (List.replicate (left + 1) '#' ++ rest) =
        (.shown, .rawClose left) := by
      unfold step
      simp only [beginsWithHashes_replicate]
      rfl
    rw [maskFrom_cons_shown _ hclose, maskFrom_rawClose]

/-- A raw string is opened by an `r` with no word before it, or with a lone `b`. -/
theorem maskFrom_rawString {w : WordState} (hw : w ≠ .inWord) {hashes : Nat}
    {body rest : List Char} (h : ¬('"' :: List.replicate hashes '#') <:+: body) :
    maskFrom .rust (.code w) ('r' :: (List.replicate hashes '#' ++
        '"' :: (body ++ '"' :: (List.replicate hashes '#' ++ rest)))) =
      'r' :: (List.replicate hashes '#' ++ '"' :: (body.flatMap Glyph.blank ++
        '"' :: (List.replicate hashes '#' ++ maskFrom .rust (.code .fresh) rest))) := by
  have hopen (cs : List Char) : step .rust (.code w) 'r' (List.replicate hashes '#' ++ '"' :: cs) =
      (.shown, .rawOpen hashes hashes) := by
    show codeStep .rust w 'r' _ = _
    unfold codeStep
    simp [hw, rawHashes?_replicate]
  rw [maskFrom_cons_shown _ (hopen _), maskFrom_rawOpen, maskFrom_raw h]

/-! ## Elements -/

/-- An `r` and hashes at the end of an element's neighbours make no raw string of a string. -/
theorem noRawPrefix_of_apart {before : List Char} {es : List Lexeme}
    (hvalid : ∀ e ∈ es, e.Valid lang) (h : Apart lang before es) :
    NoRawPrefix lang before (textOf es) := by
  intro hrust n quote hquoted
  induction es generalizing before n with
  | nil => exact absurd hquoted (by simp [textOf])
  | cons e es ih =>
    obtain ⟨halone, hlater⟩ := h
    -- only code can begin with hashes, and only a string with its quote
    have hstart (c : Char) (cs : List Char) (hc : e.text = c :: cs) :
        c = '#' ∨ n = 0 ∧ c = '"' := by
      rw [textOf_cons, hc] at hquoted
      cases n with
      | zero => exact .inr ⟨rfl, (List.cons.inj hquoted).1⟩
      | succ n => exact .inl (List.cons.inj hquoted).1
    have hother (c : Char) (cs : List Char) (hc : e.text = c :: cs) (hhash : c ≠ '#')
        (hquote : c ≠ '"') : False :=
      (hstart c cs hc).elim hhash fun h => hquote h.2
    cases e with
    | code t =>
      have ht : '"' ∉ t := fun hmem => by
        have := (hvalid _ List.mem_cons_self).1 _ hmem
        simp [isQuote] at this
      rw [textOf_cons, text_code] at hquoted
      obtain ⟨k, m, rfl, rfl, hrest⟩ := hashes_split ht hquoted
      rw [text_code] at hlater
      have := ih (fun e he => hvalid e (List.mem_cons_of_mem _ he)) hlater m hrest
      rwa [List.append_assoc, List.replicate_append_replicate] at this
    | quoted body =>
      obtain hhash | ⟨rfl, -⟩ := hstart _ _ rfl
      · exact absurd hhash (by decide)
      · rw [List.replicate_zero, List.append_nil]
        exact halone hrust
    | rawString byte hashes body =>
      cases byte
      · exact (hother 'r' _ rfl (by decide) (by decide)).elim
      · exact (hother 'b' _ rfl (by decide) (by decide)).elim
    | lineComment body ended => exact (hother _ _ rfl (by decide) (by decide)).elim
    | blockComment body => exact (hother _ _ rfl (by decide) (by decide)).elim
    | character body => exact (hother _ _ rfl (by decide) (by decide)).elim
    | backQuoted body => exact (hother _ _ rfl (by decide) (by decide)).elim
    | rawIdentifier name => exact (hother _ _ rfl (by decide) (by decide)).elim
    | lifetime name => exact (hother _ _ rfl (by decide) (by decide)).elim

/-- No literal and no comment begins with a character of a name. -/
theorem not_mem_name {name : List Char} (h : ∀ c ∈ name, Text.Identifier.isContinue c = true)
    {d : Char} (hd : Text.Identifier.isContinue d = false) : d ∉ name :=
  fun hmem => Bool.noConfusion ((h d hmem).symm.trans hd)

/-- An element with a delimiter at its end. -/
def isDelimited : Lexeme → Bool
  | .lineComment _ ended => ended
  | .code _ | .rawIdentifier _ | .lifetime _ => false
  | _ => true

/-- No word reaches over the end of a delimited element. -/
theorem wordAfter_of_isDelimited {e : Lexeme} (h : isDelimited e = true) (before : List Char) :
    wordAfter (before ++ e.text) = .fresh := by
  have hlast (t : List Char) {c : Char} (hc : isWordChar c = false) (htext : e.text = t ++ [c]) :
      wordAfter (before ++ e.text) = .fresh := by
    rw [htext, ← List.append_assoc, wordAfter_concat_of_not_isWordChar _ hc]
  cases e with
  | lineComment body ended =>
    obtain rfl : ended = true := h
    exact hlast ('/' :: '/' :: body) (c := '\n') (by decide)
      (by simp [text, opening, inside, closing])
  | blockComment body =>
    exact hlast ('/' :: '*' :: (body ++ ['*'])) (c := '/') (by decide)
      (by simp [text, opening, inside, closing])
  | quoted body =>
    exact hlast ('"' :: body) (c := '"') (by decide) (by simp [text, opening, inside, closing])
  | character body =>
    exact hlast ('\'' :: body) (c := '\'') (by decide) (by simp [text, opening, inside, closing])
  | backQuoted body =>
    exact hlast ('`' :: body) (c := '`') (by decide) (by simp [text, opening, inside, closing])
  | rawString byte hashes body =>
    have htext : (rawString byte hashes body).text =
        (rawString byte hashes body).opening ++ (body ++ '"' :: List.replicate hashes '#') := rfl
    cases hashes with
    | zero =>
      exact hlast ((rawString byte 0 body).opening ++ body) (c := '"') (by decide)
        (by rw [htext, List.append_assoc]; rfl)
    | succ n =>
      refine hlast ((rawString byte (n + 1) body).opening ++ (body ++ '"' :: List.replicate n '#'))
        (c := '#') (by decide) ?_
      rw [htext, List.replicate_succ']
      simp
  | code t => exact absurd h Bool.false_ne_true
  | rawIdentifier name => exact absurd h Bool.false_ne_true
  | lifetime name => exact absurd h Bool.false_ne_true

/-- A delimited element is shown as it should be, and code goes on behind it. -/
theorem maskFrom_delimited {w : WordState} {rest : List Char} {e : Lexeme}
    (hdelimited : isDelimited e = true) (hvalid : e.Valid lang)
    (hraw : ∀ byte hashes body, e = .rawString byte hashes body → w = .fresh) :
    maskFrom lang (.code w) (e.text ++ rest) = e.masked ++ maskFrom lang (.code .fresh) rest := by
  have hmasked : e.masked ++ maskFrom lang (.code .fresh) rest = e.opening ++
      (e.inside.flatMap Glyph.blank ++ (e.closing ++ maskFrom lang (.code .fresh) rest)) := by
    simp only [masked, List.append_assoc]
  have htext : e.text ++ rest = e.opening ++ (e.inside ++ (e.closing ++ rest)) := by
    simp only [text, List.append_assoc]
  rw [htext, hmasked]
  cases e with
  | lineComment body ended =>
    obtain rfl : ended = true := hdelimited
    have hinside : inside (.lineComment body true) ++ rest =
        '/' :: '/' :: (body ++ '\n' :: rest) := by
      simp [inside]
    show maskFrom lang (.code w) (inside (.lineComment body true) ++ rest) = _
    rw [hinside, maskFrom_cons_hidden .lineComment rfl, maskFrom_cons_hidden .lineComment rfl,
      maskFrom_lineComment hvalid, maskFrom_cons_shown (.code .fresh) rfl]
    simp [opening, inside, closing, Glyph.blank]
  | blockComment body =>
    have hinside : inside (.blockComment body) ++ rest =
        '/' :: '*' :: (body ++ '*' :: '/' :: rest) := by
      simp [inside]
    show maskFrom lang (.code w) (inside (.blockComment body) ++ rest) = _
    rw [hinside, maskFrom_cons_hidden .blockOpen rfl, maskFrom_cons_hidden .blockComment rfl,
      maskFrom_blockComment hvalid.1]
    simp [opening, inside, closing]
  | quoted body =>
    exact (maskFrom_cons_shown (.quoted '"' true) rfl).trans
      (congrArg ('"' :: ·) (maskFrom_quoted hvalid))
  | character body => exact maskFrom_character hvalid
  | backQuoted body =>
    obtain ⟨rfl, hbody⟩ := hvalid
    exact (maskFrom_cons_shown (.quoted '`' false) rfl).trans
      (congrArg ('`' :: ·) (maskFrom_backQuoted hbody))
  | rawString byte hashes body =>
    obtain rfl := hraw _ _ _ rfl
    obtain ⟨rfl, hbody⟩ := hvalid
    cases byte with
    | false =>
      simp only [opening, inside, closing, Bool.false_eq_true, if_false, List.cons_append,
        List.append_assoc, List.nil_append]
      rw [maskFrom_rawString (by decide) hbody]
    | true =>
      have hb (cs : List Char) :
          maskFrom .rust (.code .fresh) ('b' :: cs) = 'b' :: maskFrom .rust (.code .afterB) cs :=
        maskFrom_cons_shown _ rfl
      simp only [opening, inside, closing, if_true, List.cons_append, List.append_assoc,
        List.nil_append, hb]
      rw [maskFrom_rawString (by decide) hbody]
  | code t => exact absurd hdelimited Bool.false_ne_true
  | rawIdentifier name => exact absurd hdelimited Bool.false_ne_true
  | lifetime name => exact absurd hdelimited Bool.false_ne_true

/-- No literal begins before a character that no quote follows. -/
theorem characterBody?_eq_none {c : Char} {cs : List Char} (hc : c ≠ '\\')
    (h : cs.head? ≠ some '\'') : characterBody? (c :: cs) = none := by
  cases cs with
  | nil => simp [characterBody?, hc]
  | cons d cs =>
    have hd : d ≠ '\'' := fun hd => h (congrArg some hd)
    simp [characterBody?, hc, hd]

theorem maskFrom_code {before t rest : List Char} (hvalid : (Lexeme.code t).Valid lang)
    (halone : (Lexeme.code t).StandsAlone lang before rest)
    (hraw : NoRawPrefix lang (before ++ t) rest) :
    maskFrom lang (.code (wordAfter before)) (t ++ rest) =
      t ++ maskFrom lang (.code (wordAfter (before ++ t))) rest := by
  obtain ⟨hquotes, hline, hblock⟩ := hvalid
  have hnot (d : Char) (hd : isQuote lang d = true) : d ∉ t := fun hmem =>
    Bool.noConfusion (hd.symm.trans (hquotes d hmem))
  refine maskFrom_shown (hnot '"' rfl) (fun hgo => hnot '`' (by rw [hgo]; rfl)) ?_ ?_ hraw
  · exact fun a b hsplit => absurd rfl (not_mem_of_split (hnot '\'' rfl) hsplit)
  · intro a b hsplit
    cases b with
    | nil => exact halone (by rw [hsplit, List.getLast?_concat])
    | cons d b =>
      refine detached_cons (fun hd => hline ⟨a, b, ?_⟩) (fun hd => hblock ⟨a, b, ?_⟩) _
      · rw [hsplit, hd, List.append_assoc]; rfl
      · rw [hsplit, hd, List.append_assoc]; rfl

theorem maskFrom_rawIdentifier {before name rest : List Char}
    (hname : ∀ c ∈ name, Text.Identifier.isContinue c = true)
    (hraw : NoRawPrefix .rust (before ++ 'r' :: '#' :: name) rest) :
    maskFrom .rust (.code (wordAfter before)) ('r' :: '#' :: name ++ rest) =
      'r' :: '#' :: name ++
        maskFrom .rust (.code (wordAfter (before ++ 'r' :: '#' :: name))) rest := by
  have hnot {d : Char} (hd : Text.Identifier.isContinue d = false) (hr : d ≠ 'r') (hh : d ≠ '#') :
      d ∉ 'r' :: '#' :: name := by
    simp [hr, hh, not_mem_name hname hd]
  refine maskFrom_shown (hnot rfl (by decide) (by decide)) nofun ?_ ?_ hraw
  · exact fun a b hsplit =>
      absurd rfl (not_mem_of_split (hnot (d := '\'') rfl (by decide) (by decide)) hsplit)
  · exact fun a b hsplit =>
      absurd rfl (not_mem_of_split (hnot (d := '/') rfl (by decide) (by decide)) hsplit)

theorem maskFrom_lifetime {before name rest : List Char} (hne : name ≠ [])
    (hname : ∀ c ∈ name, Text.Identifier.isContinue c = true) (hrest : rest.head? ≠ some '\'')
    (hraw : NoRawPrefix .rust (before ++ '\'' :: name) rest) :
    maskFrom .rust (.code (wordAfter before)) ('\'' :: name ++ rest) =
      '\'' :: name ++ maskFrom .rust (.code (wordAfter (before ++ '\'' :: name))) rest := by
  have hnot {d : Char} (hd : Text.Identifier.isContinue d = false) : d ∉ name :=
    not_mem_name hname hd
  have hquote := hnot (d := '\'') rfl
  -- the quote opens no literal: the name is longer than a character, or no quote follows it
  have hsingle : characterBody? (name ++ rest) = none := by
    cases name with
    | nil => exact absurd rfl hne
    | cons c cs =>
      refine characterBody?_eq_none (fun hc => hnot (d := '\\') rfl (hc ▸ List.mem_cons_self)) ?_
      cases cs with
      | nil => exact hrest
      | cons d cs => exact fun hd => hquote (by simp [Option.some.inj hd])
  refine maskFrom_shown (by simp [hnot (d := '"') rfl]) nofun ?_ ?_ hraw
  · intro a b hsplit
    cases a with
    | nil => rw [← (List.cons.inj hsplit).2]; exact hsingle
    | cons c a => exact absurd rfl (not_mem_of_split hquote (List.cons.inj hsplit).2)
  · intro a b hsplit
    cases a with
    | nil => exact absurd (List.cons.inj hsplit).1 (by decide)
    | cons c a => exact absurd rfl (not_mem_of_split (hnot (d := '/') rfl) (List.cons.inj hsplit).2)

/-- One element is shown as it should be, whatever stands before and behind it. -/
theorem maskFrom_lexeme {before rest : List Char} {e : Lexeme} (hvalid : e.Valid lang)
    (halone : e.StandsAlone lang before rest) (hraw : NoRawPrefix lang (before ++ e.text) rest) :
    maskFrom lang (.code (wordAfter before)) (e.text ++ rest) =
      e.masked ++ maskFrom lang (.code (wordAfter (before ++ e.text))) rest := by
  cases e with
  | code t =>
    rw [text_code] at hraw ⊢
    rw [masked_code]
    exact maskFrom_code hvalid halone hraw
  | rawIdentifier name =>
    obtain ⟨rfl, -, hname⟩ := hvalid
    rw [text_rawIdentifier] at hraw ⊢
    rw [masked_rawIdentifier]
    exact maskFrom_rawIdentifier hname hraw
  | lifetime name =>
    obtain ⟨rfl, hne, hname⟩ := hvalid
    rw [text_lifetime] at hraw ⊢
    rw [masked_lifetime]
    exact maskFrom_lifetime hne hname halone hraw
  | lineComment body ended =>
    cases ended with
    | true =>
      rw [wordAfter_of_isDelimited rfl]
      exact maskFrom_delimited rfl hvalid nofun
    | false =>
      obtain rfl : rest = [] := halone rfl
      have htext : (Lexeme.lineComment body false).text ++ [] = '/' :: '/' :: (body ++ []) := by
        simp [text, opening, inside, closing]
      have hmasked : (Lexeme.lineComment body false).masked =
          Glyph.blank '/' ++ (Glyph.blank '/' ++ body.flatMap Glyph.blank) := by
        simp [masked, opening, inside, closing]
      rw [htext, hmasked, maskFrom_cons_hidden .lineComment rfl,
        maskFrom_cons_hidden .lineComment rfl, maskFrom_lineComment hvalid, List.append_assoc,
        List.append_assoc]
      rfl
  | rawString byte hashes body =>
    rw [wordAfter_of_isDelimited rfl]
    exact maskFrom_delimited rfl hvalid fun _ _ _ _ => wordAfter_of_not_isWordChar halone
  | _ =>
    rw [wordAfter_of_isDelimited rfl]
    exact maskFrom_delimited rfl hvalid nofun

/-- Behind some text, elements that are read as they are written are masked one by one. -/
theorem maskFrom_lexemes {before : List Char} {es : List Lexeme} (hvalid : ∀ e ∈ es, e.Valid lang)
    (h : Apart lang before es) :
    maskFrom lang (.code (wordAfter before)) (textOf es) = es.flatMap masked := by
  induction es generalizing before with
  | nil => rfl
  | cons e es ih =>
    obtain ⟨halone, hlater⟩ := h
    have hvalid' : ∀ f ∈ es, f.Valid lang := fun f hf => hvalid f (List.mem_cons_of_mem e hf)
    rw [textOf_cons, maskFrom_lexeme (hvalid e List.mem_cons_self) halone
      (noRawPrefix_of_apart hvalid' hlater), ih hvalid' hlater, List.flatMap_cons]

/-- A source that is put together from elements, none of which reads otherwise because of its
neighbours, is masked element by element: all but the insides of comments and literals is shown. -/
theorem mask_lexemes {es : List Lexeme} (hvalid : ∀ e ∈ es, e.Valid lang) (h : Apart lang [] es) :
    mask lang (textOf es) = es.flatMap masked :=
  maskFrom_lexemes hvalid h

/-- Raw names, raw strings and lifetimes beside comments. -/
theorem mask_lexemes_field :
    mask .rust (textOf [.rawIdentifier ['r', 'e', 'f'], .code [':', ' ', '&'], .lifetime ['a'],
        .code [' ', '='], .rawString true 1 ['{', '"', '\\'], .lineComment ['"'] true,
        .quoted ['\\', '"']]) =
      "r#ref: &'a =br#\"   \"#   \n\"  \"".toList :=
  mask_lexemes (by decide) (by decide)

/-! ## Pairs of neighbours -/

/-- Two neighbours make no other element when only the two are looked at. -/
def SideBySide (lang : SourceLang) : Lexeme → Lexeme → Prop
  | .code _, .code _ => False
  | .code t, .lineComment .. | .code t, .blockComment _ => t.getLast? ≠ some '/'
  | .code t, .quoted _ => lang = .rust → endsInRawPrefix Text.Identifier.isContinue t = false
  | e, .rawString .. => ∀ c ∈ e.text.getLast?, Text.Identifier.isContinue c = false
  | .lifetime _, f => ∀ c ∈ f.text.head?, c ≠ '\'' ∧ Text.Identifier.isContinue c = false
  | _, _ => True

/-- Elements are masked one by one as soon as any two neighbours can stand side by side. -/
def MaskedInPairs (lang : SourceLang) (es : List Lexeme) : Prop :=
  (∀ e ∈ es, e.Valid lang) → es.IsChain (SideBySide lang) →
    mask lang (textOf es) = es.flatMap masked

/-- The `r` of a raw string is looked for by its bytes: behind a letter that is not ASCII it stands
alone, and so does the name `r` of a raw identifier behind its hash. -/
theorem mask_lexemes_in_pairs :
    ¬MaskedInPairs .rust [.code ['é', 'r'], .quoted ['\\', '"']] ∧
      ¬MaskedInPairs .rust [.rawIdentifier ['r'], .quoted ['\\', '"']] := by
  have hshown (e : Lexeme) (hvalid : e.Valid .rust)
      (hside : SideBySide .rust e (.quoted ['\\', '"']))
      (hmask : mask .rust (textOf [e, .quoted ['\\', '"']]) ≠
        [e, .quoted ['\\', '"']].flatMap masked) :
      ¬MaskedInPairs .rust [e, .quoted ['\\', '"']] := fun h =>
    hmask (h (List.forall_mem_cons.2 ⟨hvalid, by decide⟩) (List.isChain_pair.2 hside))
  constructor
  · exact hshown _ (by decide) (fun _ => by decide) (by decide)
  · exact hshown _ (by decide) trivial (by decide)

end Masked

end RpcBindings
