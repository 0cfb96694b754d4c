import RpcBindings.Masked.Bytewise
import RpcBindings.Proofs.Masked.Index
import RpcBindings.Proofs.Masked.Lookahead
import RpcBindings.Proofs.Masked.Word

/-!
Where the byte search finds the end of a literal or comment.

The loop over bytes looks for the end of a literal or comment at once, the scan goes through it one
character at a time. Both find the same end, and the scan leaves the bytes before it blanked
(`exists_lineComment`, `exists_blockComment`, `exists_quoted`, `exists_raw`, `exists_character`).
-/

namespace RpcBindings.Masked.Bytewise

variable {lang : SourceLang} {cs rest : List Char} {c q : Char}

/-! ## Bytes of the scan -/

/-- The bytes that masking leaves of a text in their places, from a mode on. -/
def placedFrom (lang : SourceLang) (mode : ScanMode) (cs : List Char) : List UInt8 :=
  (glyphsFrom lang mode cs).flatMap Glyph.bytesInPlace

theorem placedFrom_cons (mode : ScanMode) (c : Char) (rest : List Char) :
    placedFrom lang mode (c :: rest) = Glyph.bytesInPlace ⟨c, (step lang mode c rest).1⟩ ++
      placedFrom lang (step lang mode c rest).2 rest :=
  List.flatMap_cons

theorem placedFrom_shown {mode : ScanMode} (next : ScanMode)
    (h : step lang mode c rest = (.shown, next)) :
    placedFrom lang mode (c :: rest) = String.utf8EncodeChar c ++ placedFrom lang next rest := by
  rw [placedFrom_cons, h]
  rfl

theorem placedFrom_hidden {mode : ScanMode} (next : ScanMode)
    (h : step lang mode c rest = (.hidden, next)) :
    placedFrom lang mode (c :: rest) =
      (String.utf8EncodeChar c).map Glyph.blankByte ++ placedFrom lang next rest := by
  rw [placedFrom_cons, h]
  rfl

/-! ## Bytes and characters -/

/-- A byte of ASCII begins the bytes of a text exactly when its character begins the text. -/
theorem head?_bytes_eq_iff {d : Char} (hd : d.utf8Size = 1) (cs : List Char) :
    (Text.bytes cs).head? = some d.toUInt8 ↔ cs.head? = some d := by
  cases cs with
  | nil => exact ⟨nofun, nofun⟩
  | cons c cs =>
    by_cases hc : c.utf8Size = 1
    · rw [Text.bytes_cons_of_narrow hc, List.head?_cons, List.head?_cons, Option.some.injEq,
        Option.some.injEq]
      exact ⟨Text.eq_of_toUInt8_eq hc hd, congrArg _⟩
    · obtain ⟨x, xs, hx⟩ := List.exists_cons_of_ne_nil (@String.utf8EncodeChar_ne_nil c)
      have hwide := Text.le_of_mem_wide hc (hx ▸ List.mem_cons_self)
      rw [Text.bytes_cons, hx, List.cons_append, List.head?_cons, List.head?_cons,
        Option.some.injEq, Option.some.injEq]
      refine iff_of_false ?_ ?_
      · rintro rfl
        exact absurd (Text.toUInt8_lt_of_narrow hd) (UInt8.not_lt.2 hwide)
      · rintro rfl
        exact hc hd

/-- No byte of another character is the one of a character of ASCII. -/
theorem ne_of_mem_char {d : Char} (hd : d.utf8Size = 1) (hc : c ≠ d) :
    ∀ b ∈ String.utf8EncodeChar c, b ≠ d.toUInt8 := by
  rintro b hb rfl
  by_cases hsize : c.utf8Size = 1
  · rw [Text.utf8EncodeChar_of_narrow hsize, List.mem_singleton] at hb
    exact hc (Text.eq_of_toUInt8_eq hsize hd hb.symm)
  · exact absurd (Text.toUInt8_lt_of_narrow hd) (UInt8.not_lt.2 (Text.le_of_mem_wide hsize hb))

/-- A pattern is not found where its first byte is missing. -/
theorem findBytes?_append {p : UInt8} {ps xs : List UInt8} (h : ∀ x ∈ xs, x ≠ p)
    (ys : List UInt8) :
    Text.findBytes? (p :: ps) (xs ++ ys) = (Text.findBytes? (p :: ps) ys).map (xs.length + ·) := by
  induction xs with
  | nil => simp
  | cons x xs ih =>
    have hx : (p :: ps).isPrefixOf (x :: (xs ++ ys)) = false := by
      rw [List.isPrefixOf_cons_cons, beq_eq_false_iff_ne.2 (h x List.mem_cons_self).symm,
        Bool.false_and]
    rw [List.cons_append, Text.findBytes?, hx, ih fun y hy => h y (List.mem_cons_of_mem x hy)]
    cases Text.findBytes? (p :: ps) ys with
    | none => rfl
    | some n =>
      show some (xs.length + n + 1) = some ((x :: xs).length + n)
      rw [List.length_cons]
      congr 1
      omega

theorem toNat_ofNat_mod_add {n k m : Nat} (hk : k + m ≤ 256) (hpos : 0 < k) :
    m ≤ (UInt8.ofNat (n % k + m)).toNat ∧ (UInt8.ofNat (n % k + m)).toNat < k + m := by
  have hlt : n % k < k := Nat.mod_lt _ hpos
  have hsize : UInt8.size = 256 := rfl
  rw [UInt8.toNat_ofNat_of_lt' (by omega)]
  omega

/-- The first byte of a character says how many there are, and the others continue it. -/
theorem exists_char_bytes (c : Char) : ∃ b bs, String.utf8EncodeChar c = b :: bs ∧
    bs.length + 1 = c.utf8Size ∧ widthOf b = c.utf8Size ∧ ∀ x ∈ bs, isContinuation x = true := by
  have hcontinues (n : Nat) : isContinuation (UInt8.ofNat (n % 64 + 128)) = true := by
    obtain ⟨hle, hlt⟩ := @toNat_ofNat_mod_add n 64 128 (by decide) (by decide)
    unfold isContinuation
    rw [Bool.and_eq_true, decide_eq_true_eq, decide_eq_true_eq]
    exact ⟨UInt8.le_iff_toNat_le.2 hle, UInt8.le_iff_toNat_le.2 (Nat.le_of_lt_succ hlt)⟩
  have hwidth {b : UInt8} {k n : Nat} (hb : k ≤ b.toNat ∧ b.toNat < n)
      (h : ∀ x, k ≤ x → x < n → (if x < 128 then 1 else if x < 224 then 2 else
        if x < 240 then 3 else 4) = c.utf8Size) : widthOf b = c.utf8Size := by
    unfold widthOf
    simp only [UInt8.lt_iff_toNat_lt]
    exact h b.toNat hb.1 hb.2
  have hlen := String.length_utf8EncodeChar c
  unfold String.utf8EncodeChar at hlen ⊢
  extract_lets at hlen ⊢
  split
  · rename_i hv
    have hone := Char.utf8Size_eq_one_iff.2 (UInt32.le_iff_toNat_le.2 hv)
    refine ⟨_, [], rfl, hone.symm, hwidth (k := 0) (n := 128) ⟨Nat.zero_le _, ?_⟩ ?_, nofun⟩
    · have hsize : UInt8.size = 256 := rfl
      rw [UInt8.toNat_ofNat_of_lt' (by omega)]
      omega
    · intro x _ hx
      rw [if_pos hx, hone]
  · rename_i hv
    rw [if_neg hv] at hlen
    split
    · rename_i hv'
      rw [if_pos hv'] at hlen
      refine ⟨_, _, rfl, hlen, hwidth (toNat_ofNat_mod_add (by decide) (by decide)) ?_, ?_⟩
      · intro x hx hlt
        rw [if_neg (by omega), if_pos (by omega), ← hlen]
        rfl
      · exact List.forall_mem_singleton.2 (hcontinues _)
    · rename_i hv'
      rw [if_neg hv'] at hlen
      split
      · rename_i hv''
        rw [if_pos hv''] at hlen
        refine ⟨_, _, rfl, hlen, hwidth (toNat_ofNat_mod_add (by decide) (by decide)) ?_, ?_⟩
        · intro x hx hlt
          rw [if_neg (by omega), if_neg (by omega), if_pos (by omega), ← hlen]
          rfl
        · exact List.forall_mem_cons.2 ⟨hcontinues _, List.forall_mem_singleton.2 (hcontinues _)⟩
      · rename_i hv''
        rw [if_neg hv''] at hlen
        refine ⟨_, _, rfl, hlen, hwidth (toNat_ofNat_mod_add (by decide) (by decide)) ?_, ?_⟩
        · intro x hx hlt
          rw [if_neg (by omega), if_neg (by omega), if_neg (by omega), ← hlen]
          rfl
        · exact List.forall_mem_cons.2 ⟨hcontinues _, List.forall_mem_cons.2
            ⟨hcontinues _, List.forall_mem_singleton.2 (hcontinues _)⟩⟩

theorem ne_nil_of_getLast? (h : cs.getLast? = some c) : cs ≠ [] := by
  rintro rfl
  exact absurd h nofun

theorem length_utf8EncodeChar_add (c : Char) (cs : List Char) :
    (String.utf8EncodeChar c).length + Text.byteLength cs = Text.byteLength (c :: cs) := by
  rw [String.length_utf8EncodeChar, Text.byteLength_cons]

/-! ## Comments -/

/-- A line comment is hidden up to the line feed that is found, and what follows reads as in code. -/
theorem exists_lineComment (cs : List Char) : ∃ a b, cs = a ++ b ∧
    (Text.findBytes? ['\n'.toUInt8] (Text.bytes cs)).getD (Text.bytes cs).length =
      Text.byteLength a ∧
    (b = [] ∨ b.head? = some '\n') ∧
    ∀ w, placedFrom lang .lineComment cs =
      (Text.bytes a).map Glyph.blankByte ++ placedFrom lang (.code w) b := by
  induction cs with
  | nil => exact ⟨[], [], rfl, rfl, .inl rfl, fun _ => rfl⟩
  | cons c cs ih =>
    by_cases hc : c = '\n'
    · subst hc
      refine ⟨[], '\n' :: cs, rfl, rfl, .inr rfl, fun w => ?_⟩
      have hcode : step lang (.code w) '\n' cs = (.shown, .code .fresh) := by
        cases w <;> rfl
      rw [placedFrom_shown (.code .fresh) rfl, placedFrom_shown _ hcode]
      rfl
    · obtain ⟨a, b, rfl, hfind, hb, hplaced⟩ := ih
      have hstep : step lang .lineComment c (a ++ b) = (.hidden, .lineComment) := if_neg hc
      refine ⟨c :: a, b, rfl, ?_, hb, fun w => ?_⟩
      · rw [Text.bytes_cons, findBytes?_append (ne_of_mem_char (by decide) hc), List.length_append,
          ← length_utf8EncodeChar_add, ← hfind]
        cases Text.findBytes? ['\n'.toUInt8] (Text.bytes (a ++ b)) <;> rfl
      · rw [placedFrom_hidden .lineComment hstep, hplaced w, Text.bytes_cons, List.map_append,
          List.append_assoc]

/-- A block comment is hidden up to the end that is found. -/
theorem exists_blockComment (cs : List Char) : ∃ a b, cs = a ++ b ∧
    ((Text.findBytes? ['*'.toUInt8, '/'.toUInt8] (Text.bytes cs)).map (· + 2)).getD
      (Text.bytes cs).length = Text.byteLength a ∧
    (b = [] ∨ a.getLast? = some '/') ∧
    placedFrom lang .blockComment cs =
      (Text.bytes a).map Glyph.blankByte ++ placedFrom lang (.code .fresh) b := by
  induction cs with
  | nil => exact ⟨[], [], rfl, rfl, .inl rfl, rfl⟩
  | cons c cs ih =>
    by_cases hend : c = '*' ∧ cs.head? = some '/'
    · obtain ⟨rfl, hslash⟩ := hend
      obtain ⟨cs, rfl⟩ : ∃ t, cs = '/' :: t := by
        cases cs with
        | nil => exact absurd hslash nofun
        | cons d t => exact ⟨t, by rw [Option.some.inj hslash]⟩
      refine ⟨['*', '/'], cs, rfl, ?_, .inr rfl, rfl⟩
      rw [Text.bytes_cons_of_narrow (by decide), Text.bytes_cons_of_narrow (by decide),
        Text.findBytes?]
      rfl
    · obtain ⟨a, b, rfl, hfind, hb, hplaced⟩ := ih
      have hstep : step lang .blockComment c (a ++ b) = (.hidden, .blockComment) := by
        refine if_neg fun h => hend ?_
        simpa using h
      refine ⟨c :: a, b, rfl, ?_, ?_, ?_⟩
      · have hskip : Text.findBytes? ['*'.toUInt8, '/'.toUInt8] (Text.bytes (c :: (a ++ b))) =
            (Text.findBytes? ['*'.toUInt8, '/'.toUInt8] (Text.bytes (a ++ b))).map
              ((String.utf8EncodeChar c).length + ·) := by
          by_cases hstar : c = '*'
          · -- a star that no slash follows
            subst hstar
            have hslash : (Text.bytes (a ++ b)).head? ≠ some '/'.toUInt8 := fun h =>
              hend ⟨rfl, (head?_bytes_eq_iff (by decide) _).1 h⟩
            have hnone : ['*'.toUInt8, '/'.toUInt8].isPrefixOf
                ('*'.toUInt8 :: Text.bytes (a ++ b)) = false := by
              refine Bool.eq_false_iff.2 fun h => hslash ?_
              obtain ⟨t, ht⟩ := List.isPrefixOf_iff_prefix.1 h
              rw [← (List.cons.inj ht).2]
              rfl
            rw [Text.bytes_cons_of_narrow (by decide), Text.findBytes?, hnone]
            cases Text.findBytes? ['*'.toUInt8, '/'.toUInt8] (Text.bytes (a ++ b)) with
            | none => rfl
            | some n => exact congrArg some (Nat.add_comm n 1)
          · rw [Text.bytes_cons, findBytes?_append (ne_of_mem_char (by decide) hstar)]
        rw [hskip, Text.bytes_cons, List.length_append, ← length_utf8EncodeChar_add, ← hfind]
        cases Text.findBytes? ['*'.toUInt8, '/'.toUInt8] (Text.bytes (a ++ b)) with
        | none => rfl
        | some n => exact Nat.add_assoc _ _ _
      · refine hb.imp_right fun h => ?_
        rw [List.getLast?_cons, h, Option.getD_some]
      · rw [placedFrom_hidden .blockComment hstep, hplaced, Text.bytes_cons, List.map_append,
          List.append_assoc]

/-! ## Quoted literals -/

/-- Bytes blanked where they stand, but for the last one. -/
def blankButLast (bs : List UInt8) : List UInt8 :=
  bs.dropLast.map Glyph.blankByte ++ bs.getLast?.toList

theorem blankButLast_append {ys : List UInt8} (h : ys ≠ []) (xs : List UInt8) :
    blankButLast (xs ++ ys) = xs.map Glyph.blankByte ++ blankButLast ys := by
  unfold blankButLast
  rw [List.dropLast_append_of_ne_nil h, List.map_append, List.append_assoc,
    List.getLast?_append_of_ne_nil xs h]

theorem bytes_ne_nil (h : cs ≠ []) : Text.bytes cs ≠ [] := by
  intro hbytes
  have hlen := congrArg List.length hbytes
  rw [Text.length_bytes] at hlen
  exact h (Text.byteLength_eq_zero hlen)

theorem blankButLast_cons {a : List Char} (h : a ≠ []) (c : Char) :
    blankButLast (Text.bytes (c :: a)) =
      (String.utf8EncodeChar c).map Glyph.blankByte ++ blankButLast (Text.bytes a) := by
  rw [Text.bytes_cons, blankButLast_append (bytes_ne_nil h)]

/-- A character of a literal that runs on is hidden, or torn at the end of the text. -/
theorem placedFrom_literal {mode next : ScanMode} {a b : List Char}
    (h : step lang mode c rest = literalStep rest next) (hrest : rest = a ++ b)
    (ha : rest ≠ [] → a ≠ [])
    (hplaced : placedFrom lang next rest =
      blankButLast (Text.bytes a) ++ placedFrom lang (.code .fresh) b) :
    placedFrom lang mode (c :: rest) =
      blankButLast (Text.bytes (c :: a)) ++ placedFrom lang (.code .fresh) b := by
  by_cases hnil : rest = []
  · rw [hnil] at hrest h
    obtain ⟨rfl, rfl⟩ := List.append_eq_nil_iff.1 hrest.symm
    rw [hnil, placedFrom_cons, h, Text.bytes_cons, Text.bytes_nil, List.append_nil]
    rfl
  · rw [placedFrom_hidden next (h.trans (literalStep_of_ne_nil hnil next)), hplaced,
      blankButLast_cons (ha hnil), List.append_assoc]

theorem quotedLength_cons {b quote : UInt8} {escapes : Bool}
    (hb : (escapes && decide (b = '\\'.toUInt8)) = false) (hquote : b ≠ quote) (bs : List UInt8) :
    quotedLength quote escapes (b :: bs) = 1 + quotedLength quote escapes bs := by
  rw [quotedLength.eq_def]
  simp only [hb, Bool.false_eq_true, if_false, if_neg hquote]

theorem quotedLength_close {quote : UInt8} {escapes : Bool}
    (h : (escapes && decide (quote = '\\'.toUInt8)) = false) (bs : List UInt8) :
    quotedLength quote escapes (quote :: bs) = 1 := by
  rw [quotedLength.eq_def]
  simp only [h, Bool.false_eq_true, if_false, if_true]

/-- Bytes that neither escape nor close are passed. -/
theorem quotedLength_append {quote : UInt8} {escapes : Bool} {xs : List UInt8}
    (h : ∀ x ∈ xs, (escapes && decide (x = '\\'.toUInt8)) = false ∧ x ≠ quote) (ys : List UInt8) :
    quotedLength quote escapes (xs ++ ys) = xs.length + quotedLength quote escapes ys := by
  induction xs with
  | nil => exact (Nat.zero_add _).symm
  | cons x xs ih =>
    obtain ⟨hx, hquote⟩ := h x List.mem_cons_self
    rw [List.cons_append, quotedLength_cons hx hquote,
      ih fun y hy => h y (List.mem_cons_of_mem x hy), List.length_cons]
    omega

/-- No byte that continues a character is one of ASCII. -/
theorem ne_of_isContinuation {b : UInt8} (hb : isContinuation b = true) {d : Char}
    (hd : d.utf8Size = 1) : b ≠ d.toUInt8 := by
  rintro rfl
  unfold isContinuation at hb
  rw [Bool.and_eq_true, decide_eq_true_eq] at hb
  exact absurd (Text.toUInt8_lt_of_narrow hd) (UInt8.not_lt.2 hb.1)

/-- A backslash is passed with the byte behind it, and then what is left of that character is. -/
theorem quotedLength_escape (hq : q.utf8Size = 1) (d : Char) (cs : List Char) :
    quotedLength q.toUInt8 true ('\\'.toUInt8 :: Text.bytes (d :: cs)) =
      1 + d.utf8Size + quotedLength q.toUInt8 true (Text.bytes cs) := by
  obtain ⟨b, bs, hbs, hlen, -, hcontinues⟩ := exists_char_bytes d
  have hpass : ∀ x ∈ bs, (true && decide (x = '\\'.toUInt8)) = false ∧ x ≠ q.toUInt8 := fun x hx =>
    have hcontinues := hcontinues x hx
    ⟨by rw [Bool.true_and]; exact decide_eq_false (ne_of_isContinuation hcontinues (by decide)),
      ne_of_isContinuation hcontinues hq⟩
  have hescape : quotedLength q.toUInt8 true ('\\'.toUInt8 :: b :: (bs ++ Text.bytes cs)) =
      2 + quotedLength q.toUInt8 true (bs ++ Text.bytes cs) := by
    rw [quotedLength]
    rfl
  rw [Text.bytes_cons, hbs, List.cons_append, hescape, quotedLength_append hpass]
  omega

/-- No byte of a character escapes the next one, unless the character is a backslash that does. -/
theorem not_escape_of_mem_char {escapes : Bool} {d : Char} (hd : d ≠ '\\' ∨ escapes = false) :
    ∀ x ∈ String.utf8EncodeChar d, (escapes && decide (x = '\\'.toUInt8)) = false := by
  intro x hx
  rcases hd with hd | rfl
  · rw [decide_eq_false (ne_of_mem_char (by decide) hd x hx), Bool.and_false]
  · rfl

/-- A quoted literal ends behind the quote that is found, and its last byte is left. -/
theorem exists_quoted (hq : q.utf8Size = 1) (escapes : Bool) (hescape : escapes = true → q ≠ '\\')
    (cs : List Char) : ∃ a b, cs = a ++ b ∧
      quotedLength q.toUInt8 escapes (Text.bytes cs) = Text.byteLength a ∧
      (b = [] ∨ a.getLast? = some q) ∧ (cs ≠ [] → a ≠ []) ∧
      placedFrom lang (.quoted q escapes) cs =
        blankButLast (Text.bytes a) ++ placedFrom lang (.code .fresh) b := by
  -- a backslash takes the character behind it along
  induction hn : cs.length using Nat.strong_induction_on generalizing cs with
  | _ n ih =>
    subst hn
    cases cs with
    | nil => exact ⟨[], [], rfl, rfl, .inl rfl, fun h => h, rfl⟩
    | cons c rest =>
      by_cases hback : escapes = true ∧ c = '\\'
      · obtain ⟨rfl, rfl⟩ := hback
        have hstep : step lang (.quoted q true) '\\' rest = literalStep rest (.escaped q) := rfl
        cases rest with
        | nil => exact ⟨['\\'], [], rfl, rfl, .inl rfl, fun _ => List.cons_ne_nil _ _, rfl⟩
        | cons d rest =>
          obtain ⟨a, b, rfl, hlen, hb, ha, hplaced⟩ :=
            ih rest.length (by simp only [List.length_cons]; omega) rest rfl
          have hinner := @placedFrom_literal lang (a ++ b) d (.escaped q) (.quoted q true) a b rfl rfl
            ha hplaced
          refine ⟨'\\' :: d :: a, b, rfl, ?_, ?_, fun _ => List.cons_ne_nil _ _,
            placedFrom_literal hstep rfl (fun _ => List.cons_ne_nil _ _) hinner⟩
          · rw [Text.bytes_cons_of_narrow (by decide), quotedLength_escape hq, hlen,
              Text.byteLength_cons, Text.byteLength_cons, show '\\'.utf8Size = 1 by decide]
            omega
          · refine hb.imp_right fun h => ?_
            rw [List.getLast?_cons_cons, List.getLast?_cons, h, Option.getD_some]
      · have hpass : ∀ x ∈ String.utf8EncodeChar c, (escapes && decide (x = '\\'.toUInt8)) = false := by
          refine not_escape_of_mem_char ?_
          cases escapes with
          | false => exact .inr rfl
          | true => exact .inl fun h => hback ⟨rfl, h⟩
        have hcond : ¬(escapes && decide (c = '\\')) = true := by
          simpa using hback
        by_cases hclose : c = q
        · subst hclose
          have hstep : step lang (.quoted c escapes) c rest = (.shown, .code .fresh) := by
            unfold step
            simp only [if_neg hcond, if_true]
          refine ⟨[c], rest, rfl, ?_, .inr rfl, fun _ => List.cons_ne_nil _ _, ?_⟩
          · have hb := hpass c.toUInt8 (by
              rw [Text.utf8EncodeChar_of_narrow hq]
              exact List.mem_singleton_self _)
            rw [Text.bytes_cons_of_narrow hq, quotedLength_close hb, Text.byteLength_cons, hq,
              Text.byteLength_nil]
          · rw [placedFrom_shown _ hstep, Text.bytes_cons_of_narrow hq,
              Text.utf8EncodeChar_of_narrow hq]
            rfl
        · have hstep : step lang (.quoted q escapes) c rest =
              literalStep rest (.quoted q escapes) := by
            unfold step
            simp only [if_neg hcond, if_neg hclose]
          obtain ⟨a, b, rfl, hlen, hb, ha, hplaced⟩ :=
            ih rest.length (by simp only [List.length_cons]; omega) rest rfl
          refine ⟨c :: a, b, rfl, ?_, ?_, fun _ => List.cons_ne_nil _ _,
            placedFrom_literal hstep rfl ha hplaced⟩
          · rw [Text.bytes_cons, quotedLength_append (fun x hx => ⟨hpass x hx,
              ne_of_mem_char hq hclose x hx⟩), hlen, length_utf8EncodeChar_add]
          · refine hb.imp_right fun h => ?_
            rw [List.getLast?_cons, h, Option.getD_some]

/-! ## Raw strings -/

theorem bytes_replicate_hash (n : Nat) :
    Text.bytes (List.replicate n '#') = List.replicate n '#'.toUInt8 := by
  induction n with
  | zero => rfl
  | succ n ih =>
    rw [List.replicate_succ, List.replicate_succ, Text.bytes_cons_of_narrow (by decide), ih]

/-- The hashes and the quote that open a raw string are the same in bytes. -/
theorem rawHashes?_bytes (cs : List Char) : rawHashes? (Text.bytes cs) = Masked.rawHashes? cs := by
  induction cs with
  | nil => rfl
  | cons c cs ih =>
    by_cases hquote : c = '"'
    · subst hquote
      rfl
    · by_cases hhash : c = '#'
      · subst hhash
        rw [Text.bytes_cons_of_narrow (by decide), rawHashes?, ih]
        rfl
      · obtain ⟨b, bs, hbs, -⟩ := exists_char_bytes c
        have hb : b ∈ String.utf8EncodeChar c := hbs ▸ List.mem_cons_self
        rw [Text.bytes_cons, hbs, List.cons_append, rawHashes?,
          if_neg (ne_of_mem_char (by decide) hquote b hb),
          if_neg (ne_of_mem_char (by decide) hhash b hb)]
        unfold Masked.rawHashes?
        split
        · rename_i heq
          exact absurd (List.cons.inj heq).1 hquote
        · rename_i heq
          exact absurd (List.cons.inj heq).1 hhash
        · rfl

/-- Hashes begin a text where their bytes begin its bytes. -/
theorem isPrefixOf_hashes (n : Nat) (cs : List Char) :
    (List.replicate n '#'.toUInt8).isPrefixOf (Text.bytes cs) = beginsWithHashes n cs := by
  induction n generalizing cs with
  | zero => exact List.isPrefixOf_nil_left
  | succ n ih =>
    cases cs with
    | nil => rfl
    | cons c cs =>
      by_cases hc : c = '#'
      · subst hc
        rw [Text.bytes_cons_of_narrow (by decide), List.replicate_succ, List.isPrefixOf_cons_cons,
          ih]
        rfl
      · obtain ⟨b, bs, hbs, -⟩ := exists_char_bytes c
        have hb := ne_of_mem_char (by decide) hc b (hbs ▸ List.mem_cons_self)
        rw [Text.bytes_cons, hbs, List.cons_append, List.replicate_succ, List.isPrefixOf_cons_cons,
          beq_eq_false_iff_ne.2 hb.symm, Bool.false_and]
        unfold beginsWithHashes
        split
        · rename_i hzero
          exact absurd hzero (Nat.succ_ne_zero n)
        · rename_i hcons
          exact absurd (List.cons.inj hcons).1 hc
        · rfl

theorem placedFrom_rawOpen (left hashes : Nat) (rest : List Char) :
    placedFrom lang (.rawOpen left hashes) (List.replicate left '#' ++ '"' :: rest) =
      Text.bytes (List.replicate left '#' ++ ['"']) ++ placedFrom lang (.raw hashes) rest := by
  induction left with
  | zero => exact placedFrom_shown _ rfl
  | succ left ih =>
    rw [List.replicate_succ, List.cons_append, placedFrom_shown (.rawOpen left hashes) rfl, ih,
      List.cons_append, Text.bytes_cons, List.append_assoc]

theorem placedFrom_rawClose (left : Nat) (rest : List Char) :
    placedFrom lang (.rawClose left) (List.replicate (left + 1) '#' ++ rest) =
      Text.bytes (List.replicate (left + 1) '#') ++ placedFrom lang (.code .fresh) rest := by
  induction left with
  | zero => exact placedFrom_shown _ rfl
  | succ left ih =>
    rw [List.replicate_succ, List.cons_append, placedFrom_shown (.rawClose left) rfl, ih,
      Text.bytes_cons, List.append_assoc]

/-- Bytes without a quote are passed. -/
theorem rawClose?_append {hashes : Nat} {xs : List UInt8} (h : ∀ x ∈ xs, x ≠ '"'.toUInt8)
    (ys : List UInt8) :
    rawClose? hashes (xs ++ ys) = (rawClose? hashes ys).map (xs.length + ·) := by
  induction xs with
  | nil => simp
  | cons x xs ih =>
    have hx : (decide (x = '"'.toUInt8) &&
        (List.replicate hashes '#'.toUInt8).isPrefixOf (xs ++ ys)) = false := by
      rw [decide_eq_false (h x List.mem_cons_self), Bool.false_and]
    rw [List.cons_append, rawClose?, hx, ih fun y hy => h y (List.mem_cons_of_mem x hy)]
    cases rawClose? hashes ys with
    | none => rfl
    | some n =>
      show some (xs.length + n + 1) = some ((x :: xs).length + n)
      rw [List.length_cons]
      congr 1
      omega

/-- A raw string is hidden up to the end that is found, or all of it. -/
theorem exists_raw (hashes : Nat) (cs : List Char) :
    (∃ body b, cs = body ++ '"' :: (List.replicate hashes '#' ++ b) ∧
      rawClose? hashes (Text.bytes cs) = some (Text.byteLength body) ∧
      placedFrom lang (.raw hashes) cs = (Text.bytes body).map Glyph.blankByte ++
        (Text.bytes ('"' :: List.replicate hashes '#') ++ placedFrom lang (.code .fresh) b)) ∨
    rawClose? hashes (Text.bytes cs) = none ∧
      placedFrom lang (.raw hashes) cs = (Text.bytes cs).map Glyph.blankByte := by
  induction cs with
  | nil => exact .inr ⟨rfl, rfl⟩
  | cons c cs ih =>
    by_cases hclose : c = '"' ∧ beginsWithHashes hashes cs = true
    · obtain ⟨rfl, hhashes⟩ := hclose
      obtain ⟨b, rfl⟩ := exists_replicate_of_beginsWithHashes hhashes
      refine .inl ⟨[], b, rfl, ?_, ?_⟩
      · rw [Text.bytes_cons_of_narrow (by decide), rawClose?, isPrefixOf_hashes, hhashes]
        rfl
      · cases hashes with
        | zero => exact placedFrom_shown (.code .fresh) rfl
        | succ left =>
          have hstep : step lang (.raw (left + 1)) '"' (List.replicate (left + 1) '#' ++ b) =
              (.shown, .rawClose left) := by
            unfold step
            simp only [hhashes]
            rfl
          rw [placedFrom_shown _ hstep, placedFrom_rawClose, Text.bytes_cons, List.append_assoc]
          rfl
    · have hcond : ¬(decide (c = '"') && beginsWithHashes hashes cs) = true := by
        simpa using hclose
      have hstep : step lang (.raw hashes) c cs = (.hidden, .raw hashes) := if_neg hcond
      have hskip : rawClose? hashes (Text.bytes (c :: cs)) =
          (rawClose? hashes (Text.bytes cs)).map ((String.utf8EncodeChar c).length + ·) := by
        by_cases hquote : c = '"'
        · subst hquote
          have hhashes : beginsWithHashes hashes cs = false :=
            Bool.eq_false_iff.2 fun h => hclose ⟨rfl, h⟩
          rw [Text.bytes_cons_of_narrow (by decide), rawClose?, isPrefixOf_hashes, hhashes,
            Bool.and_false]
          cases rawClose? hashes (Text.bytes cs) with
          | none => rfl
          | some n => exact congrArg some (Nat.add_comm n 1)
        · rw [Text.bytes_cons, rawClose?_append (ne_of_mem_char (by decide) hquote)]
      rw [placedFrom_hidden _ hstep, hskip]
      rcases ih with ⟨body, b, rfl, hfind, hplaced⟩ | ⟨hnone, hplaced⟩
      · refine .inl ⟨c :: body, b, rfl, ?_, ?_⟩
        · rw [hfind, ← length_utf8EncodeChar_add]
          rfl
        · rw [hplaced, Text.bytes_cons c, List.map_append, List.append_assoc]
      · refine .inr ⟨by rw [hnone]; rfl, ?_⟩
        rw [hplaced, Text.bytes_cons, List.map_append]

/-! ## Character literals -/

/-- The quote that closes a character literal is found where the scan finds it. -/
theorem exists_character_close (h : '\'' ∈ cs) : ∃ a b, cs = a ++ b ∧
    (Text.findBytes? ['\''.toUInt8] (Text.bytes cs)).map (· + 1) = some (Text.byteLength a) ∧
    a.getLast? = some '\'' ∧ placedFrom lang (.character 0) cs =
      blankButLast (Text.bytes a) ++ placedFrom lang (.code .fresh) b := by
  induction cs with
  | nil => exact absurd h List.not_mem_nil
  | cons c cs ih =>
    by_cases hc : c = '\''
    · subst hc
      exact ⟨['\''], cs, rfl, rfl, rfl, rfl⟩
    · obtain ⟨a, b, rfl, hfind, hlast, hplaced⟩ := ih ((List.mem_cons.1 h).resolve_left (Ne.symm hc))
      have hstep : step lang (.character 0) c (a ++ b) = (.hidden, .character 0) := if_neg hc
      have hne := ne_nil_of_getLast? hlast
      refine ⟨c :: a, b, rfl, ?_, ?_, ?_⟩
      · rw [Text.bytes_cons, findBytes?_append (ne_of_mem_char (by decide) hc),
          ← length_utf8EncodeChar_add]
        cases hn : Text.findBytes? ['\''.toUInt8] (Text.bytes (a ++ b)) with
        | none =>
          rw [hn] at hfind
          exact absurd hfind nofun
        | some n =>
          rw [hn] at hfind
          rw [← Option.some.inj hfind]
          rfl
      · rw [List.getLast?_cons, hlast, Option.getD_some]
      · rw [placedFrom_hidden _ hstep, hplaced, blankButLast_cons hne, List.append_assoc]

theorem findBytes?_quote_eq_none (h : '\'' ∉ cs) :
    Text.findBytes? ['\''.toUInt8] (Text.bytes cs) = none := by
  induction cs with
  | nil => rfl
  | cons c cs ih =>
    rw [List.mem_cons, not_or] at h
    rw [Text.bytes_cons, findBytes?_append (ne_of_mem_char (by decide) (Ne.symm h.1)), ih h.2]
    rfl

/-- What follows an escaped character begins no character when that one has several bytes. -/
theorem startsInside_behind {xs : List UInt8} (hxs : ∀ x ∈ xs, isContinuation x = true)
    (hlen : xs.length + 1 = c.utf8Size) (cs : List Char) :
    startsInside (xs ++ Text.bytes cs) = decide (c.utf8Size ≠ 1) := by
  cases xs with
  | nil =>
    rw [List.nil_append, Text.startsInside_bytes, ← hlen]
    rfl
  | cons x xs =>
    rw [List.length_cons] at hlen
    rw [decide_eq_true (by omega)]
    exact hxs x List.mem_cons_self

theorem characterBody?_escape (d : Char) (cs : List Char) : characterBody? ('\\' :: d :: cs) =
    if d.utf8Size = 1 ∧ '\'' ∈ cs then some 2 else none := by
  show (if d.utf8Size = 1 && cs.contains '\'' then some 2 else none) = _
  simp only [Bool.and_eq_true, decide_eq_true_eq, List.contains_iff_mem]

theorem characterBody?_char (hc : c ≠ '\\') (cs : List Char) : characterBody? (c :: cs) =
    if cs.head? = some '\'' then some 1 else none := by
  split
  · rename_i hquote
    obtain ⟨cs, rfl⟩ := List.head?_eq_some_iff.1 hquote
    simp [characterBody?]
  · rename_i hquote
    exact characterBody?_eq_none hc hquote

theorem characterLength?_escape {d : Char} (cs : List Char) :
    characterLength? (Text.bytes ('\\' :: d :: cs)) = if d.utf8Size = 1 then
      (Text.findBytes? ['\''.toUInt8] (Text.bytes cs)).map (2 + · + 1) else none := by
  obtain ⟨b, bs, hbs, hlen, -, hcontinues⟩ := exists_char_bytes d
  rw [Text.bytes_cons_of_narrow (by decide), Text.bytes_cons, hbs, List.cons_append,
    characterLength?]
  simp only [if_true, startsInside_behind hcontinues hlen]
  by_cases hd : d.utf8Size = 1
  · obtain rfl : bs = [] := List.eq_nil_of_length_eq_zero (by omega)
    rw [decide_eq_false (not_not.2 hd), if_pos hd]
    rfl
  · rw [decide_eq_true hd, if_neg hd]
    rfl

/-- The byte behind a character that is not escaped. -/
theorem characterLength?_char (hc : c ≠ '\\') (cs : List Char) :
    characterLength? (Text.bytes (c :: cs)) =
      if cs.head? = some '\'' then some (c.utf8Size + 1) else none := by
  obtain ⟨b, bs, hbs, hlen, hwidth, -⟩ := exists_char_bytes c
  have hb : b ≠ '\\'.toUInt8 := ne_of_mem_char (by decide) hc b (hbs ▸ List.mem_cons_self)
  have hbehind : (Text.bytes (c :: cs))[c.utf8Size]? = (Text.bytes cs).head? := by
    rw [Text.bytes_cons, List.getElem?_append_right (by rw [String.length_utf8EncodeChar]),
      String.length_utf8EncodeChar, Nat.sub_self, List.head?_eq_getElem?]
  have hcons : Text.bytes (c :: cs) = b :: (bs ++ Text.bytes cs) := by
    rw [Text.bytes_cons, hbs, List.cons_append]
  rw [hcons] at hbehind ⊢
  rw [characterLength?.eq_def]
  simp only [if_neg hb, hwidth, hbehind, head?_bytes_eq_iff (show '\''.utf8Size = 1 by decide)]

/-- A character literal ends behind the quote that is found. -/
theorem exists_character {n : Nat} (h : characterBody? cs = some n) : ∃ a b, cs = a ++ b ∧
    characterLength? (Text.bytes cs) = some (Text.byteLength a) ∧ a.getLast? = some '\'' ∧
    placedFrom lang (.character n) cs =
      blankButLast (Text.bytes a) ++ placedFrom lang (.code .fresh) b := by
  cases cs with
  | nil => exact absurd h nofun
  | cons c cs =>
    by_cases hc : c = '\\'
    · subst hc
      cases cs with
      | nil => exact absurd h nofun
      | cons d cs =>
        rw [characterBody?_escape, Option.ite_none_right_eq_some] at h
        obtain ⟨⟨hd, hmem⟩, hn⟩ := h
        obtain rfl := Option.some.inj hn
        obtain ⟨a, b, rfl, hfind, hlast, hplaced⟩ := @exists_character_close lang cs hmem
        have hne := ne_nil_of_getLast? hlast
        obtain ⟨k, hk, hlen⟩ := Option.map_eq_some_iff.1 hfind
        refine ⟨'\\' :: d :: a, b, rfl, ?_, ?_, ?_⟩
        · rw [characterLength?_escape, if_pos hd, hk, Option.map_some, Text.byteLength_cons,
            Text.byteLength_cons, hd, ← hlen, show '\\'.utf8Size = 1 by decide]
          exact congrArg some (by omega)
        · rw [List.getLast?_cons_cons, List.getLast?_cons, hlast, Option.getD_some]
        · rw [placedFrom_hidden (.character 1) rfl, placedFrom_hidden (.character 0) rfl, hplaced,
            blankButLast_cons (List.cons_ne_nil d a), blankButLast_cons hne, List.append_assoc,
            List.append_assoc]
    · rw [characterBody?_char hc, Option.ite_none_right_eq_some] at h
      obtain ⟨hquote, hn⟩ := h
      obtain rfl := Option.some.inj hn
      obtain ⟨cs, rfl⟩ := List.head?_eq_some_iff.1 hquote
      refine ⟨[c, '\''], cs, rfl, ?_, rfl, ?_⟩
      · rw [characterLength?_char hc, if_pos hquote, Text.byteLength_cons]
        rfl
      · rw [placedFrom_hidden (.character 0) rfl, blankButLast_cons (List.cons_ne_nil _ _)]
        exact (List.append_assoc _ _ _).symm

theorem characterLength?_eq_none (h : characterBody? cs = none) :
    characterLength? (Text.bytes cs) = none := by
  cases cs with
  | nil => rfl
  | cons c cs =>
    by_cases hc : c = '\\'
    · subst hc
      cases cs with
      | nil => rfl
      | cons d cs =>
        rw [characterBody?_escape, ite_eq_right_iff] at h
        rw [characterLength?_escape, ite_eq_right_iff]
        intro hd
        have hmem : '\'' ∉ cs := fun hmem => absurd (h ⟨hd, hmem⟩) nofun
        rw [findBytes?_quote_eq_none hmem]
        rfl
    · rw [characterBody?_char hc, ite_eq_right_iff] at h
      rw [characterLength?_char hc, ite_eq_right_iff]
      exact fun hquote => absurd (h hquote) nofun

end RpcBindings.Masked.Bytewise
