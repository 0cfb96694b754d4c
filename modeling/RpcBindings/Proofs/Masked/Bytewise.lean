import RpcBindings.Proofs.Masked.LiteralBytes

/-!
Masking byte by byte is masking character by character.

The loop jumps over literals and comments, and the scan takes one character at a time. Each stride of the
loop begins where the scan stands in code and ends where it does so again, and leaves the bytes that the
scan leaves (`exists_passes`). Main statement: the masked copy of a source is what the loop leaves of its
bytes, decoded (`mask_eq_decodeLossy`).
-/

namespace RpcBindings.Masked.Bytewise

variable {lang : SourceLang} {w : WordState} {rest : List Char} {c q : Char}
  {behind : List UInt8}

/-! ## Words behind a byte -/

/-- What the bytes behind a position mean for an `r` there, the nearest one first. -/
def wordOf : List UInt8 → WordState
  | [] => .fresh
  | b :: bs =>
    if !isWordByte b then .fresh
    else if b = 'b'.toUInt8 && breaksWord bs.head? then .afterB
    else .inWord

theorem opensRaw_eq (behind : List UInt8) : opensRaw behind = (wordOf behind != .inWord) := by
  cases behind with
  | nil => rfl
  | cons b bs =>
    rw [opensRaw, wordOf]
    by_cases hb : b = 'b'.toUInt8
    · subst hb
      rw [if_pos rfl]
      cases breaksWord bs.head? <;> rfl
    · rw [if_neg hb, decide_eq_false hb, Bool.false_and]
      cases isWordByte b <;> rfl

theorem wordOf_eq_fresh_iff (behind : List UInt8) :
    breaksWord behind.head? = true ↔ wordOf behind = .fresh := by
  cases behind with
  | nil => exact iff_of_true rfl rfl
  | cons b bs =>
    rw [wordOf, List.head?_cons, breaksWord]
    cases isWordByte b with
    | false => exact iff_of_true rfl rfl
    | true =>
      refine iff_of_false (by simp) fun hfresh => ?_
      simp only [Bool.not_true, Bool.false_eq_true, if_false] at hfresh
      split at hfresh <;> cases hfresh

/-- The bytes of one more character change the word as the character does. -/
theorem wordOf_char (c : Char) (behind : List UInt8) :
    wordOf ((String.utf8EncodeChar c).reverse ++ behind) = (wordOf behind).next c := by
  by_cases hc : c.utf8Size = 1
  · rw [Text.utf8EncodeChar_of_narrow hc, List.reverse_singleton, List.singleton_append, wordOf,
      isWordByte_toUInt8 hc]
    unfold WordState.next
    have hb : c.toUInt8 = 'b'.toUInt8 ↔ c = 'b' :=
      ⟨Text.eq_of_toUInt8_eq hc (by decide), congrArg _⟩
    by_cases hword : isWordChar c = true
    · simp only [hword, Bool.not_true, Bool.false_eq_true, if_false, hb, Bool.and_eq_true,
        decide_eq_true_eq, wordOf_eq_fresh_iff]
    · simp only [Bool.eq_false_iff.2 hword, Bool.not_false, if_true]
  · have hne : (String.utf8EncodeChar c).reverse ≠ [] := fun h =>
      @String.utf8EncodeChar_ne_nil c (List.reverse_eq_nil_iff.1 h)
    obtain ⟨x, xs, hx⟩ := List.exists_cons_of_ne_nil hne
    have hwide : 0x80 ≤ x := Text.le_of_mem_wide hc (List.mem_reverse.1 (hx ▸ List.mem_cons_self))
    rw [hx, List.cons_append, wordOf, isWordByte_eq_false hwide]
    unfold WordState.next
    rw [isWordChar_of_wide hc]
    rfl

/-- No word reaches a position behind a character that no word holds. -/
theorem wordOf_of_getLast? {a : List Char} {d : Char} (ha : a.getLast? = some d)
    (hd : isWordChar d = false) (behind : List UInt8) :
    wordOf ((Text.bytes a).reverse ++ behind) = .fresh := by
  obtain ⟨t, rfl⟩ := List.getLast?_eq_some_iff.1 ha
  rw [Text.bytes_append, List.reverse_append, List.append_assoc, Text.bytes_cons, Text.bytes_nil,
    List.append_nil, wordOf_char]
  unfold WordState.next
  rw [hd]
  rfl

/-! ## Strides -/

theorem blankRange_append (xs ys zs : List UInt8) :
    blankRange xs.length ys.length (xs ++ (ys ++ zs)) =
      xs ++ (ys.map Glyph.blankByte ++ zs) := by
  unfold blankRange
  rw [List.take_left, List.drop_left, List.take_left, ← List.append_assoc xs ys zs,
    ← List.length_append, List.drop_left, List.append_assoc]

theorem blankRange_all (bs : List UInt8) : blankRange 0 bs.length bs = bs.map Glyph.blankByte := by
  have := blankRange_append [] bs []
  rwa [List.append_nil, List.append_nil] at this

/-- A quoted literal is blanked but for its first quote and its last byte. -/
theorem blankRange_quoted (b : UInt8) (bs : List UInt8) :
    blankRange 1 (bs.length - 1) (b :: bs) = b :: blankButLast bs := by
  have hsplit : bs.dropLast ++ bs.getLast?.toList = bs := by
    cases hlast : bs.getLast? with
    | none =>
      rw [List.getLast?_eq_none_iff.1 hlast]
      rfl
    | some x =>
      obtain ⟨t, rfl⟩ := List.getLast?_eq_some_iff.1 hlast
      rw [List.dropLast_concat]
      rfl
  have := blankRange_append [b] bs.dropLast bs.getLast?.toList
  rwa [hsplit, List.length_dropLast] at this

/-- A stride passes a part of a text where the scan stands in code, and leaves of it what the scan leaves.
Behind it the scan stands in code again, and knows the word there unless a line ends. -/
structure Passes (lang : SourceLang) (w : WordState) (behind : List UInt8) (s : Stride)
    (a b : List Char) : Prop where
  length : s.length = Text.byteLength a
  inside : s.lead + s.blanked ≤ s.length
  placed : ∃ next,
    (b = [] ∨ b.head? = some '\n' ∨ wordOf ((Text.bytes a).reverse ++ behind) = next) ∧
    placedFrom lang (.code w) (a ++ b) =
      blankRange s.lead s.blanked (Text.bytes a) ++ placedFrom lang (.code next) b

/-- One byte of code is passed. -/
theorem passes_one (hc : c.utf8Size = 1) (hw : c = '\n' ∨ wordOf behind = w)
    (hstep : codeStep lang w c rest = (.shown, .code (w.next c))) :
    Passes lang w behind .one [c] rest := by
  have hone : Text.bytes [c] = [c.toUInt8] := Text.bytes_cons_of_narrow hc []
  refine ⟨?_, Nat.le_refl 1, w.next c, .inr (.inr ?_), ?_⟩
  · rw [Text.byteLength_cons, hc]
    rfl
  · rw [Text.bytes_cons, Text.bytes_nil, List.append_nil, wordOf_char]
    rcases hw with rfl | rfl
    · rfl
    · rfl
  · have hstep : step lang (.code w) c rest = (.shown, .code (w.next c)) := hstep
    rw [List.singleton_append, placedFrom_shown _ hstep, hone, Text.utf8EncodeChar_of_narrow hc]
    rfl

theorem passes_lineComment (t : List Char) : ∃ a b, '/' :: '/' :: t = a ++ b ∧
    Passes lang w behind (.lineComment (Text.bytes ('/' :: '/' :: t))) a b := by
  obtain ⟨a, b, hsplit, hfind, hb, hplaced⟩ := @exists_lineComment lang ('/' :: '/' :: t)
  have hstep : step lang (.code w) '/' ('/' :: t) = (.hidden, .lineComment) := rfl
  have hstep' : step lang .lineComment '/' ('/' :: t) = (.hidden, .lineComment) := rfl
  refine ⟨a, b, hsplit, hfind, ?_, .fresh, hb.imp_right .inl, ?_⟩
  · show 0 + _ ≤ _
    exact Nat.le_of_eq (Nat.zero_add _)
  · unfold Stride.lineComment
    rw [hfind, ← Text.length_bytes, blankRange_all, ← hplaced, ← hsplit, placedFrom_hidden _ hstep,
      placedFrom_hidden _ hstep']

theorem passes_blockComment (t : List Char) : ∃ a b, '/' :: '*' :: t = a ++ b ∧
    Passes lang w behind (.blockComment (Text.bytes ('/' :: '*' :: t))) a b := by
  obtain ⟨a, b, rfl, hfind, hb, hplaced⟩ := @exists_blockComment lang t
  have hlength : (Stride.blockComment (Text.bytes ('/' :: '*' :: (a ++ b)))).length =
      Text.byteLength ('/' :: '*' :: a) := by
    unfold Stride.blockComment
    rw [Text.bytes_cons_of_narrow (by decide), Text.bytes_cons_of_narrow (by decide),
      Text.byteLength_cons, Text.byteLength_cons, ← hfind, show '/'.utf8Size = 1 by decide,
      show '*'.utf8Size = 1 by decide]
    cases hn : Text.findBytes? ['*'.toUInt8, '/'.toUInt8] (Text.bytes (a ++ b)) <;>
      simp only [List.drop_succ_cons, List.drop_zero, hn, Option.map_none, Option.map_some,
        Option.getD_none, Option.getD_some, List.length_cons]
    · omega
    · omega
  refine ⟨'/' :: '*' :: a, b, rfl, hlength, Nat.le_of_eq (Nat.zero_add _), .fresh, ?_, ?_⟩
  · refine hb.imp_right fun h => .inr (wordOf_of_getLast? (d := '/') ?_ (by decide) behind)
    rw [List.getLast?_cons_cons, List.getLast?_cons, h, Option.getD_some]
  · have hblanked : (Stride.blockComment (Text.bytes ('/' :: '*' :: (a ++ b)))).blanked =
        (Text.bytes ('/' :: '*' :: a)).length := hlength.trans (Text.length_bytes _).symm
    have hlead : (Stride.blockComment (Text.bytes ('/' :: '*' :: (a ++ b)))).lead = 0 := rfl
    have hopen : step lang (.code w) '/' ('*' :: (a ++ b)) = (.hidden, .blockOpen) := rfl
    have hstar : step lang .blockOpen '*' (a ++ b) = (.hidden, .blockComment) := rfl
    rw [hblanked, hlead, blankRange_all, List.cons_append, List.cons_append,
      placedFrom_hidden _ hopen, placedFrom_hidden _ hstar, hplaced, Text.bytes_cons,
      Text.bytes_cons, List.map_append, List.map_append, List.append_assoc, List.append_assoc]

/-- A literal between quotes is passed where the scan finds its end. -/
theorem passes_quoted {mode : ScanMode} {n : Nat} {a b : List Char} (hq : q.utf8Size = 1)
    (hword : isWordChar q = false) (hstep : step lang (.code w) q (a ++ b) = (.shown, mode))
    (hlen : n = Text.byteLength a) (hend : b = [] ∨ a.getLast? = some q)
    (hplaced : placedFrom lang mode (a ++ b) =
      blankButLast (Text.bytes a) ++ placedFrom lang (.code .fresh) b) :
    Passes lang w behind (.quoted n) (q :: a) b := by
  refine ⟨?_, ?_, .fresh, ?_, ?_⟩
  · rw [Text.byteLength_cons, hq, hlen]
    rfl
  · show 1 + (n - 1) ≤ 1 + n
    omega
  · refine hend.imp_right fun h => .inr (wordOf_of_getLast? ?_ hword behind)
    rw [List.getLast?_cons, h, Option.getD_some]
  · have hrange : blankRange 1 (n - 1) (q.toUInt8 :: Text.bytes a) =
        q.toUInt8 :: blankButLast (Text.bytes a) := by
      rw [hlen, ← Text.length_bytes, blankRange_quoted]
    rw [List.cons_append, placedFrom_shown _ hstep, hplaced, Text.bytes_cons_of_narrow hq,
      Text.utf8EncodeChar_of_narrow hq]
    show _ = blankRange 1 (n - 1) _ ++ _
    rw [hrange]
    rfl

/-- What opens a raw string. -/
def rawOpener (hashes : Nat) : List Char :=
  'r' :: (List.replicate hashes '#' ++ ['"'])

theorem length_rawOpener (hashes : Nat) : (Text.bytes (rawOpener hashes)).length = 1 + hashes + 1 := by
  rw [rawOpener, Text.bytes_cons_of_narrow (by decide), Text.bytes_append, bytes_replicate_hash,
    List.length_cons, List.length_append, List.length_replicate, Nat.add_comm 1 hashes]
  rfl

/-- A raw string is passed where the scan finds its end. -/
theorem passes_raw (hw : w ≠ .inWord) (hashes : Nat) (t : List Char) :
    ∃ a b, rawOpener hashes ++ t = a ++ b ∧
      Passes .rust w behind (.raw hashes (Text.bytes t)) a b := by
  have hplaced : placedFrom .rust (.code w) (rawOpener hashes ++ t) =
      Text.bytes (rawOpener hashes) ++ placedFrom .rust (.raw hashes) t := by
    have hstep : step .rust (.code w) 'r' (List.replicate hashes '#' ++ '"' :: t) =
        (.shown, .rawOpen hashes hashes) := by
      show codeStep .rust w 'r' _ = _
      unfold codeStep
      simp [hw, rawHashes?_replicate]
    unfold rawOpener
    rw [List.cons_append, List.append_assoc, List.singleton_append, placedFrom_shown _ hstep,
      placedFrom_rawOpen, Text.bytes_cons, List.append_assoc]
  have hlead := length_rawOpener hashes
  rcases @exists_raw .rust hashes t with ⟨body, b, rfl, hfind, hbody⟩ | ⟨hnone, hbody⟩
  · have hstride : Stride.raw hashes
        (Text.bytes (body ++ '"' :: (List.replicate hashes '#' ++ b))) =
          ⟨1 + hashes + 1, Text.byteLength body,
            1 + hashes + 1 + Text.byteLength body + 1 + hashes⟩ := by
      unfold Stride.raw
      rw [hfind]
    have hclose : (Text.bytes ('"' :: List.replicate hashes '#')).length = 1 + hashes := by
      rw [Text.bytes_cons_of_narrow (by decide), bytes_replicate_hash, List.length_cons,
        List.length_replicate, Nat.add_comm]
    rw [hstride]
    refine ⟨rawOpener hashes ++ (body ++ '"' :: List.replicate hashes '#'), b, by simp, ?_, ?_,
      .fresh, .inr (.inr ?_), ?_⟩
    · rw [Text.byteLength_append, Text.byteLength_append, ← Text.length_bytes (rawOpener hashes),
        hlead, ← Text.length_bytes ('"' :: _), hclose]
      show 1 + hashes + 1 + Text.byteLength body + 1 + hashes = _
      omega
    · show 1 + hashes + 1 + Text.byteLength body ≤
        1 + hashes + 1 + Text.byteLength body + 1 + hashes
      omega
    · cases hashes with
      | zero => exact wordOf_of_getLast? (d := '"') (by simp) (by decide) behind
      | succ n =>
        refine wordOf_of_getLast? (d := '#') ?_ (by decide) behind
        rw [List.replicate_succ', ← List.cons_append, ← List.append_assoc, ← List.append_assoc,
          List.getLast?_concat]
    · have hrange := blankRange_append (Text.bytes (rawOpener hashes)) (Text.bytes body)
        (Text.bytes ('"' :: List.replicate hashes '#'))
      rw [hlead, Text.length_bytes, ← Text.bytes_append, ← Text.bytes_append] at hrange
      rw [hrange]
      simp only [List.append_assoc, List.cons_append] at hplaced ⊢
      rw [hplaced, hbody]
  · have hstride : Stride.raw hashes (Text.bytes t) =
        ⟨1 + hashes + 1, (Text.bytes t).length, 1 + hashes + 1 + (Text.bytes t).length⟩ := by
      unfold Stride.raw
      rw [hnone]
    rw [hstride]
    refine ⟨rawOpener hashes ++ t, [], (List.append_nil _).symm, ?_, Nat.le_refl _, .fresh, .inl rfl,
      ?_⟩
    · rw [Text.byteLength_append, ← Text.length_bytes, hlead, Text.length_bytes]
    · have hrange := blankRange_append (Text.bytes (rawOpener hashes)) (Text.bytes t) []
      rw [hlead, List.append_nil, List.append_nil, ← Text.bytes_append] at hrange
      rw [List.append_nil, hrange, hplaced, hbody]
      exact (List.append_nil _).symm

/-- The stride at a character of ASCII, by the characters ahead. -/
theorem stride_char (hc : c.utf8Size = 1) (rest : List Char) :
    stride lang behind c.toUInt8 (Text.bytes rest) =
      if c = '/' ∧ rest.head? = some '/' then .lineComment (Text.bytes (c :: rest))
      else if c = '/' ∧ rest.head? = some '*' then .blockComment (Text.bytes (c :: rest))
      else if c = 'r' ∧ lang = .rust then
        match if opensRaw behind then Masked.rawHashes? rest else none with
        | some hashes => .raw hashes ((Text.bytes rest).drop (hashes + 1))
        | none => .one
      else if c = '"' then .quoted (quotedLength '"'.toUInt8 true (Text.bytes rest))
      else if c = '`' ∧ lang = .go then .quoted (quotedLength '`'.toUInt8 false (Text.bytes rest))
      else if c = '\'' then
        match characterLength? (Text.bytes rest) with
        | some n => .quoted n
        | none => .one
      else .one := by
  have hbyte {d : Char} (hd : d.utf8Size = 1) : c.toUInt8 = d.toUInt8 ↔ c = d :=
    ⟨Text.eq_of_toUInt8_eq hc hd, congrArg _⟩
  have hhead {d : Char} (hd : d.utf8Size = 1) :
      (Text.bytes rest).head? = some d.toUInt8 ↔ rest.head? = some d := head?_bytes_eq_iff hd rest
  unfold stride
  rw [Text.bytes_cons_of_narrow hc, rawHashes?_bytes]
  refine if_congr (and_congr (hbyte (by decide)) (hhead (by decide))) rfl ?_
  refine if_congr (and_congr (hbyte (by decide)) (hhead (by decide))) rfl ?_
  refine if_congr (and_congr_left' (hbyte (by decide))) rfl ?_
  refine if_congr (hbyte (by decide)) rfl ?_
  refine if_congr (and_congr_left' (hbyte (by decide))) rfl ?_
  exact if_congr (hbyte (by decide)) rfl rfl

/-- At the letter `r` in code of Rust the loop passes a raw string, or the letter alone. -/
theorem exists_passes_letter (hword : wordOf behind = w) (rest : List Char) :
    ∃ a b, 'r' :: rest = a ++ b ∧ Passes .rust w behind
      (match if opensRaw behind then Masked.rawHashes? rest else none with
        | some hashes => .raw hashes ((Text.bytes rest).drop (hashes + 1))
        | none => .one) a b := by
  rw [opensRaw_eq, hword]
  by_cases hinWord : w = .inWord
  · rw [hinWord]
    exact ⟨['r'], rest, rfl, passes_one (by decide) (.inr (hword.trans hinWord))
      (codeStep_plain (by decide) nofun nofun nofun fun _ _ h => absurd rfl h)⟩
  · rw [if_pos (bne_iff_ne.2 hinWord)]
    cases hhashes : Masked.rawHashes? rest with
    | none =>
      exact ⟨['r'], rest, rfl, passes_one (by decide) (.inr hword)
        (codeStep_plain (by decide) nofun nofun nofun fun _ _ _ => hhashes)⟩
    | some n =>
      obtain ⟨t, rfl⟩ := rawHashes?_eq_some hhashes
      have hdrop : (Text.bytes (List.replicate n '#' ++ '"' :: t)).drop (n + 1) =
          Text.bytes t := by
        rw [Text.bytes_append, bytes_replicate_hash, Text.bytes_cons_of_narrow (by decide),
          ← List.drop_drop, List.drop_left' List.length_replicate, List.drop_succ_cons,
          List.drop_zero]
      obtain ⟨a, b, hsplit, hpasses⟩ := @passes_raw w behind hinWord n t
      refine ⟨a, b, ?_, ?_⟩
      · rw [← hsplit, rawOpener, List.cons_append, List.append_assoc, List.singleton_append]
      · simp only [hdrop]
        exact hpasses

/-- At a single quote in code the loop passes a character literal, or the quote alone. -/
theorem exists_passes_character (hword : wordOf behind = w) (rest : List Char) :
    ∃ a b, '\'' :: rest = a ++ b ∧ Passes lang w behind
      (match characterLength? (Text.bytes rest) with
        | some n => .quoted n
        | none => .one) a b := by
  cases hbody : characterBody? rest with
  | none =>
    rw [characterLength?_eq_none hbody]
    exact ⟨['\''], rest, rfl, passes_one (by decide) (.inr hword)
      (codeStep_plain (by decide) (fun _ => by decide) (fun _ => hbody)
        (fun h => absurd h (by decide)) (fun h => absurd h (by decide)))⟩
  | some n =>
    obtain ⟨a, b, rfl, hlen, hlast, hplaced⟩ := @exists_character lang rest n hbody
    have hstep : step lang (.code w) '\'' (a ++ b) = (.shown, .character n) := by
      show codeStep lang w '\'' (a ++ b) = _
      unfold codeStep
      simp only [hbody]
    rw [hlen]
    exact ⟨'\'' :: a, b, rfl,
      passes_quoted (by decide) (by decide) hstep rfl (.inr hlast) hplaced⟩

/-- At a character of ASCII where the scan stands in code the loop passes a part of the text. -/
theorem exists_passes (hc : c.utf8Size = 1) (hw : c = '\n' ∨ wordOf behind = w)
    (rest : List Char) : ∃ a b, c :: rest = a ++ b ∧
      Passes lang w behind (stride lang behind c.toUInt8 (Text.bytes rest)) a b := by
  rw [stride_char hc]
  split
  · rename_i h
    obtain ⟨rfl, hslash⟩ := h
    obtain ⟨t, rfl⟩ := List.head?_eq_some_iff.1 hslash
    exact passes_lineComment t
  rename_i hline
  split
  · rename_i h
    obtain ⟨rfl, hstar⟩ := h
    obtain ⟨t, rfl⟩ := List.head?_eq_some_iff.1 hstar
    exact passes_blockComment t
  rename_i hblock
  have hslash : c = '/' → Detached rest := fun h => ⟨fun hs => hline ⟨h, hs⟩, fun hs => hblock ⟨h, hs⟩⟩
  split
  · rename_i h
    obtain ⟨rfl, rfl⟩ := h
    exact exists_passes_letter (hw.resolve_left (by decide)) rest
  rename_i hraw
  split
  · rename_i h
    subst h
    obtain ⟨a, b, rfl, hlen, hend, -, hplaced⟩ :=
      @exists_quoted lang '"' (by decide) true (fun _ => by decide) rest
    exact ⟨'"' :: a, b, rfl, passes_quoted (by decide) (by decide) rfl hlen hend hplaced⟩
  rename_i hquote
  split
  · rename_i h
    obtain ⟨rfl, rfl⟩ := h
    obtain ⟨a, b, rfl, hlen, hend, -, hplaced⟩ :=
      @exists_quoted .go '`' (by decide) false nofun rest
    exact ⟨'`' :: a, b, rfl, passes_quoted (by decide) (by decide) rfl hlen hend hplaced⟩
  rename_i hback
  have hback : lang = .go → c ≠ '`' := fun hgo h => hback ⟨h, hgo⟩
  have hraw (h : c = 'r') (hrust : lang = .rust) (_ : w ≠ .inWord) :
      Masked.rawHashes? rest = none := absurd ⟨h, hrust⟩ hraw
  split
  · rename_i h
    subst h
    exact exists_passes_character (hw.resolve_left (by decide)) rest
  · rename_i hsingle
    exact ⟨[c], rest, rfl, passes_one hc hw
      (codeStep_plain hquote hback (fun h => absurd h hsingle) hslash hraw)⟩

/-! ## The loop -/

/-- Blanking inside a part of a text leaves what stands around it. -/
theorem blankRange_inside {lead n : Nat} {bs : List UInt8} (h : lead + n ≤ bs.length)
    (done tail : List UInt8) : blankRange (done.length + lead) n (done ++ (bs ++ tail)) =
      done ++ (blankRange lead n bs ++ tail) := by
  have hinner : ((bs ++ tail).drop lead).take n = (bs.drop lead).take n := by
    rw [List.drop_append_of_le_length (by omega), List.take_append_of_le_length]
    rw [List.length_drop]
    omega
  unfold blankRange
  rw [List.take_length_add_append, List.drop_length_add_append, hinner, Nat.add_assoc,
    List.drop_length_add_append, List.take_append_of_le_length (by omega),
    List.drop_append_of_le_length h]
  simp only [List.append_assoc]

theorem length_blankRange {lead n : Nat} {bs : List UInt8} (h : lead + n ≤ bs.length) :
    (blankRange lead n bs).length = bs.length := by
  unfold blankRange
  rw [List.length_append, List.length_append, List.length_map, List.length_take, List.length_take,
    List.length_drop, List.length_drop]
  omega

theorem blankRange_zero (i : Nat) (bs : List UInt8) : blankRange i 0 bs = bs := by
  unfold blankRange
  rw [List.take_zero, List.map_nil, List.append_nil, Nat.add_zero, List.take_append_drop]

theorem maskLoop_end (bytes out : List UInt8) :
    maskLoop lang bytes bytes.length out = out := by
  rw [maskLoop]
  split
  · rfl
  · rename_i heq
    rw [List.drop_length] at heq
    cases heq

/-- One turn of the loop. -/
theorem maskLoop_cons (pre : List UInt8) (b : UInt8) (ahead out : List UInt8) :
    maskLoop lang (pre ++ b :: ahead) pre.length out =
      maskLoop lang (pre ++ b :: ahead)
        (pre.length + (stride lang pre.reverse b ahead).length)
        (blankRange (pre.length + (stride lang pre.reverse b ahead).lead)
          (stride lang pre.reverse b ahead).blanked out) := by
  rw [maskLoop]
  split
  · rename_i heq
    rw [List.drop_left] at heq
    cases heq
  · rename_i heq
    rw [List.drop_left] at heq
    obtain ⟨rfl, rfl⟩ := List.cons.inj heq
    rw [List.take_left]

/-- A byte of a character of several bytes is left as it is. -/
theorem stride_wide {b : UInt8} (hb : 0x80 ≤ b) (behind ahead : List UInt8) :
    stride lang behind b ahead = .one := by
  have hne {d : Char} (hd : d.utf8Size = 1) : b ≠ d.toUInt8 := by
    rintro rfl
    exact absurd (Text.toUInt8_lt_of_narrow hd) (UInt8.not_lt.2 hb)
  unfold stride
  rw [if_neg fun h => hne (by decide) h.1, if_neg fun h => hne (by decide) h.1,
    if_neg fun h => hne (by decide) h.1, if_neg (hne (by decide)),
    if_neg fun h => hne (by decide) h.1, if_neg (hne (by decide))]

theorem maskLoop_wide {xs : List UInt8} (hxs : ∀ x ∈ xs, 0x80 ≤ x) (pre tail out : List UInt8) :
    maskLoop lang (pre ++ (xs ++ tail)) pre.length out =
      maskLoop lang (pre ++ (xs ++ tail)) (pre ++ xs).length out := by
  induction xs generalizing pre with
  | nil => rw [List.append_nil]
  | cons x xs ih =>
    have hnext := ih (fun y hy => hxs y (List.mem_cons_of_mem x hy)) (pre ++ [x])
    simp only [List.append_assoc, List.singleton_append] at hnext
    rw [List.cons_append, maskLoop_cons, stride_wide (hxs x List.mem_cons_self), ← hnext,
      List.length_append]
    show maskLoop lang _ _ (blankRange _ 0 out) = _
    rw [blankRange_zero]
    rfl

theorem codeStep_wide (hc : c.utf8Size ≠ 1) : codeStep lang w c rest = (.shown, .code (w.next c)) := by
  have hne {d : Char} (hd : d.utf8Size = 1) : c ≠ d := by
    rintro rfl
    exact hc hd
  exact codeStep_plain (hne (by decide)) (fun _ => hne (by decide))
    (fun h => absurd h (hne (by decide))) (fun h => absurd h (hne (by decide)))
    (fun h => absurd h (hne (by decide)))

/-- One turn of the loop, over a part of the text that its stride passes. -/
theorem maskLoop_passes (hc : c.utf8Size = 1) {a b : List Char} (hsplit : c :: rest = a ++ b)
    {pre done : List UInt8} (hdone : done.length = pre.length)
    (h : Passes lang w pre.reverse (stride lang pre.reverse c.toUInt8 (Text.bytes rest)) a b) :
    maskLoop lang (pre ++ Text.bytes (c :: rest)) pre.length (done ++ Text.bytes (c :: rest)) =
      maskLoop lang (pre ++ Text.bytes a ++ Text.bytes b) (pre ++ Text.bytes a).length
        (done ++ blankRange (stride lang pre.reverse c.toUInt8 (Text.bytes rest)).lead
          (stride lang pre.reverse c.toUInt8 (Text.bytes rest)).blanked (Text.bytes a) ++
          Text.bytes b) := by
  have hinside := h.inside
  rw [h.length, ← Text.length_bytes] at hinside
  have hturn := @maskLoop_cons lang pre c.toUInt8 (Text.bytes rest)
    (done ++ Text.bytes (c :: rest))
  rw [← Text.bytes_cons_of_narrow hc, hsplit, Text.bytes_append, ← hdone,
    blankRange_inside hinside, hdone, h.length] at hturn
  rw [hsplit, Text.bytes_append, hturn, List.length_append, Text.length_bytes, List.append_assoc,
    List.append_assoc]

/-- Where the loop stands as the scan does in code, it leaves of what is ahead what the scan leaves. -/
theorem maskLoop_eq (cs : List Char) {w : WordState} {pre done : List UInt8}
    (hdone : done.length = pre.length)
    (hw : cs = [] ∨ cs.head? = some '\n' ∨ wordOf pre.reverse = w) :
    maskLoop lang (pre ++ Text.bytes cs) pre.length (done ++ Text.bytes cs) =
      done ++ placedFrom lang (.code w) cs := by
  -- a stride passes at least one character
  induction hn : cs.length using Nat.strong_induction_on generalizing cs w pre done with
  | _ n ih =>
    subst hn
    cases cs with
    | nil =>
      rw [Text.bytes_nil, List.append_nil, maskLoop_end]
      rfl
    | cons c rest =>
      have hw : c = '\n' ∨ wordOf pre.reverse = w :=
        (hw.resolve_left (List.cons_ne_nil c rest)).imp_left Option.some.inj
      by_cases hc : c.utf8Size = 1
      · obtain ⟨a, b, hsplit, hpasses⟩ := @exists_passes lang w c pre.reverse hc hw rest
        obtain ⟨next, hnext, hplaced⟩ := hpasses.placed
        have hshorter : b.length < (c :: rest).length := by
          have hpos := stride_pos lang pre.reverse c.toUInt8 (Text.bytes rest)
          have hne : a ≠ [] := by
            rintro rfl
            rw [hpasses.length] at hpos
            exact Nat.lt_irrefl 0 hpos
          rw [hsplit, List.length_append]
          exact Nat.lt_add_of_pos_left (List.length_pos_iff.2 hne)
        have hinside := hpasses.inside
        rw [hpasses.length, ← Text.length_bytes] at hinside
        rw [← List.reverse_append] at hnext
        rw [maskLoop_passes hc hsplit hdone hpasses, hsplit, hplaced, ← List.append_assoc]
        exact ih b.length hshorter b
          (by rw [List.length_append, List.length_append, length_blankRange hinside, hdone]) hnext rfl
      · have hwide : ∀ x ∈ String.utf8EncodeChar c, 0x80 ≤ x := fun x hx => Text.le_of_mem_wide hc hx
        have hword : wordOf (pre ++ String.utf8EncodeChar c).reverse = w.next c := by
          rw [List.reverse_append, wordOf_char]
          rcases hw with rfl | rfl
          · exact absurd (by decide) hc
          · rfl
        have hrest := @ih rest.length (Nat.lt_succ_self _) rest _ _
          (done ++ String.utf8EncodeChar c)
          (by rw [List.length_append, List.length_append, hdone]) (.inr (.inr hword)) rfl
        rw [List.append_assoc, List.append_assoc] at hrest
        have hstep : step lang (.code w) c rest = (.shown, .code (w.next c)) := codeStep_wide hc
        rw [Text.bytes_cons, maskLoop_wide hwide, hrest, placedFrom_shown _ hstep,
          List.append_assoc]

/-- The loop leaves of the bytes of a source what masking leaves of them in their places. -/
theorem maskBytes_eq (lang : SourceLang) (source : List Char) :
    maskBytes lang (Text.bytes source) = (glyphs lang source).flatMap Glyph.bytesInPlace :=
  @maskLoop_eq lang source .fresh [] [] rfl (.inr (.inr rfl))

/-! ## Decoding -/

/-- Whole characters are decoded. -/
theorem decodeLossy_bytes (cs : List Char) (bs : List UInt8) :
    decodeLossy (Text.bytes cs ++ bs) = cs ++ decodeLossy bs := by
  induction cs with
  | nil => rfl
  | cons c cs ih =>
    obtain ⟨x, xs, hx⟩ := List.exists_cons_of_ne_nil (@String.utf8EncodeChar_ne_nil c)
    have hbytes : Text.bytes (c :: cs) ++ bs = x :: (xs ++ (Text.bytes cs ++ bs)) := by
      rw [Text.bytes_cons, hx, List.append_assoc, List.cons_append]
    have hchar : String.utf8EncodeChar c ++ (Text.bytes cs ++ bs) =
        x :: (xs ++ (Text.bytes cs ++ bs)) := by
      rw [hx, List.cons_append]
    have hread : (x :: (xs ++ (Text.bytes cs ++ bs))).toByteArray.utf8DecodeChar? 0 = some c := by
      rw [← hchar, List.toByteArray_append, ByteArray.utf8DecodeChar?_utf8EncodeChar_append]
    have hdrop : (x :: (xs ++ (Text.bytes cs ++ bs))).drop c.utf8Size = Text.bytes cs ++ bs := by
      rw [← hchar, List.drop_left' (String.length_utf8EncodeChar c)]
    rw [hbytes, decodeLossy]
    simp only [hread, hdrop, ih]
    rfl

theorem decodeLossy_nil : decodeLossy [] = [] := by
  rw [decodeLossy]

/-- A byte of a character of several bytes is no character alone. -/
theorem decodeLossy_wide {b : UInt8} (hb : 0x80 ≤ b) : decodeLossy [b] = ['\ufffd'] := by
  have hread : [b].toByteArray.utf8DecodeChar? 0 = none := by
    rw [Option.eq_none_iff_forall_ne_some]
    intro c hc
    have hle := ByteArray.le_size_of_utf8DecodeChar?_eq_some hc
    rw [List.size_toByteArray, List.length_singleton] at hle
    have hsize : c.utf8Size = 1 := by
      have := Char.utf8Size_pos c
      omega
    have heq := ByteArray.eq_of_utf8DecodeChar?_eq_some hc
    rw [Text.utf8EncodeChar_of_narrow hsize] at heq
    have hfirst : b = c.toUInt8 := by
      have := congrArg (fun a : ByteArray => a.data.toList.head?) heq
      simpa using this
    exact absurd (Text.toUInt8_lt_of_narrow hsize) (UInt8.not_lt.2 (hfirst ▸ hb))
  rw [decodeLossy]
  simp only [hread]
  exact congrArg _ decodeLossy_nil

/-- The last byte of a torn character is replaced. -/
theorem decodeLossy_torn (hc : c.utf8Size ≠ 1) :
    decodeLossy (Glyph.torn c).bytesInPlace = (Glyph.torn c).code := by
  obtain ⟨bs, last, hbs⟩ : ∃ bs last, String.utf8EncodeChar c = bs ++ [last] :=
    ⟨_, _, (List.dropLast_append_getLast (@String.utf8EncodeChar_ne_nil c)).symm⟩
  have hwide (b : UInt8) (hb : b ∈ String.utf8EncodeChar c) : 0x80 ≤ b := Text.le_of_mem_wide hc hb
  have hblank : bs.map Glyph.blankByte = Text.bytes (List.replicate (c.utf8Size - 1) ' ') := by
    have hlen : bs.length = c.utf8Size - 1 := by
      rw [← String.length_utf8EncodeChar, hbs, List.length_append]
      rfl
    have hspace : bs.map Glyph.blankByte = bs.map fun _ => ' '.toUInt8 := by
      refine List.map_congr_left fun b hb => if_neg ?_
      rintro rfl
      have hmem : '\n'.toUInt8 ∈ String.utf8EncodeChar c := hbs ▸ List.mem_append_left _ hb
      exact absurd (hwide _ hmem) (by decide)
    rw [hspace, List.map_const', hlen, Glyph.bytes_replicate_space]
  have hplaced : (Glyph.torn c).bytesInPlace = bs.map Glyph.blankByte ++ [last] := by
    show (String.utf8EncodeChar c).dropLast.map Glyph.blankByte ++
      (String.utf8EncodeChar c).getLast?.toList = _
    rw [hbs, List.dropLast_concat, List.getLast?_concat]
    rfl
  have hcode : (Glyph.torn c).code = List.replicate (c.utf8Size - 1) ' ' ++ ['\ufffd'] := if_neg hc
  rw [hplaced, hblank, decodeLossy_bytes, hcode,
    decodeLossy_wide (hwide last (hbs ▸ List.mem_append_right _ List.mem_cons_self))]

/-- What masking leaves of a text in its places is decoded as what the text shows. -/
theorem decodeLossy_placedFrom (mode : ScanMode) (cs : List Char) :
    decodeLossy (placedFrom lang mode cs) = showGlyphs (glyphsFrom lang mode cs) := by
  induction cs generalizing mode with
  | nil => exact decodeLossy_nil
  | cons c cs ih =>
    rw [placedFrom_cons, glyphsFrom, showGlyphs_cons]
    by_cases hsplits : Glyph.Splits ⟨c, (step lang mode c cs).1⟩
    · -- only the last character of a text is torn
      obtain ⟨hmark, hsize⟩ := hsplits
      have hend : cs = [] := Decidable.byContradiction fun h => mark_step_ne_torn lang mode c h hmark
      subst hend
      have htorn : (step lang mode c []).1 = .torn := hmark
      rw [htorn]
      show decodeLossy ((Glyph.torn c).bytesInPlace ++ []) = (Glyph.torn c).code ++ []
      rw [List.append_nil, List.append_nil, decodeLossy_torn hsize]
    · rw [← Glyph.bytes_code hsplits, decodeLossy_bytes, ih]

/-- The masked copy of a source is what the loop leaves of its bytes, decoded. -/
theorem mask_eq_decodeLossy (lang : SourceLang) (source : List Char) :
    mask lang source = decodeLossy (maskBytes lang (Text.bytes source)) := by
  rw [maskBytes_eq]
  exact (decodeLossy_placedFrom _ source).symm

end RpcBindings.Masked.Bytewise
