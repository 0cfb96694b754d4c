import RpcBindings.Proofs.CamelCase

/-!
Words put together and taken off.

A name without blanks is a list of words, and a separator puts two of these lists together. Main
statement: camel case keeps such a name as it is put together and changes no name twice; a namespace
is taken off the names that it has been put in front of wherever a word follows, whatever its spelling,
and never takes all of a name (`Namespace.strip_joined`).
-/

namespace RpcBindings

open Casing Text

namespace Casing

variable {c : Char} {cs : List Char} {a b : String}

/-- A name without blanks. -/
def IsUnbroken (name : String) : Prop :=
  ∀ c ∈ name.toList, isBlank c = false

instance (name : String) : Decidable (IsUnbroken name) :=
  decidableBAll name.toList

theorem not_isBlank_of_isUpper (h : c.isUpper = true) : isBlank c = false := by
  obtain ⟨hlow, hhigh⟩ := isUpper_iff.1 h
  refine Bool.eq_false_iff.2 fun hblank => ?_
  simp only [isBlank, Bool.or_eq_true, Bool.and_eq_true, decide_eq_true_eq, beq_iff_eq] at hblank
  omega

theorem isBlank_toUpper (h : isBlank c = false) : isBlank c.toUpper = false := by
  cases hlower : c.isLower with
  | true => exact not_isBlank_of_isUpper (isUpper_toUpper hlower)
  | false => rwa [toUpper_of_not_isLower hlower]

theorem not_isBlank_of_isSeparator (h : isSeparator c = true) : isBlank c = false := by
  rcases isSeparator_iff.1 h with rfl | rfl <;> decide

theorem isUnbroken_of_joinWords {raised : Bool} (h : IsUnbroken a)
    (hb : b.toList = joinWords raised (trim a.toList)) : IsUnbroken b := by
  unfold IsUnbroken
  rw [hb, trim_of_not_isBlank h]
  exact forall_mem_joinWords fun c hc _ => ⟨h c hc, isBlank_toUpper (h c hc)⟩

/-- Text without separators is one word, whose first letter alone may be raised. -/
theorem joinWords_of_no_separator (h : ∀ c ∈ cs, isSeparator c = false) :
    joinWords false cs = cs := by
  induction cs with
  | nil => exact joinWords_nil false
  | cons c cs ih =>
    rw [joinWords_letter (h c List.mem_cons_self), if_neg Bool.false_ne_true,
      ih fun d hd => h d (List.mem_cons_of_mem c hd)]

/-- A name in camel case is in camel case. -/
theorem joinWords_joinWords (raised : Bool) (cs : List Char) :
    joinWords raised (joinWords raised cs) = joinWords raised cs := by
  have hword : joinWords false (joinWords raised cs) = joinWords raised cs :=
    joinWords_of_no_separator fun c hc => not_isSeparator_of_mem_joinWords hc
  cases raised with
  | false => exact hword
  | true =>
    have hraise : raiseFirst (joinWords false (joinWords true cs)) =
        joinWords true (joinWords true cs) := raiseFirst_joinWords _
    rw [← hraise, hword, raiseFirst_joinWords]

theorem lowerCamel_lowerCamel (h : IsUnbroken a) : lowerCamel (lowerCamel a) = lowerCamel a := by
  have hcamel := toList_lowerCamel a
  apply String.toList_injective
  rw [toList_lowerCamel, trim_of_not_isBlank (isUnbroken_of_joinWords h hcamel), hcamel,
    joinWords_joinWords]

theorem upperCamel_upperCamel (h : IsUnbroken a) : upperCamel (upperCamel a) = upperCamel a := by
  have hcamel := toList_upperCamel a
  apply String.toList_injective
  rw [toList_upperCamel, trim_of_not_isBlank (isUnbroken_of_joinWords h hcamel), hcamel,
    joinWords_joinWords]

/-- A separator puts the words of two names together. -/
theorem upperCamel_join {sep : String} {s : Char} (hsep : sep.toList = [s])
    (hs : isSeparator s = true) (ha : IsUnbroken a) (hb : IsUnbroken b) :
    upperCamel (a ++ sep ++ b) = upperCamel a ++ upperCamel b := by
  have htext : (a ++ sep ++ b).toList = a.toList ++ s :: b.toList := by
    rw [String.toList_append, String.toList_append, hsep, List.append_assoc]
    rfl
  have hjoined : ∀ c ∈ a.toList ++ s :: b.toList, isBlank c = false := by
    intro c hc
    rcases List.mem_append.1 hc with hc | hc
    · exact ha c hc
    rcases List.mem_cons.1 hc with rfl | hc
    · exact not_isBlank_of_isSeparator hs
    · exact hb c hc
  apply String.toList_injective
  rw [String.toList_append, toList_upperCamel, toList_upperCamel, toList_upperCamel, htext,
    trim_of_not_isBlank hjoined, trim_of_not_isBlank ha, trim_of_not_isBlank hb,
    joinWords_append_separator hs]

end Casing

namespace Namespace

variable {exported nspace rest : String}

/-- A name that begins with its namespace is shortened exactly where a word follows. -/
theorem strip_append (hns : upperCamel nspace ≠ "") :
    strip (upperCamel nspace ++ rest) nspace =
      if startsWord rest.toList then rest else upperCamel nspace ++ rest := by
  have hne : (upperCamel nspace).toList ≠ [] := fun h => hns (String.toList_eq_nil_iff.1 h)
  have happend := String.toList_append (s := upperCamel nspace) (t := rest)
  split
  · rename_i hword
    rw [strip_of_append hne happend hword, String.ofList_toList]
  · rename_i hword
    refine by_contra fun hstrip => ?_
    obtain ⟨rest', -, hword', happend'⟩ := exists_of_strip_ne hstrip
    obtain rfl := List.append_cancel_left (happend.symm.trans happend')
    exact hword hword'

theorem strip_ne_empty (h : exported ≠ "") : strip exported nspace ≠ "" := by
  intro hempty
  obtain ⟨rest, hns, hword, happend⟩ :=
    exists_of_strip_ne (hempty ▸ h.symm : strip exported nspace ≠ exported)
  rw [strip_of_append hns happend hword] at hempty
  obtain rfl := String.ofList_eq_empty_iff.1 hempty
  exact absurd hword (by decide)

theorem startsWord_eq (cs : List Char) : startsWord cs = cs.head?.any Char.isUpper := by
  cases cs <;> rfl

/-- In upper camel case names without blanks are put together by a separator, and a name that is in
camel case stays as it is. A namespace with a name is taken off every name that it was put in front
of, where a word follows. What is taken off depends on the words of the namespace alone, and
something is always left. -/
theorem strip_joined :
    (∀ a b, IsUnbroken a → IsUnbroken b →
      upperCamel (a ++ "_" ++ b) = upperCamel a ++ upperCamel b ∧
      upperCamel (a ++ "-" ++ b) = upperCamel a ++ upperCamel b) ∧
    (∀ a, IsUnbroken a → lowerCamel (lowerCamel a) = lowerCamel a ∧
      upperCamel (upperCamel a) = upperCamel a) ∧
    (∀ nspace rest, IsUnbroken nspace → upperCamel nspace ≠ "" → IsUnbroken rest →
      strip (upperCamel (nspace ++ "_" ++ rest)) nspace =
        if (upperCamel rest).toList.head?.any Char.isUpper then upperCamel rest
        else upperCamel (nspace ++ "_" ++ rest)) ∧
    (∀ exported nspace nspace', upperCamel nspace = upperCamel nspace' →
      strip exported nspace = strip exported nspace') ∧
    ∀ exported nspace, exported ≠ "" → strip exported nspace ≠ "" := by
  refine ⟨fun a b ha hb => ⟨upperCamel_join (s := '_') rfl (by decide) ha hb,
      upperCamel_join (s := '-') rfl (by decide) ha hb⟩,
    fun a ha => ⟨lowerCamel_lowerCamel ha, upperCamel_upperCamel ha⟩,
    fun nspace rest hns hne hrest => ?_, fun exported nspace nspace' h => ?_,
    fun exported nspace => strip_ne_empty⟩
  · have hjoin : upperCamel (nspace ++ "_" ++ rest) = upperCamel nspace ++ upperCamel rest :=
      upperCamel_join (s := '_') rfl (by decide) hns hrest
    rw [hjoin, strip_append hne, startsWord_eq]
  · unfold strip
    rw [h]

/-- A namespace that is spelled in two ways. -/
theorem strip_joined_pool :
    upperCamel ("tx_pool" ++ "_" ++ "get--status_") = "TxPoolGetStatus" ∧
      upperCamel (upperCamel "-tx_pool") = upperCamel "-tx_pool" ∧
      strip "TxPoolGetStatus" "tx_pool" = "GetStatus" ∧
      strip "TxPoolGetStatus" "TxPool" = strip "TxPoolGetStatus" "-tx-pool" ∧
      strip "TxPool" "tx_pool" ≠ "" := by
  obtain ⟨hjoin, hcamel, hstrip, hspelling, hsome⟩ := strip_joined
  have hpool := (hjoin "tx_pool" "get--status_" (by decide +kernel) (by decide +kernel)).1
  have hnames : upperCamel "tx_pool" ++ upperCamel "get--status_" = "TxPoolGetStatus" := by
    decide +kernel
  have hstripped := hstrip "tx_pool" "get--status_" (by decide +kernel) (by decide +kernel)
    (by decide +kernel)
  rw [hpool, hnames] at hstripped
  refine ⟨hpool.trans hnames, (hcamel "-tx_pool" (by decide +kernel)).2,
    hstripped.trans (by decide +kernel), hspelling _ _ _ (by decide +kernel),
    hsome _ _ (by decide)⟩

end Namespace

end RpcBindings
