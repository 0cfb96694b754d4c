/-!
Dates and times of TOML.

A value is a date, a time of day, or both, and with both perhaps an offset. Reading checks that the
day exists. Each value has one text: `T` stands between date and time, seconds are never missing,
and a fraction of a second has at most nine digits and no zero at its end.
-/

namespace RpcBindings.Toml

structure Date where
  year : Nat
  month : Nat
  day : Nat
  deriving DecidableEq, Repr

structure Time where
  hour : Nat
  minute : Nat
  second : Nat
  /-- The digits of the fraction of a second. -/
  fraction : List Char
  deriving DecidableEq, Repr

/-- How far a time of day is from that of the prime meridian. -/
inductive Offset where
  | zulu
  /-- Hours and minutes, behind the prime meridian or not. -/
  | hours (behind : Bool) (hour minute : Nat)
  deriving DecidableEq, Repr

inductive DateTime where
  | date (date : Date)
  | time (time : Time)
  | both (date : Date) (time : Time) (offset? : Option Offset)
  deriving DecidableEq, Repr

/-! ## Numbers of fixed width -/

/-- The last `width` decimal digits of a number. -/
def digits : Nat → Nat → List Char
  | 0, _ => []
  | width + 1, n => digits width (n / 10) ++ [Nat.digitChar (n % 10)]

/-- A number of `width` digits after those read already, and what follows it. -/
def number? : Nat → Nat → List Char → Option (Nat × List Char)
  | 0, n, cs => some (n, cs)
  | _ + 1, _, [] => none
  | width + 1, n, c :: cs =>
    if c.isDigit then number? width (10 * n + (c.toNat - '0'.toNat)) cs else none

/-- What follows a character. -/
def after? (c : Char) : List Char → Option (List Char)
  | d :: cs => if c = d then some cs else none
  | [] => none

/-! ## Dates -/

def isLeapYear (year : Nat) : Bool :=
  year % 4 == 0 && (year % 100 != 0 || year % 400 == 0)

/-- The number of days of a month. -/
def daysIn (year month : Nat) : Nat :=
  match month with
  | 2 => if isLeapYear year then 29 else 28
  | 4 => 30
  | 6 => 30
  | 9 => 30
  | 11 => 30
  | _ => 31

namespace Date

/-- Whether the calendar has the date. -/
def isReal (d : Date) : Bool :=
  1 ≤ d.month && d.month ≤ 12 && 1 ≤ d.day && d.day ≤ daysIn d.year d.month

def read? (cs : List Char) : Option (Date × List Char) := do
  let (year, cs) ← number? 4 0 cs
  let (month, cs) ← number? 2 0 (← after? '-' cs)
  let (day, cs) ← number? 2 0 (← after? '-' cs)
  let d : Date := ⟨year, month, day⟩
  if d.isReal then some (d, cs) else none

def toList (d : Date) : List Char :=
  digits 4 d.year ++ '-' :: digits 2 d.month ++ '-' :: digits 2 d.day

end Date

/-! ## Times of day -/

/-- A list without the zeros at its end. -/
def dropZeros (ds : List Char) : List Char :=
  (ds.reverse.dropWhile (· == '0')).reverse

namespace Time

/-- The fraction of a second after its point; digits after the ninth do not count. -/
def fraction? (cs : List Char) : Option (List Char × List Char) :=
  match cs.takeWhile Char.isDigit with
  | [] => none
  | ds => some (dropZeros (ds.take 9), cs.dropWhile Char.isDigit)

/-- The seconds after their colon, with their fraction. -/
def seconds? (cs : List Char) : Option ((Nat × List Char) × List Char) := do
  let (second, cs) ← number? 2 0 cs
  match cs with
  | '.' :: cs =>
    let (fraction, cs) ← fraction? cs
    return ((second, fraction), cs)
  | cs => return ((second, []), cs)

/-- A time of day. A minute may have a leap second. -/
def read? (cs : List Char) : Option (Time × List Char) := do
  let (hour, cs) ← number? 2 0 cs
  let (minute, cs) ← number? 2 0 (← after? ':' cs)
  let ((second, fraction), cs) ← match cs with
    | ':' :: cs => seconds? cs
    | cs => some ((0, []), cs)
  if hour ≤ 23 && minute ≤ 59 && second ≤ 60 then some (⟨hour, minute, second, fraction⟩, cs)
  else none

def toList (t : Time) : List Char :=
  digits 2 t.hour ++ ':' :: digits 2 t.minute ++ ':' :: digits 2 t.second ++
    if t.fraction.isEmpty then [] else '.' :: t.fraction

end Time

namespace Offset

/-- An offset that ends the text. -/
def ofList? : List Char → Option Offset
  | ['Z'] => some .zulu
  | ['z'] => some .zulu
  | sign :: cs => do
    if sign != '+' && sign != '-' then none
    let (hour, cs) ← number? 2 0 cs
    let (minute, cs) ← number? 2 0 (← after? ':' cs)
    if hour ≤ 23 && minute ≤ 59 && cs.isEmpty then
      some (.hours (sign == '-' && hour + minute != 0) hour minute)
    else none
  | [] => none

def toList : Offset → List Char
  | .zulu => ['Z']
  | .hours behind hour minute =>
    (if behind then '-' else '+') :: digits 2 hour ++ ':' :: digits 2 minute

end Offset

namespace DateTime

/-- What may follow a date: a time of day with an offset that may be missing. -/
def afterDate? (d : Date) : List Char → Option DateTime
  | [] => some (.date d)
  | separator :: cs => do
    if separator != 'T' && separator != 't' && separator != ' ' then none
    let (t, cs) ← Time.read? cs
    if cs.isEmpty then some (.both d t none)
    else return .both d t (some (← Offset.ofList? cs))

/-- The value that a text is. -/
def ofList? (cs : List Char) : Option DateTime :=
  match Date.read? cs with
  | some (d, rest) => afterDate? d rest
  | none =>
    match Time.read? cs with
    | some (t, []) => some (.time t)
    | _ => none

def toList : DateTime → List Char
  | .date d => d.toList
  | .time t => t.toList
  | .both d t offset? => d.toList ++ 'T' :: t.toList ++ (offset?.map Offset.toList).getD []

def text (v : DateTime) : String :=
  .ofList v.toList

end DateTime

/-! ## Small facts -/

theorem length_digits (width n : Nat) : (digits width n).length = width := by
  induction width generalizing n with
  | zero => rfl
  | succ width ih => simp [digits, ih]

theorem length_toList_date (d : Date) : d.toList.length = 10 := by
  simp [Date.toList, length_digits]

end RpcBindings.Toml
