import WorkflowCompiler.Calendar
import WorkflowCompiler.Numeric.Integer

/-!
# Dates and times of TOML

A *moment* is a date, a time of day, or both, and with both an offset from universal time may
stand. Whatever way a moment is spelled, it has one text: a `T` between date and time, a
fraction of a second without zeros at its end, and a `Z` or a sign with hours and minutes for
the offset.

A moment stands in a document as a literal, or is spelled by a string; both follow the same
grammar.

* `Moment.readPrefix` — the moment that a document goes on with;
* `Moment.ofText?` — the moment that a whole string spells;
* `Moment.text` — its text.
-/

namespace WorkflowCompiler.Toml

/-- A time of day. -/
structure TimeOfDay where
  /-- the hours -/
  hour : Nat
  /-- the minutes -/
  minute : Nat
  /-- the seconds, up to 60 for a leap second -/
  second : Nat
  /-- the fraction of a second, in parts of 10⁻⁹ -/
  nanosecond : Nat
deriving DecidableEq

/-- An offset from universal time. -/
inductive Offset where
  /-- none: the time is universal time -/
  | universal
  /-- so many minutes -/
  | minutes (count : Int)
deriving DecidableEq

/-- A date, a time of day, or both. -/
structure Moment where
  /-- the date -/
  date : Option Calendar.Date := none
  /-- the time of day -/
  time : Option TimeOfDay := none
  /-- the offset of the time from universal time -/
  offset : Option Offset := none
deriving DecidableEq

/-! ## Writing -/

/-- A fraction of a second, which is left out if it is nothing. -/
def fractionText (nanosecond : Nat) : String :=
  if nanosecond = 0 then ""
  else
    let ds := (Calendar.padded 9 nanosecond).toList
    "." ++ String.ofList (ds.reverse.dropWhile (· = '0')).reverse

/-- A time of day as hours, minutes and seconds. -/
def TimeOfDay.text (t : TimeOfDay) : String :=
  Calendar.padded 2 t.hour ++ ":" ++ Calendar.padded 2 t.minute ++ ":" ++
    Calendar.padded 2 t.second ++ fractionText t.nanosecond

/-- An offset as hours and minutes. No minutes at all have a plus. -/
def Offset.text : Offset → String
  | universal => "Z"
  | minutes count =>
    (if count < 0 then "-" else "+") ++ Calendar.padded 2 (count.natAbs / 60) ++ ":" ++
      Calendar.padded 2 (count.natAbs % 60)

/-- The one text of a moment. -/
def Moment.text (m : Moment) : String :=
  let date := (m.date.map Calendar.Date.text).getD ""
  let between := if m.date.isSome && m.time.isSome then "T" else ""
  let time := (m.time.map TimeOfDay.text).getD ""
  date ++ between ++ time ++ (m.offset.map Offset.text).getD ""

/-! ## Reading -/

/-- A character that has to come next. -/
def expect (c : Char) : List Char → Option (List Char)
  | d :: rest => if d = c then some rest else none
  | [] => none

/-- So many decimal digits that stand for a number between two bounds. -/
def readField (count low high : Nat) (cs : List Char) : Option (Nat × List Char) :=
  let ds := cs.take count
  let n := Integer.valueFrom 0 ds
  if ds.length = count ∧ ds.all Char.isDigit ∧ low ≤ n ∧ n ≤ high then some (n, cs.drop count)
  else none

/-- The number of days of a month. -/
def daysOf (year month : Nat) : Nat :=
  if month = 2 then
    if year % 4 = 0 ∧ (year % 100 ≠ 0 ∨ year % 400 = 0) then 29 else 28
  else if month = 4 ∨ month = 6 ∨ month = 9 ∨ month = 11 then 30
  else 31

/-- A date. -/
def readDate (cs : List Char) : Option (Calendar.Date × List Char) := do
  let (year, rest) ← readField 4 0 9999 cs
  let rest ← expect '-' rest
  let (month, rest) ← readField 2 1 12 rest
  let rest ← expect '-' rest
  let (day, rest) ← readField 2 1 (daysOf year month) rest
  pure ({ year, month, day }, rest)

/-- A fraction of a second, if there is one; digits behind the ninth do not count. -/
def readNanosecond : List Char → Option (Nat × List Char)
  | '.' :: cs =>
    match cs.takeWhile Char.isDigit with
    | [] => none
    | ds =>
      let kept := ds.take 9
      some (Integer.valueFrom 0 kept * Nat.pow 10 (9 - kept.length), cs.drop ds.length)
  | cs => some (0, cs)

/-- A time of day. -/
def readTime (cs : List Char) : Option (TimeOfDay × List Char) := do
  let (hour, rest) ← readField 2 0 23 cs
  let rest ← expect ':' rest
  let (minute, rest) ← readField 2 0 59 rest
  let rest ← expect ':' rest
  let (second, rest) ← readField 2 0 60 rest
  let (nanosecond, rest) ← readNanosecond rest
  pure ({ hour, minute, second, nanosecond }, rest)

/-- The offset from universal time, if one is given. -/
def readOffset : List Char → Option (Option Offset × List Char)
  | c :: rest =>
    if c = 'Z' ∨ c = 'z' then some (some .universal, rest)
    else if c = '+' ∨ c = '-' then do
      let (hours, rest) ← readField 2 0 23 rest
      let rest ← expect ':' rest
      let (minutes, rest) ← readField 2 0 59 rest
      let count : Int := hours * 60 + minutes
      pure (some (.minutes (if c = '-' then -count else count)), rest)
    else some (none, c :: rest)
  | [] => some (none, [])

/-- The time of day behind a date, with its offset. -/
def readTimeBehind : List Char → Option ((TimeOfDay × Option Offset) × List Char)
  | c :: rest =>
    if c = 'T' ∨ c = 't' ∨ c = ' ' then do
      let (time, rest) ← readTime rest
      let (offset, rest) ← readOffset rest
      pure ((time, offset), rest)
    else none
  | [] => none

namespace Moment

/-- The moment at the start of a text, and what follows it. -/
def readPrefix (cs : List Char) : Option (Moment × List Char) :=
  match readDate cs with
  | some (date, rest) =>
    match readTimeBehind rest with
    | some ((time, offset), rest) => some ({ date := some date, time := some time, offset }, rest)
    -- a blank behind a date need not lead to a time
    | none => some ({ date := some date }, rest)
  | none => (readTime cs).map fun (time, rest) => ({ time := some time }, rest)

/-- The moment that a whole string spells. -/
def ofText? (text : String) : Option Moment :=
  match readPrefix text.toList with
  | some (m, []) => some m
  | _ => none

end Moment

example : Offset.text (.minutes 0) = "+00:00" ∧ Offset.text (.minutes (-90)) = "-01:30" := by decide
example : (readNanosecond ".1200".toList).map (fractionText ·.1) = some ".12" := by decide
example : daysOf 1900 2 = 28 ∧ daysOf 2000 2 = 29 := by decide

end WorkflowCompiler.Toml
