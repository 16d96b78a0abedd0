/-! # Days and times -/

namespace ContractAudit

structure Date where
  year : Nat
  month : Nat
  day : Nat
deriving DecidableEq, Repr

structure DateTime where
  date : Date
  hour : Nat
  minute : Nat
  second : Nat
  micro : Nat
  /-- How many minutes the clock is ahead of universal time, if that is known. -/
  offset : Option Int
deriving DecidableEq, Repr

inductive Timestamp where
  | date (d : Date)
  | time (t : DateTime)
deriving DecidableEq, Repr

def paddedNumeral (width n : Nat) : String :=
  let ds := (toString n).toList
  String.ofList (List.replicate (width - ds.length) '0' ++ ds)

namespace Date

def isLeap (year : Nat) : Bool := (year % 4 == 0 && year % 100 != 0) || year % 400 == 0

def monthLength (year month : Nat) : Nat :=
  if month == 2 then (if isLeap year then 29 else 28)
  else if [4, 6, 9, 11].contains month then 30 else 31

def problem? (d : Date) : Option String :=
  if d.year < 1 || 9999 < d.year then some ("year " ++ toString d.year ++ " is out of range")
  else if d.month < 1 || 12 < d.month then some "month must be in 1..12"
  else if d.day < 1 || monthLength d.year d.month < d.day then some "day is out of range for month"
  else none

def daysBeforeYear (year : Nat) : Nat :=
  let y := year - 1
  365 * y + y / 4 - y / 100 + y / 400

def daysBeforeMonth (year month : Nat) : Nat :=
  (List.range (month - 1)).foldl (fun days m => days + monthLength year (m + 1)) 0

def number (d : Date) : Nat := daysBeforeYear d.year + daysBeforeMonth d.year d.month + d.day

def text (d : Date) : String := paddedNumeral 4 d.year ++ "-" ++ paddedNumeral 2 d.month ++ "-" ++ paddedNumeral 2 d.day

def parts (d : Date) : List Nat := [d.year, d.month, d.day]

def shown (d : Date) : String :=
  "datetime.date(" ++ ", ".intercalate (d.parts.map toString) ++ ")"

end Date

/-- A span of minutes as it appears in a message: whole days, and seconds that are not negative. -/
def shownSpan (minutes : Int) : String :=
  let days := minutes.fdiv 1440
  let seconds := minutes.fmod 1440 * 60
  let part (name : String) (n : Int) : List String :=
    if n == 0 then [] else [name ++ "=" ++ toString n]
  let given := part "days" days ++ part "seconds" seconds
  "datetime.timedelta(" ++ (if given.isEmpty then "0" else ", ".intercalate given) ++ ")"

namespace DateTime

def problem? (t : DateTime) : Option String :=
  match t.date.problem? with
  | some p => some p
  | none =>
    if 23 < t.hour then some "hour must be in 0..23"
    else if 59 < t.minute then some "minute must be in 0..59"
    else if 59 < t.second then some "second must be in 0..59"
    else none

def offsetText : Option Int → String
  | none => ""
  | some n =>
    (if n < 0 then "-" else "+") ++ paddedNumeral 2 (n.natAbs / 60) ++ ":" ++ paddedNumeral 2 (n.natAbs % 60)

def text (t : DateTime) : String :=
  t.date.text ++ " " ++ paddedNumeral 2 t.hour ++ ":" ++ paddedNumeral 2 t.minute ++ ":" ++ paddedNumeral 2 t.second
    ++ (if t.micro == 0 then "" else "." ++ paddedNumeral 6 t.micro) ++ offsetText t.offset

/-- The time as it appears in a message; seconds and their parts are left out if they are zero. -/
def shown (t : DateTime) : String :=
  let fine := if t.micro != 0 then [t.second, t.micro] else if t.second != 0 then [t.second] else []
  let zone := match t.offset with
    | none => []
    | some n => ["tzinfo=datetime.timezone" ++ if n == 0 then ".utc" else "(" ++ shownSpan n ++ ")"]
  "datetime.datetime(" ++ ", ".intercalate
    ((t.date.parts ++ [t.hour, t.minute] ++ fine).map toString ++ zone) ++ ")"

def instant (t : DateTime) : Int :=
  ((t.date.number * 24 + t.hour) * 60 + t.minute - t.offset.getD 0) * 60000000
    + t.second * 1000000 + t.micro

end DateTime

namespace Timestamp

def text : Timestamp → String
  | date d => d.text
  | time t => t.text

def shown : Timestamp → String
  | date d => d.shown
  | time t => t.shown

/-- The order of two timestamps: days among each other, and times whose distance from universal time
    is known for both or for neither. -/
def compare? : Timestamp → Timestamp → Option Ordering
  | date a, date b => some (compare a.number b.number)
  | time a, time b =>
    if a.offset.isSome == b.offset.isSome then some (compare a.instant b.instant) else none
  | _, _ => none

def kindName : Timestamp → String
  | date _ => "datetime.date"
  | time _ => "datetime.datetime"

end Timestamp

end ContractAudit
