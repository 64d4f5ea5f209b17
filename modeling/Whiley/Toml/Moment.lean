namespace Whiley.Toml

structure Day where
  year : Nat
  month : Nat
  day : Nat
  deriving DecidableEq, Repr

structure Clock where
  hour : Nat
  minute : Nat
  second : Nat
  microsecond : Nat
  deriving DecidableEq, Repr

inductive Moment
  | day (d : Day)
  | clock (c : Clock)
  /-- The minutes by which local time is ahead may be known. -/
  | both (d : Day) (c : Clock) (ahead : Option Int)
  deriving DecidableEq, Repr

def padded (width n : Nat) : String :=
  let ds := toString n
  String.ofList (List.replicate (width - ds.length) '0') ++ ds

/-! ### Moments on their own -/

def Day.text (d : Day) : String :=
  padded 4 d.year ++ "-" ++ padded 2 d.month ++ "-" ++ padded 2 d.day

def Clock.text (c : Clock) : String :=
  padded 2 c.hour ++ ":" ++ padded 2 c.minute ++ ":" ++ padded 2 c.second ++
    if c.microsecond = 0 then "" else "." ++ padded 6 c.microsecond

def aheadText (minutes : Int) : String :=
  (if minutes < 0 then "-" else "+") ++ padded 2 (minutes.natAbs / 60) ++ ":" ++
    padded 2 (minutes.natAbs % 60)

def Moment.text : Moment → String
  | .day d => d.text
  | .clock c => c.text
  | .both d c ahead => d.text ++ " " ++ c.text ++ (ahead.map aheadText).getD ""

/-! ### Moments inside other values -/

def construction (name : String) (arguments : List String) : String :=
  "datetime." ++ name ++ "(" ++ ", ".intercalate arguments ++ ")"

def Day.arguments (d : Day) : List String :=
  [toString d.year, toString d.month, toString d.day]

def Clock.arguments (c : Clock) : List String :=
  let upToMinutes := [toString c.hour, toString c.minute]
  if c.microsecond ≠ 0 then upToMinutes ++ [toString c.second, toString c.microsecond]
  else if c.second ≠ 0 then upToMinutes ++ [toString c.second]
  else upToMinutes

/-- A time behind is a day behind and so many seconds ahead. -/
def zoneText (minutes : Int) : String :=
  let seconds := "seconds=" ++ toString (minutes * 60 % 86400)
  if minutes = 0 then "datetime.timezone.utc"
  else construction "timezone" [construction "timedelta"
    (if minutes < 0 then ["days=-1", seconds] else [seconds])]

def Moment.shown : Moment → String
  | .day d => construction "date" d.arguments
  | .clock c => construction "time" c.arguments
  | .both d c ahead =>
    construction "datetime" (d.arguments ++ c.arguments ++
      (ahead.map fun minutes => "tzinfo=" ++ zoneText minutes).toList)

example : (Moment.both ⟨2024, 2, 29⟩ ⟨7, 5, 0, 120⟩ (some (-90))).text =
    "2024-02-29 07:05:00.000120-01:30" := by decide +kernel

example : (Moment.both ⟨2024, 2, 29⟩ ⟨7, 5, 0, 0⟩ (some (-90))).shown =
    "datetime.datetime(2024, 2, 29, 7, 5, tzinfo=" ++
      "datetime.timezone(datetime.timedelta(days=-1, seconds=81000)))" := by decide +kernel

end Whiley.Toml
