namespace SymbolicTypes.Toml

def scanFixed (count : Nat) (cs : List Char) : Option (Nat × List Char) :=
  let word := cs.take count
  if word.length = count ∧ word.all Char.isDigit then
    some (word.foldl (fun n c => 10 * n + (c.toNat - '0'.toNat)) 0, cs.drop count)
  else none

def isLeapYear (year : Nat) : Bool := year % 4 = 0 && (year % 100 ≠ 0 || year % 400 = 0)

def daysIn (year month : Nat) : Nat :=
  if month = 2 then if isLeapYear year then 29 else 28
  else if month = 4 ∨ month = 6 ∨ month = 9 ∨ month = 11 then 30
  else 31

def skipDate (cs : List Char) : Option (List Char) := do
  let (year, '-' :: cs) ← scanFixed 4 cs | none
  let (month, '-' :: cs) ← scanFixed 2 cs | none
  let (day, cs) ← scanFixed 2 cs
  if 1 ≤ month ∧ month ≤ 12 ∧ 1 ≤ day ∧ day ≤ daysIn year month then return cs else none

def skipSeconds : List Char → Option (List Char)
  | ':' :: cs => do
    let (second, cs) ← scanFixed 2 cs
    if 60 < second then none
    match cs with
    | '.' :: ds => if ds.head?.any Char.isDigit then return ds.dropWhile Char.isDigit else none
    | _ => return cs
  | cs => some cs

def skipTime (cs : List Char) : Option (List Char) := do
  let (hour, ':' :: cs) ← scanFixed 2 cs | none
  let (minute, cs) ← scanFixed 2 cs
  if hour ≤ 23 ∧ minute ≤ 59 then skipSeconds cs else none

def skipOffset : List Char → Option (List Char)
  | [] => some []
  | c :: cs =>
    if c = 'Z' ∨ c = 'z' then some cs
    else if c = '+' ∨ c = '-' then do
      let (hour, ':' :: cs) ← scanFixed 2 cs | none
      let (minute, cs) ← scanFixed 2 cs
      if hour ≤ 23 ∧ minute ≤ 59 then return cs else none
    else none

/-- A date, a time of day, or both with a `T` or a space between them. Only a time on a date may
have an offset. -/
def isMoment (cs : List Char) : Bool :=
  match skipDate cs with
  | some [] => true
  | some (c :: rest) =>
    (c = 'T' || c = 't' || c = ' ') && ((skipTime rest).bind skipOffset).any List.isEmpty
  | none => (skipTime cs).any List.isEmpty

end SymbolicTypes.Toml
