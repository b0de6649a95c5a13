import WebIdl.Toml.Text

/-!
# TOML numbers and dates

Only whether they are well formed matters: no setting is a number or a date.
-/

namespace WebIdl.Toml

open Scan

/-- Digits with single underscores between them, the underscores left out. -/
def digitGroups (p : Char → Bool) : Scan (List Char) := do
  let group : Scan (List Char) := do
    let digits ← takeWhile p
    if digits.isEmpty then failure else return digits
  return (← separated (taken "_") group).flatten

def sign : Scan (Option Char) := do
  match ← peek? with
  | some '+' => modify (·.drop 1); return some '+'
  | some '-' => modify (·.drop 1); return some '-'
  | _ => return none

/-- Decimal digits that start with zero only if that is all of them. -/
def wholePart : Scan (List Char) := do
  if ← taken "0" then return ['0'] else digitGroups Char.isDigit

/-- Integers have 64 bits. -/
def integerLimit : Nat := 1 <<< 63

def basedInteger (base : Nat) (p : Char → Bool) : Scan Unit := do
  let digits ← digitGroups p
  if digitsValue base digits < integerLimit then return () else failure

def integer : Scan Unit := do
  if ← taken "0x" then basedInteger 16 Text.isHexDigit
  else if ← taken "0o" then basedInteger 8 Text.isOctalDigit
  else if ← taken "0b" then basedInteger 2 fun c => c == '0' || c == '1'
  else
    let negative := (← sign) == some '-'
    let n := digitsValue 10 (← wholePart)
    if n < integerLimit ∨ (negative ∧ n = integerLimit) then return () else failure

/-- Whether `digits · 10 ^ exponent` is rounded to a finite double. The first two tests keep the
powers small. -/
def isFiniteDouble (digits : Nat) (exponent : Int) : Bool :=
  let size : Int := (Nat.toDigits 10 digits).length
  let bound : Nat := 1 <<< 1024 - 1 <<< 970
  if digits = 0 ∨ size + exponent ≤ 308 then true
  else if 310 ≤ size + exponent then false
  else digits * Nat.pow 10 exponent.toNat < bound * Nat.pow 10 (-exponent).toNat

def exponentPart : Scan Int := do
  let negative := (← sign) == some '-'
  let n : Int := digitsValue 10 (← digitGroups Char.isDigit)
  return if negative then -n else n

def exponentMark : Scan Bool := do
  if ← taken "e" then return true else taken "E"

/-- A number with a fraction or an exponent. A positive one has to be finite. -/
def decimalFloat : Scan Unit := do
  let negative := (← sign) == some '-'
  let whole ← wholePart
  let fraction ← if ← taken "." then digitGroups Char.isDigit else pure []
  let exponent? ← if ← exponentMark then some <$> exponentPart else pure none
  if fraction.isEmpty ∧ exponent?.isNone then
    failure
  else
    let exponent := exponent?.getD 0 - fraction.length
    if negative ∨ isFiniteDouble (digitsValue 10 (whole ++ fraction)) exponent then return ()
    else failure

def specialFloat : Scan Unit := do
  let _ ← sign
  if ← taken "inf" then return () else require "nan"

/-- So many digits whose value lies between two bounds. -/
def bounded (digits low high : Nat) : Scan Nat := do
  let n := digitsValue 10 (← exactly digits Char.isDigit)
  if low ≤ n ∧ n ≤ high then return n else failure

def daysInMonth (year month : Nat) : Nat :=
  let leap := year % 4 = 0 ∧ (year % 100 ≠ 0 ∨ year % 400 = 0)
  if month = 2 then (if leap then 29 else 28)
  else if month ∈ [4, 6, 9, 11] then 30
  else 31

def date : Scan Unit := do
  let year ← bounded 4 0 9999
  require "-"
  let month ← bounded 2 1 12
  require "-"
  let _ ← bounded 2 1 (daysInMonth year month)

def time : Scan Unit := do
  let _ ← bounded 2 0 23
  require ":"
  let _ ← bounded 2 0 59
  require ":"
  let _ ← bounded 2 0 60
  if ← taken "." then
    let digits ← takeWhile Char.isDigit
    if digits.isEmpty then failure

def offset : Scan Unit := do
  if ← taken "Z" then return ()
  else if ← taken "z" then return ()
  else if (← sign).isSome then
    let _ ← bounded 2 0 23
    require ":"
    let _ ← bounded 2 0 59
  else failure

def timeMark : Scan Unit := do
  if ← taken "T" then return ()
  else if ← taken "t" then return ()
  else require " "

/-- A date with or without a time, or a time. -/
def dateTime : Scan Unit := do
  let full : Scan Unit := do
    date
    let _ ← maybe do
      timeMark
      time
      let _ ← maybe offset
  either full time

end WebIdl.Toml
