import Assembler65816.Text.Basic

/-! # Numerals

Reading whole numbers in a given radix, and writing them in hexadecimal. A numeral may carry one
leading plus sign; it needs at least one digit and must fit a 32-bit word.
-/

namespace Assembler65816.Numeral

def digitValue (c : Char) : Option Nat :=
  if '0' ≤ c && c ≤ '9' then some (c.toNat - '0'.toNat)
  else if 'a' ≤ c && c ≤ 'z' then some (c.toNat - 'a'.toNat + 10)
  else if 'A' ≤ c && c ≤ 'Z' then some (c.toNat - 'A'.toNat + 10)
  else none

def digit? (radix : Nat) (c : Char) : Option Nat :=
  (digitValue c).filter (· < radix)

def ofDigits? (radix : Nat) (digits : Text) : Option Nat :=
  digits.foldlM (fun n c => (digit? radix c).map (n * radix + ·)) 0

def word? (radix : Nat) (t : Text) : Option UInt32 :=
  let digits := match t with
    | '+' :: rest => rest
    | _ => t
  if digits.isEmpty then none
  else
    match ofDigits? radix digits with
    | some n => if n < UInt32.size then some (UInt32.ofNat n) else none
    | none => none

def hexDigits (width n : Nat) : Text :=
  let digits := (Nat.toDigits 16 n).map Char.toUpper
  List.replicate (width - digits.length) '0' ++ digits

def hex (n : Nat) : String := String.ofList (hexDigits 1 n)

def hexPadded (width n : Nat) : String := String.ofList (hexDigits width n)

end Assembler65816.Numeral
