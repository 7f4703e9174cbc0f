import Assembler65816.Text.Numeral

/-! # Command-line arguments

Arguments are read from left to right. An option with a value takes it from the same argument
(`-rV`, `-r=V`, `--rom=V`) or from the next one; letters without a value may be joined; everything
after a bare `--` is a file name. A value is checked when the argument after it is read, or at the
end, so an argument that nothing is known about is reported before a bad value in front of it. The
reader stands in for the library that reads arguments by a description of the options.
-/

namespace Assembler65816.CommandLine

/-- Settings with a value. `input` is the file name given without an option. -/
inductive Setting where
  | input
  | source
  | output
  | romSize
  | romBase
  | fill
  | symbols
  | maxPasses
  deriving DecidableEq, Repr

inductive Flag where
  | addressed
  | intelHex
  | quietInfo
  | quietWarnings
  deriving DecidableEq, Repr

inductive Switch where
  | setting (s : Setting)
  | flag (f : Flag)
  | help
  | version
  deriving DecidableEq, Repr

def Switch.ofLetter? : Char → Option Switch
  | 'a' => some (.setting .source)
  | 'o' => some (.setting .output)
  | 'r' => some (.setting .romSize)
  | 'f' => some (.setting .fill)
  | 's' => some (.setting .symbols)
  | 'i' => some (.flag .quietInfo)
  | 'w' => some (.flag .quietWarnings)
  | 'h' => some .help
  | 'V' => some .version
  | _ => none

def Switch.ofName? (name : String) : Option Switch :=
  match name with
  | "asm" => some (.setting .source)
  | "out" => some (.setting .output)
  | "rom" => some (.setting .romSize)
  | "base" => some (.setting .romBase)
  | "fill" => some (.setting .fill)
  | "symbols" => some (.setting .symbols)
  | "max-passes" => some (.setting .maxPasses)
  | "o64" => some (.flag .addressed)
  | "hex" => some (.flag .intelHex)
  | "ignore-info" => some (.flag .quietInfo)
  | "ignore-warn" => some (.flag .quietWarnings)
  | "help" => some .help
  | "version" => some .version
  | _ => none

inductive Refusal where
  /-- An option nobody knows, or a second file name. -/
  | unknownArgument
  /-- Something given twice, or two things that exclude each other. -/
  | conflict
  | missingValue
  | badValue
  | needlessValue
  | help
  | version
  deriving DecidableEq, Repr

structure Arguments where
  values : List (Setting × Text) := []
  flags : List Flag := []
  deriving DecidableEq, Repr

namespace Arguments

def get? (a : Arguments) (s : Setting) : Option Text := a.values.lookup s

def has (a : Arguments) (f : Flag) : Bool := a.flags.contains f

/-- Reads a whole number that fits a word. It may carry a sign, but only zero may be negative. -/
def count? (t : Text) : Option UInt32 :=
  match t with
  | '-' :: digits =>
    if digits.head? = some '+' then none
    else (Numeral.word? 10 digits).filter (· == 0)
  | _ => Numeral.word? 10 t

def check (s : Setting) (value : Text) : Except Refusal Unit :=
  match s with
  | .input | .source | .output | .symbols => if value.isEmpty then .error .missingValue else .ok ()
  | .maxPasses => if (count? value).isNone then .error .badValue else .ok ()
  | .romSize | .romBase | .fill => .ok ()

def accept (a : Arguments) (s : Setting) : Option Text → Except Refusal Arguments
  | none => .error .missingValue
  | some value =>
    if (a.get? s).isSome then .error .conflict
    else (check s value).map fun _ => { a with values := (s, value) :: a.values }

def raise (a : Arguments) (f : Flag) : Except Refusal Arguments :=
  if a.has f then .error .conflict else .ok { a with flags := f :: a.flags }

/-- The file name and `--asm` exclude each other, and so do the two special formats. -/
def checkConflicts (a : Arguments) : Except Refusal Arguments :=
  if (a.get? .input).isSome && (a.get? .source).isSome then .error .conflict
  else if a.has .addressed && a.has .intelHex then .error .conflict
  else .ok a

end Arguments

/-- State of the reader. `pending` is a setting that is not checked yet, with its value if that has
been read; `awaiting` tells that the next argument may be the value. -/
structure Reader where
  arguments : Arguments := {}
  pending : Option (Setting × Option Text) := none
  awaiting : Bool := false
  hasInput : Bool := false
  namesOnly : Bool := false
  deriving DecidableEq, Repr

namespace Reader

def settle (r : Reader) : Except Refusal Reader :=
  match r.pending with
  | none => .ok r
  | some (s, value) =>
    (r.arguments.accept s value).map fun arguments =>
      { r with arguments, pending := none, awaiting := false }

def takeSwitch (r : Reader) (switch : Switch) (attached : Option Text) :
    Except Refusal Reader := do
  let r ← r.settle
  match switch with
  | .help => .error .help
  | .version => .error .version
  | .flag f => return { r with arguments := ← r.arguments.raise f, awaiting := false }
  | .setting s =>
    match attached with
    | some value => return { r with arguments := ← r.arguments.accept s (some value) }
    | none => return { r with pending := some (s, none), awaiting := true }

def takeLong (r : Reader) (body : Text) : Except Refusal Reader :=
  let name := body.takeWhile (· != '=')
  let attached := match body.dropWhile (· != '=') with
    | [] => none
    | _ :: value => some value
  match Switch.ofName? (String.ofList name), attached with
  | none, _ => .error .unknownArgument
  | some (.setting s), attached => r.takeSwitch (.setting s) attached
  | some _, some _ => .error .needlessValue
  | some switch, none => r.takeSwitch switch none

/-- Reads joined option letters. The first that takes a value takes what follows it. -/
def takeLetters (r : Reader) : Text → Except Refusal Reader
  | [] => .ok r
  | c :: rest =>
    match Switch.ofLetter? c with
    | none => .error .unknownArgument
    | some (.setting s) =>
      let attached := match rest with
        | [] => none
        | '=' :: value => some value
        | value => some value
      r.takeSwitch (.setting s) attached
    | some switch => do (← r.takeSwitch switch none).takeLetters rest

def takeName (r : Reader) (name : Text) : Except Refusal Reader :=
  if r.hasInput then .error .unknownArgument
  else
    r.settle.map fun r =>
      { r with pending := some (.input, some name), awaiting := false, hasInput := true }

def takeValue (r : Reader) (value : Text) : Reader :=
  { r with pending := r.pending.map fun (s, _) => (s, some value), awaiting := false }

def step (r : Reader) (argument : Text) : Except Refusal Reader :=
  if r.namesOnly then r.takeName argument
  else
    match argument with
    | ['-', '-'] => .ok { r with namesOnly := true }
    | '-' :: '-' :: body => r.takeLong body
    | '-' :: c :: rest => r.takeLetters (c :: rest)
    | _ => if r.awaiting then .ok (r.takeValue argument) else r.takeName argument

end Reader

def Arguments.read (args : List Text) : Except Refusal Arguments := do
  let r ← args.foldlM Reader.step {}
  let r ← r.settle
  r.arguments.checkConflicts

end Assembler65816.CommandLine
