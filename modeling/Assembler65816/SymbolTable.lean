import Assembler65816.Expression.Eval

/-! # Symbol table

Symbols in increasing order of name, where names compare by code point. A symbol whose value is
known never becomes unresolved again. The expression and the location counter of a definition are
kept with the symbol, so that an unresolved one can be tried again against the table alone.
-/

namespace Assembler65816

structure Symbol where
  name : Text
  value : Value
  expression : Text
  pc : Option UInt32
  deriving DecidableEq, Repr

structure SymbolTable where
  entries : List Symbol := []
  deriving DecidableEq, Repr

inductive Attempt where
  | advanced
  | stable
  /-- The symbol has no value yet; the name it needs, if that name is not in the table. -/
  | waiting (on : Option Text)
  | refused (cause : Fault)
  deriving DecidableEq, Repr

namespace SymbolTable

def find? (t : SymbolTable) (name : Text) : Option Symbol :=
  t.entries.find? (fun s => s.name == name)

def lookup (t : SymbolTable) (name : Text) : Option Value := (t.find? name).map Symbol.value

def contains (t : SymbolTable) (name : Text) : Bool := (t.find? name).isSome

/-- Inserts a symbol at its place in the order, or replaces the one of its name. -/
def place (s : Symbol) : List Symbol → List Symbol
  | [] => [s]
  | e :: rest =>
    if s.name < e.name then s :: e :: rest
    else if s.name = e.name then s :: rest
    else e :: place s rest

def put (t : SymbolTable) (s : Symbol) : SymbolTable := ⟨place s t.entries⟩

theorem find?_place (s : Symbol) (entries : List Symbol) (name : Text) :
    (place s entries).find? (fun e => e.name == name) =
      if s.name = name then some s else entries.find? (fun e => e.name == name) := by
  fun_induction place s entries with
  | case1 => by_cases h : s.name = name <;> simp [h]
  | case2 e rest _ => by_cases h : s.name = name <;> simp [h]
  | case3 e rest _ he => by_cases h : s.name = name <;> simp [h, ← he]
  | case4 e rest _ he ih =>
    by_cases hn : e.name = name
    · have : s.name ≠ name := fun h => he (h.trans hn.symm)
      simp [hn, this]
    · simp [hn, ih]

/-- A symbol that is put in is found under its name, and no other look-up changes. -/
@[simp] theorem find?_put (t : SymbolTable) (s : Symbol) (name : Text) :
    (t.put s).find? name = if s.name = name then some s else t.find? name :=
  find?_place s t.entries name

/-- Binds a name. A known value stays when the new one is equal or unresolved; on the first pass a
different one is refused, on later passes it replaces the old definition. -/
def define (t : SymbolTable) (s : Symbol) (firstPass : Bool) : Option SymbolTable :=
  match t.lookup s.name, s.value with
  | some (.known _), .unresolved => some t
  | some (.known old), .known new =>
    if old = new then some t else if firstPass then none else some (t.put s)
  | _, _ => some (t.put s)

def attempt (read : Symbol → SymbolTable → Expression.Reading) (t : SymbolTable) (name : Text) :
    Attempt × SymbolTable :=
  match t.find? name with
  | none => (.waiting none, t)
  | some s =>
    if s.value.isKnown then (.stable, t)
    else
      match read s t with
      | .ok word => (.advanced, t.put { s with value := .known word })
      | .error (.missing on) => (.waiting (some on), t)
      | .error .pending => (.waiting none, t)
      | .error (.fault cause) => (.refused cause, t)

def env (t : SymbolTable) (address : Option UInt32) : Env := ⟨t.lookup, address⟩

def retry (t : SymbolTable) (name : Text) : Attempt × SymbolTable :=
  t.attempt (fun s table => Expression.eval (table.env s.pc) s.expression) name

def unresolvedNames (t : SymbolTable) : List Text :=
  (t.entries.filter (fun s => !s.value.isKnown)).map Symbol.name

def unresolvedCount (t : SymbolTable) : Nat := t.entries.countP (fun s => !s.value.isKnown)

def resolvedCount (t : SymbolTable) : Nat := t.entries.countP (fun s => s.value.isKnown)

end SymbolTable

/-- A symbol as listings show it: the name in twenty-five columns, then the value. -/
def Symbol.listing (s : Symbol) : String :=
  let name := s.name ++ List.replicate (25 - s.name.length) ' '
  let value := match s.value with
    | .known word => "$" ++ Numeral.hexPadded 8 word.toNat
    | .unresolved => "?????????"
  "     * " ++ String.ofList name ++ ": " ++ value

def SymbolTable.listing (t : SymbolTable) : List String := t.entries.map Symbol.listing

def unlines (lines : List String) : String := String.join (lines.map (· ++ "\n"))

end Assembler65816
