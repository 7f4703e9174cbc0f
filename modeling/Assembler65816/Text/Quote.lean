import Assembler65816.Text.Basic

/-! # Quotation

One automaton tells which characters stand inside a quoted literal: single and double quotes both
open one, only the same mark closes it, and a backslash inside hides the next character. Comments,
data lists and expressions are all scanned with it, so they agree on where a literal ends.
-/

namespace Assembler65816

inductive Quote where
  | outside
  | inside (mark : Char)
  | escaped (mark : Char)
  deriving DecidableEq, Repr

def isQuoteMark (c : Char) : Bool := c == '\'' || c == '"'

theorem isQuoteMark_cases {c : Char} (h : isQuoteMark c = true) : c = '\'' ∨ c = '"' := by
  simpa [isQuoteMark] using h

theorem isQuoteMark_of_isBlank {c : Char} (h : isBlank c = true) : isQuoteMark c = false := by
  rw [← Bool.not_eq_true]
  intro quote
  rcases isQuoteMark_cases quote with rfl | rfl <;> cases h

namespace Quote

def step : Quote → Char → Quote
  | .outside, c => if isQuoteMark c then .inside c else .outside
  | .inside mark, c =>
    if c == '\\' then .escaped mark else if c == mark then .outside else .inside mark
  | .escaped mark, _ => .inside mark

section Steps

variable {mark c : Char}

theorem ne_backslash_of_isQuoteMark (h : isQuoteMark mark = true) : mark ≠ '\\' := by
  rcases isQuoteMark_cases h with rfl | rfl <;> decide

theorem step_outside (h : isQuoteMark c = false) : Quote.outside.step c = .outside := by
  simp [step, h]

theorem step_opening (h : isQuoteMark mark = true) : Quote.outside.step mark = .inside mark := by
  simp [step, h]

theorem step_backslash (mark : Char) : (Quote.inside mark).step '\\' = .escaped mark := rfl

theorem step_escaped (mark c : Char) : (Quote.escaped mark).step c = .inside mark := rfl

theorem step_inside (backslash : c ≠ '\\') (other : c ≠ mark) :
    (Quote.inside mark).step c = .inside mark := by
  simp [step, backslash, other]

theorem step_closing (h : isQuoteMark mark = true) :
    (Quote.inside mark).step mark = .outside := by
  simp [step, ne_backslash_of_isQuoteMark h]

end Steps

/-- Splits the text before the first place outside all literals where `stop` accepts the text
that remains. -/
def cut (stop : Text → Bool) : Quote → Text → Text × Text
  | _, [] => ([], [])
  | q, c :: rest =>
    if q = .outside && stop (c :: rest) then ([], c :: rest)
    else
      let (front, back) := cut stop (q.step c) rest
      (c :: front, back)

def span : Quote → Text → Option Nat
  | _, [] => none
  | q, c :: rest =>
    match q.step c with
    | .outside => some 1
    | q => (span q rest).map (· + 1)

@[simp] theorem cut_append (stop : Text → Bool) (q : Quote) (t : Text) :
    (cut stop q t).1 ++ (cut stop q t).2 = t := by
  induction t generalizing q with
  | nil => rfl
  | cons c rest ih =>
    unfold cut
    split
    · rfl
    · simpa using ih (q.step c)

end Quote

end Assembler65816
