import Assembler65816.Text.Comment
import Assembler65816.Text.Lines

/-! # Source lines

The lines of a file that hold code, with their places. Comments and blank lines are left out. A
block comment opens at the start of a line and takes whole lines: it closes on a line that starts
or ends with the closing mark, and on its first line only if that line ends with a mark of its own.
-/

namespace Assembler65816

structure SourceLine where
  file : String
  number : Nat
  raw : Text
  text : Text
  deriving DecidableEq, Repr

namespace SourceLine

def opensBlock (trimmed : Text) : Bool := Text.startsWith trimmed ['/', '*']

def closesBlock (trimmed : Text) : Bool :=
  Text.startsWith trimmed ['*', '/'] || Text.endsWith trimmed ['*', '/']

def closesOwnBlock (trimmed : Text) : Bool :=
  Text.endsWith trimmed ['*', '/'] && 4 ≤ trimmed.length

/-- The lines with code, numbered from `number` on; `inBlock` tells whether a block comment is
open. -/
def collect (file : String) : Bool → Nat → List Text → List SourceLine
  | _, _, [] => []
  | true, number, raw :: rest => collect file (!closesBlock (Text.trim raw)) (number + 1) rest
  | false, number, raw :: rest =>
    if opensBlock (Text.trim raw) then
      collect file (!closesOwnBlock (Text.trim raw)) (number + 1) rest
    else
      match Comment.code raw with
      | [] => collect file false (number + 1) rest
      | code => ⟨file, number, raw, code⟩ :: collect file false (number + 1) rest

def ofText (file : String) (text : Text) : List SourceLine := collect file false 1 (Text.lines text)

def blockAfter (inBlock : Bool) (raw : Text) : Bool :=
  if inBlock then !closesBlock (Text.trim raw)
  else opensBlock (Text.trim raw) && !closesOwnBlock (Text.trim raw)

theorem collect_code (file : String) (number : Nat) {raw : Text} (more : List Text)
    (plain : opensBlock (Text.trim raw) = false) (code : Comment.code raw ≠ []) :
    collect file false number (raw :: more) =
      ⟨file, number, raw, Comment.code raw⟩ :: collect file false (number + 1) more := by
  rw [collect, plain, if_neg Bool.false_ne_true]
  split
  · next empty => exact absurd empty code
  · rfl

/-- The lines with code of a text are those of its first lines and those of the others, which are
read inside a block comment or outside as the first lines leave it. -/
theorem collect_append (file : String) (inBlock : Bool) (number : Nat) (raws more : List Text) :
    collect file inBlock number (raws ++ more) = collect file inBlock number raws ++
      collect file (raws.foldl blockAfter inBlock) (number + raws.length) more := by
  have shift (number : Nat) (raw : Text) (rest : List Text) :
      number + (raw :: rest).length = number + 1 + rest.length := by
    rw [List.length_cons]
    omega
  fun_induction collect file inBlock number raws with
  | case1 => rfl
  | case2 number raw rest ih =>
    rw [List.cons_append, collect, ih, shift]
    rfl
  | case3 number raw rest opens ih =>
    rw [List.cons_append, collect, if_pos opens, ih, shift, List.foldl_cons, blockAfter,
      if_neg Bool.false_ne_true, opens, Bool.true_and]
  | case4 number raw rest plain empty ih =>
    have stays : blockAfter false raw = false := by simp [blockAfter, plain]
    rw [List.cons_append, collect, if_neg plain, empty, List.foldl_cons, stays, shift]
    exact ih
  | case5 number raw rest plain code ih =>
    have stays : blockAfter false raw = false := by simp [blockAfter, plain]
    rw [List.cons_append, collect_code file number _ (by simpa using plain) code, ih,
      List.foldl_cons, stays, shift]
    rfl

end SourceLine

end Assembler65816
