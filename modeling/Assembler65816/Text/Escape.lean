import Assembler65816.Text.Basic

/-! # Escapes in literals

A backslash or caret followed by one of its letters stands for a control character, and so does
the spelled-out `ESC[`. A mark followed by any other character stands for itself.
-/

namespace Assembler65816.Escape

def ofBackslash? : Char → Option Char
  | 'r' => some '\r'
  | 'n' => some '\n'
  | 't' => some '\t'
  | '0' => some '\x00'
  | '\\' => some '\\'
  | '"' => some '"'
  | '\'' => some '\''
  | _ => none

def ofCaret? : Char → Option Char
  | 'G' => some '\x07'
  | 'H' => some '\x08'
  | 'I' => some '\t'
  | 'J' => some '\n'
  | 'L' => some '\x0c'
  | 'M' => some '\r'
  | '[' => some '\x1b'
  | _ => none

def decode : Text → Text
  | [] => []
  | '\\' :: c :: rest =>
    match ofBackslash? c with
    | some d => d :: decode rest
    | none => '\\' :: decode (c :: rest)
  | '^' :: c :: rest =>
    match ofCaret? c with
    | some d => d :: decode rest
    | none => '^' :: decode (c :: rest)
  | 'E' :: 'S' :: 'C' :: '[' :: rest => '\x1b' :: decode rest
  | c :: rest => c :: decode rest

end Assembler65816.Escape
