import Assembler65816.Text.Basic

/-! # Names and words

A symbol name is a letter or underscore followed by letters, digits and underscores. A word, the
unit in which a source line is read, may also start with a digit.
-/

namespace Assembler65816

def isNameStart (c : Char) : Bool := c.isAlpha || c == '_'

def isNameChar (c : Char) : Bool := c.isAlphanum || c == '_'

def isSigil (c : Char) : Bool := c == '.' || c == '!' || c == '#'

def isSymbolName : Text → Bool
  | [] => false
  | c :: rest => isNameStart c && rest.all isNameChar

namespace Text

def skipBlanks (t : Text) : Text := t.dropWhile isBlank

def skipSigils (t : Text) : Text := t.dropWhile isSigil

def takeWord (t : Text) : Option (Text × Text) :=
  match t.takeWhile isNameChar with
  | [] => none
  | word => some (word, t.dropWhile isNameChar)

theorem takeWord_append {t word rest : Text} (h : takeWord t = some (word, rest)) :
    word ++ rest = t := by
  unfold takeWord at h
  split at h
  · contradiction
  · cases h
    exact List.takeWhile_append_dropWhile

theorem takeWord_ne_nil {t word rest : Text} (h : takeWord t = some (word, rest)) :
    word ≠ [] := by
  unfold takeWord at h
  split at h
  · contradiction
  · next hw => cases h; exact hw

end Text

end Assembler65816
