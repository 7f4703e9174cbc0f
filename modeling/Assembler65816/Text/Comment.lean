import Assembler65816.Text.Quote

/-! # Line comments

A comment starts at a semicolon or at two slashes that stand outside every quoted literal, and
runs to the end of the line.
-/

namespace Assembler65816.Comment

def startsSemicolon (t : Text) : Bool := t.head? == some ';'

def startsSlashes (t : Text) : Bool := Text.startsWith t ['/', '/']

def splitSemicolon (line : Text) : Text × Text := Quote.outside.cut startsSemicolon line

def stripSlashes (line : Text) : Text := (Quote.outside.cut startsSlashes line).1

def code (line : Text) : Text := Text.trim (stripSlashes (splitSemicolon line).1)

end Assembler65816.Comment
