import Assembler65816.Text.Quote

/-! # Data lists

The items of a data list are separated by commas outside quoted literals. Items are trimmed, and
an item with nothing in it is dropped.
-/

namespace Assembler65816.DataList

def fields : Quote → Text → List Text
  | _, [] => [[]]
  | q, c :: rest =>
    if q = .outside && c == ',' then [] :: fields .outside rest
    else
      match fields (q.step c) rest with
      | [] => [[c]]
      | field :: more => (c :: field) :: more

def items (t : Text) : List Text :=
  ((fields .outside t).map Text.trim).filter (fun item => !item.isEmpty)

end Assembler65816.DataList
