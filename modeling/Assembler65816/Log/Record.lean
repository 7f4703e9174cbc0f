import Assembler65816.Log.Filter
import Assembler65816.Log.Plain

/-! # Log records

A message is written behind its level and target. Its further lines are indented, and terminal
control is taken out of the whole record.
-/

namespace Assembler65816.Log

def target : String := "asm816::assembler"

def indentation : Nat := 4

def indent (message : Text) : Text :=
  message.flatMap fun c => if c == '\n' then '\n' :: List.replicate indentation ' ' else [c]

def header (level : Level) : Text :=
  let label := level.label
  ("[" ++ label).toList ++ List.replicate (5 - label.length) ' ' ++ (" " ++ target ++ "] ").toList

/-- A message as it appears in the log, with the end of its last line. -/
def record (level : Level) (message : Text) : Text :=
  plain (header level ++ indent message ++ ['\n'])

def records (filter : Filter) (notices : List Notice) : String :=
  String.ofList (notices.flatMap fun notice =>
    let message := notice.message.toList
    if filter.shows target.toList notice.level message then record notice.level message else [])

end Assembler65816.Log
