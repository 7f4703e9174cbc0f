import Assembler65816.Program.Run

/-! # Entry point -/

namespace Assembler65816

def systemErrorText : IO.Error → String
  | .noFileOrDirectory _ code details | .inappropriateType _ code details
  | .permissionDenied _ code details | .resourceExhausted _ code details
  | .invalidArgument _ code details | .otherError code details =>
    details ++ " (os error " ++ toString code ++ ")"
  | e => toString e

def writeHandle (handle : IO.FS.Handle) (content : Bytes) : IO (Except WriteError Unit) := do
  try
    handle.write ⟨content⟩
    handle.flush
    return .ok ()
  catch e => return .error (.write (systemErrorText e))

def systemMachine : Machine IO where
  read path := do
    try
      let handle ← IO.FS.Handle.mk path .read
      return .ok (← handle.readBinToEnd).data
    catch e => return .error (systemErrorText e)
  write path content := do
    try
      writeHandle (← IO.FS.Handle.mk path .write) content
    catch e => return .error (.create (systemErrorText e))
  print text := do (← IO.getStdout).putStr text
  report text := do (← IO.getStderr).putStr text

end Assembler65816

def main (args : List String) : IO UInt32 := do
  Assembler65816.Program.run Assembler65816.systemMachine (← IO.getEnv "ASM816_LOG") args
