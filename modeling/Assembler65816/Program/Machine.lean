/-! # Machines

The program reaches files and the two streams through a `Machine`, which runs over any monad, so
it runs in memory as well as on the operating system.
-/

namespace Assembler65816

abbrev Bytes := Array UInt8

inductive WriteError where
  | create (reason : String)
  | write (reason : String)
  deriving DecidableEq, Repr

structure Machine (m : Type → Type) where
  read : String → m (Except String Bytes)
  write : String → Bytes → m (Except WriteError Unit)
  print : String → m Unit
  report : String → m Unit

end Assembler65816
