import Assembler65816.Image.IntelHex

/-! # Output formats

An image is written raw, raw after the low sixteen bits of its base address, or as Intel HEX text.
-/

namespace Assembler65816

inductive Format where
  | raw
  | addressed
  | intelHex
  deriving DecidableEq, Repr

def Format.encode : Format → Image → Array UInt8
  | .raw, i => i.bytes
  | .addressed, i => #[i.base.toUInt8, (i.base >>> 8).toUInt8] ++ i.bytes
  | .intelHex, i => (String.ofList (IntelHex.render i)).toUTF8.data

end Assembler65816
