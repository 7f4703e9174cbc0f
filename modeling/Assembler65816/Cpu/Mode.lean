/-! # Addressing modes

An address operand has a shape, which its brackets and index registers give, and a width, which
its value gives. Shape and width together select the addressing mode, where there is one.
-/

namespace Assembler65816

/-- Addressing modes of the 65816. `implied` includes the accumulator form. -/
inductive Mode where
  | implied
  | immediate
  | direct
  | directX
  | directY
  | absolute
  | absoluteX
  | absoluteY
  | absoluteLong
  | absoluteLongX
  | directIndirect
  | directIndirectLong
  | directIndexedIndirect
  | directIndirectIndexed
  | directIndirectLongIndexed
  | absoluteIndirect
  | absoluteIndirectLong
  | absoluteIndexedIndirect
  | stackRelative
  | stackRelativeIndirectIndexed
  | relative
  | relativeLong
  | blockMove
  deriving DecidableEq, Repr

/-- Number of operand bytes; an immediate operand counts as one byte here. -/
def Mode.operandSize : Mode → Nat
  | .implied => 0
  | .immediate | .direct | .directX | .directY | .directIndirect | .directIndirectLong
  | .directIndexedIndirect | .directIndirectIndexed | .directIndirectLongIndexed
  | .stackRelative | .stackRelativeIndirectIndexed | .relative => 1
  | .absolute | .absoluteX | .absoluteY | .absoluteIndirect | .absoluteIndirectLong
  | .absoluteIndexedIndirect | .relativeLong | .blockMove => 2
  | .absoluteLong | .absoluteLongX => 3

/-- Width of an address: direct page, absolute or long. -/
inductive Width where
  | direct
  | absolute
  | long
  deriving DecidableEq, Repr

namespace Width

def all : List Width := [.direct, .absolute, .long]

def bytes : Width → Nat
  | .direct => 1
  | .absolute => 2
  | .long => 3

def ofValue? (value : UInt32) : Option Width :=
  if value ≤ 0xFF then some .direct
  else if value ≤ 0xFFFF then some .absolute
  else if value ≤ 0xFFFFFF then some .long
  else none

def ofForce? : Char → Option Width
  | '<' => some .direct
  | '!' => some .absolute
  | '>' => some .long
  | _ => none

def orWider (w : Width) : List Width := all.filter (fun v => w.bytes ≤ v.bytes)

def describe : Width → String
  | .direct => "direct page"
  | .absolute => "absolute"
  | .long => "absolute long"

end Width

inductive Shape where
  | plain
  | indexedX
  | indexedY
  | stack
  | indexedIndirect
  | stackIndirectY
  | indirectY
  | indirect
  | indirectLongY
  | indirectLong
  deriving DecidableEq, Repr

def Shape.mode? : Shape → Width → Option Mode
  | .plain, .direct => some .direct
  | .plain, .absolute => some .absolute
  | .plain, .long => some .absoluteLong
  | .indexedX, .direct => some .directX
  | .indexedX, .absolute => some .absoluteX
  | .indexedX, .long => some .absoluteLongX
  | .indexedY, .direct => some .directY
  | .indexedY, .absolute => some .absoluteY
  | .stack, .direct => some .stackRelative
  | .indexedIndirect, .direct => some .directIndexedIndirect
  | .indexedIndirect, .absolute => some .absoluteIndexedIndirect
  | .stackIndirectY, .direct => some .stackRelativeIndirectIndexed
  | .indirectY, .direct => some .directIndirectIndexed
  | .indirect, .direct => some .directIndirect
  | .indirect, .absolute => some .absoluteIndirect
  | .indirectLongY, .direct => some .directIndirectLongIndexed
  | .indirectLong, .direct => some .directIndirectLong
  | .indirectLong, .absolute => some .absoluteIndirectLong
  | _, _ => none

end Assembler65816
