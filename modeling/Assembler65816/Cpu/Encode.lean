import Assembler65816.Cpu.Mnemonic
import Assembler65816.Cpu.Operand
import Assembler65816.Expression.Traced

/-! # Instruction encoding

An operand whose value is not known yet gets a width that is chosen once and remembered for its
line, so that the length of the instruction stays the same when later passes fill in the value.
-/

namespace Assembler65816

structure RegisterWidths where
  accumulator16 : Bool := false
  index16 : Bool := false
  deriving DecidableEq, Repr

structure EncodeContext where
  env : Env
  widths : RegisterWidths

namespace Instruction

def opcodeAt? (m : Mnemonic) (shape : Shape) (width : Width) : Option UInt8 :=
  (shape.mode? width).bind m.opcode?

/-- The width for a value that is not known: absolute where that exists, else the narrowest. -/
def guessWidth? (m : Mnemonic) (shape : Shape) : Option Width :=
  if (opcodeAt? m shape .absolute).isSome then some .absolute
  else Width.all.find? (fun w => (opcodeAt? m shape w).isSome)

def promoteWidth? (m : Mnemonic) (shape : Shape) (least : Width) : Option Width :=
  least.orWider.find? (fun w => (opcodeAt? m shape w).isSome)

def splitForce : Text → Option Width × Text
  | [] => (none, [])
  | c :: rest =>
    match Width.ofForce? c with
    | some width => (some width, rest)
    | none => (none, c :: rest)

/-- The width of an address operand: forced, remembered for the line, guessed or promoted. -/
def chooseWidth (m : Mnemonic) (shape : Shape) (operand : Text) (force : Option Width)
    (value : Value) : Tracing Width := do
  match force, (← get).hint, value with
  | some width, _, _ => pure width
  | none, some width, _ => pure width
  | none, none, .unresolved =>
    match guessWidth? m shape with
    | none => throw (.addressingMode m.name operand)
    | some width =>
      Tracing.remember width
      Tracing.caution (.guessedWidth width)
      pure width
  | none, none, .known word =>
    match Width.ofValue? word with
    | none => throw (.addressRange word)
    | some least =>
      match promoteWidth? m shape least with
      | none => throw (.addressingMode m.name operand)
      | some width => pure width

def encodeAddress (ctx : EncodeContext) (m : Mnemonic) (shape : Shape)
    (expression operand : Text) : Tracing (List UInt8) := do
  let (force, expression) := splitForce expression
  let value ← Tracing.eval ctx.env expression
  let width ← chooseWidth m shape operand force value
  match opcodeAt? m shape width with
  | none => throw (.addressingMode m.name operand)
  | some op => pure (op :: littleEndian (value.getD 0) width.bytes)

def isWide (widths : RegisterWidths) (m : Mnemonic) : Bool :=
  match m.registerClass with
  | .accumulator => widths.accumulator16
  | .index => widths.index16
  | .fixed => false

def encodeImmediate (ctx : EncodeContext) (m : Mnemonic) (expression operand : Text) :
    Tracing (List UInt8) :=
  match m.opcode? .immediate with
  | none => throw (.addressingMode m.name operand)
  | some op => do
    let word := (← Tracing.eval ctx.env expression).getD 0
    let wide := isWide ctx.widths m
    if (if wide then 0xFFFF else 0xFF) < word then
      Tracing.caution (.wideImmediate word wide)
    pure (op :: littleEndian word (if wide then 2 else 1))

def encodeBlockMove (ctx : EncodeContext) (m : Mnemonic) (source destination operand : Text) :
    Tracing (List UInt8) :=
  match m.opcode? .blockMove with
  | none => throw (.addressingMode m.name operand)
  | some op => do
    let sourceBank := (← Tracing.eval ctx.env source).getD 0
    let destinationBank := (← Tracing.eval ctx.env destination).getD 0
    if 0xFF < sourceBank then Tracing.caution (.bankRange sourceBank)
    if 0xFF < destinationBank then Tracing.caution (.bankRange destinationBank)
    pure [op, destinationBank.toUInt8, sourceBank.toUInt8]

/-- A branch stores the distance from the next instruction to its target; a target that is not
known yet counts as the next instruction. -/
def encodeBranch (ctx : EncodeContext) (op : UInt8) (mode : Mode) (operand : Text) :
    Tracing (List UInt8) :=
  match ctx.env.address with
  | none => throw .instructionBeforeOrigin
  | some pc => do
    let size := mode.operandSize
    let source := pc + UInt32.ofNat (1 + size)
    let target := (← Tracing.eval ctx.env operand).getD source
    let offset : Int := target.toNat - source.toNat
    let reach : Int := (1 <<< (8 * size - 1) : Nat)
    if offset < -reach || reach ≤ offset then throw (.branchRange offset source)
    else pure (op :: littleEndian (target - source) size)

def encodeOperand (ctx : EncodeContext) (m : Mnemonic) (operand : Text) :
    Operand → Tracing (List UInt8)
  | .immediate expression => encodeImmediate ctx m expression operand
  | .address shape expression => encodeAddress ctx m shape expression operand
  | .blockMove source destination => encodeBlockMove ctx m source destination operand
  | _ => throw (.addressingMode m.name operand)

def encodeExplicit (ctx : EncodeContext) (m : Mnemonic) (operand : Text) :
    Tracing (List UInt8) :=
  match m.opcode? .relative, m.opcode? .relativeLong with
  | some op, _ => encodeBranch ctx op .relative operand
  | none, some op => encodeBranch ctx op .relativeLong operand
  | none, none =>
    match Operand.classify operand with
    | .openIndirect text => do
      Tracing.caution (.doubtfulIndirect m.name text)
      encodeOperand ctx m operand (Operand.classifyDirect text)
    | form => encodeOperand ctx m operand form

/-- Encodes a trimmed operand. No operand, or the accumulator where that is implied, is the
implied mode. -/
def encodeMnemonic (ctx : EncodeContext) (m : Mnemonic) (operand : Text) :
    Tracing (List UInt8) :=
  match m.opcode? .implied with
  | some op =>
    if operand.isEmpty || Text.sameLetters operand ['A'] then pure [op]
    else encodeExplicit ctx m operand
  | none =>
    if operand.isEmpty then throw (.addressingMode m.name operand)
    else encodeExplicit ctx m operand

def encode (ctx : EncodeContext) (mnemonic operand : Text) : Tracing (List UInt8) :=
  match Mnemonic.ofText? mnemonic with
  | none => throw (.unknownInstruction mnemonic)
  | some m => encodeMnemonic ctx m (Text.trim operand)

end Instruction

end Assembler65816
