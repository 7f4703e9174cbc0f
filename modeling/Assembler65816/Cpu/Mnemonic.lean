import Assembler65816.Cpu.Mode
import Assembler65816.Text.Basic

/-! # Instruction set

The mnemonics of the 65816, and for each the addressing modes it has with their opcodes.
Mnemonics are read without regard to case.
-/

namespace Assembler65816

inductive Mnemonic where
  | ADC | AND | ASL | BCC | BCS | BEQ | BIT | BMI | BNE | BPL | BRA | BRK
  | BRL | BVC | BVS | CLC | CLD | CLI | CLV | CMP | COP | CPX | CPY | DEC
  | DEX | DEY | EOR | INC | INX | INY | JML | JMP | JSL | JSR | LDA | LDX
  | LDY | LSR | MVN | MVP | NOP | ORA | PEA | PEI | PER | PHA | PHB | PHD
  | PHK | PHP | PHX | PHY | PLA | PLB | PLD | PLP | PLX | PLY | REP | ROL
  | ROR | RTI | RTL | RTS | SBC | SEC | SED | SEI | SEP | STA | STP | STX
  | STY | STZ | TAX | TAY | TCD | TCS | TDC | TRB | TSB | TSC | TSX | TXA
  | TXS | TXY | TYA | TYX | WAI | WDM | XBA | XCE
  deriving DecidableEq, Repr

inductive RegisterClass where
  | accumulator
  | index
  | fixed
  deriving DecidableEq, Repr

namespace Mnemonic

def all : List Mnemonic :=
  [.ADC, .AND, .ASL, .BCC, .BCS, .BEQ, .BIT, .BMI, .BNE, .BPL, .BRA, .BRK, .BRL, .BVC, .BVS, .CLC,
   .CLD, .CLI, .CLV, .CMP, .COP, .CPX, .CPY, .DEC, .DEX, .DEY, .EOR, .INC, .INX, .INY, .JML, .JMP,
   .JSL, .JSR, .LDA, .LDX, .LDY, .LSR, .MVN, .MVP, .NOP, .ORA, .PEA, .PEI, .PER, .PHA, .PHB, .PHD,
   .PHK, .PHP, .PHX, .PHY, .PLA, .PLB, .PLD, .PLP, .PLX, .PLY, .REP, .ROL, .ROR, .RTI, .RTL, .RTS,
   .SBC, .SEC, .SED, .SEI, .SEP, .STA, .STP, .STX, .STY, .STZ, .TAX, .TAY, .TCD, .TCS, .TDC, .TRB,
   .TSB, .TSC, .TSX, .TXA, .TXS, .TXY, .TYA, .TYX, .WAI, .WDM, .XBA, .XCE]

def name : Mnemonic → Text
  | .ADC => ['A', 'D', 'C']
  | .AND => ['A', 'N', 'D']
  | .ASL => ['A', 'S', 'L']
  | .BCC => ['B', 'C', 'C']
  | .BCS => ['B', 'C', 'S']
  | .BEQ => ['B', 'E', 'Q']
  | .BIT => ['B', 'I', 'T']
  | .BMI => ['B', 'M', 'I']
  | .BNE => ['B', 'N', 'E']
  | .BPL => ['B', 'P', 'L']
  | .BRA => ['B', 'R', 'A']
  | .BRK => ['B', 'R', 'K']
  | .BRL => ['B', 'R', 'L']
  | .BVC => ['B', 'V', 'C']
  | .BVS => ['B', 'V', 'S']
  | .CLC => ['C', 'L', 'C']
  | .CLD => ['C', 'L', 'D']
  | .CLI => ['C', 'L', 'I']
  | .CLV => ['C', 'L', 'V']
  | .CMP => ['C', 'M', 'P']
  | .COP => ['C', 'O', 'P']
  | .CPX => ['C', 'P', 'X']
  | .CPY => ['C', 'P', 'Y']
  | .DEC => ['D', 'E', 'C']
  | .DEX => ['D', 'E', 'X']
  | .DEY => ['D', 'E', 'Y']
  | .EOR => ['E', 'O', 'R']
  | .INC => ['I', 'N', 'C']
  | .INX => ['I', 'N', 'X']
  | .INY => ['I', 'N', 'Y']
  | .JML => ['J', 'M', 'L']
  | .JMP => ['J', 'M', 'P']
  | .JSL => ['J', 'S', 'L']
  | .JSR => ['J', 'S', 'R']
  | .LDA => ['L', 'D', 'A']
  | .LDX => ['L', 'D', 'X']
  | .LDY => ['L', 'D', 'Y']
  | .LSR => ['L', 'S', 'R']
  | .MVN => ['M', 'V', 'N']
  | .MVP => ['M', 'V', 'P']
  | .NOP => ['N', 'O', 'P']
  | .ORA => ['O', 'R', 'A']
  | .PEA => ['P', 'E', 'A']
  | .PEI => ['P', 'E', 'I']
  | .PER => ['P', 'E', 'R']
  | .PHA => ['P', 'H', 'A']
  | .PHB => ['P', 'H', 'B']
  | .PHD => ['P', 'H', 'D']
  | .PHK => ['P', 'H', 'K']
  | .PHP => ['P', 'H', 'P']
  | .PHX => ['P', 'H', 'X']
  | .PHY => ['P', 'H', 'Y']
  | .PLA => ['P', 'L', 'A']
  | .PLB => ['P', 'L', 'B']
  | .PLD => ['P', 'L', 'D']
  | .PLP => ['P', 'L', 'P']
  | .PLX => ['P', 'L', 'X']
  | .PLY => ['P', 'L', 'Y']
  | .REP => ['R', 'E', 'P']
  | .ROL => ['R', 'O', 'L']
  | .ROR => ['R', 'O', 'R']
  | .RTI => ['R', 'T', 'I']
  | .RTL => ['R', 'T', 'L']
  | .RTS => ['R', 'T', 'S']
  | .SBC => ['S', 'B', 'C']
  | .SEC => ['S', 'E', 'C']
  | .SED => ['S', 'E', 'D']
  | .SEI => ['S', 'E', 'I']
  | .SEP => ['S', 'E', 'P']
  | .STA => ['S', 'T', 'A']
  | .STP => ['S', 'T', 'P']
  | .STX => ['S', 'T', 'X']
  | .STY => ['S', 'T', 'Y']
  | .STZ => ['S', 'T', 'Z']
  | .TAX => ['T', 'A', 'X']
  | .TAY => ['T', 'A', 'Y']
  | .TCD => ['T', 'C', 'D']
  | .TCS => ['T', 'C', 'S']
  | .TDC => ['T', 'D', 'C']
  | .TRB => ['T', 'R', 'B']
  | .TSB => ['T', 'S', 'B']
  | .TSC => ['T', 'S', 'C']
  | .TSX => ['T', 'S', 'X']
  | .TXA => ['T', 'X', 'A']
  | .TXS => ['T', 'X', 'S']
  | .TXY => ['T', 'X', 'Y']
  | .TYA => ['T', 'Y', 'A']
  | .TYX => ['T', 'Y', 'X']
  | .WAI => ['W', 'A', 'I']
  | .WDM => ['W', 'D', 'M']
  | .XBA => ['X', 'B', 'A']
  | .XCE => ['X', 'C', 'E']

def ofText? (t : Text) : Option Mnemonic := all.find? (fun m => m.name == Text.upper t)

def forms : Mnemonic → List (Mode × UInt8)
  | .ADC =>
    [(.immediate, 0x69), (.direct, 0x65), (.directX, 0x75), (.absolute, 0x6D), (.absoluteX, 0x7D),
     (.absoluteY, 0x79), (.absoluteLong, 0x6F), (.absoluteLongX, 0x7F), (.directIndirect, 0x72),
     (.directIndirectLong, 0x67), (.directIndexedIndirect, 0x61), (.directIndirectIndexed, 0x71),
     (.directIndirectLongIndexed, 0x77), (.stackRelative, 0x63),
     (.stackRelativeIndirectIndexed, 0x73)]
  | .AND =>
    [(.immediate, 0x29), (.direct, 0x25), (.directX, 0x35), (.absolute, 0x2D), (.absoluteX, 0x3D),
     (.absoluteY, 0x39), (.absoluteLong, 0x2F), (.absoluteLongX, 0x3F), (.directIndirect, 0x32),
     (.directIndirectLong, 0x27), (.directIndexedIndirect, 0x21), (.directIndirectIndexed, 0x31),
     (.directIndirectLongIndexed, 0x37), (.stackRelative, 0x23),
     (.stackRelativeIndirectIndexed, 0x33)]
  | .ASL =>
    [(.implied, 0x0A), (.direct, 0x06), (.directX, 0x16), (.absolute, 0x0E), (.absoluteX, 0x1E)]
  | .BCC => [(.relative, 0x90)]
  | .BCS => [(.relative, 0xB0)]
  | .BEQ => [(.relative, 0xF0)]
  | .BIT =>
    [(.immediate, 0x89), (.direct, 0x24), (.directX, 0x34), (.absolute, 0x2C), (.absoluteX, 0x3C)]
  | .BMI => [(.relative, 0x30)]
  | .BNE => [(.relative, 0xD0)]
  | .BPL => [(.relative, 0x10)]
  | .BRA => [(.relative, 0x80)]
  | .BRK => [(.implied, 0x00), (.immediate, 0x00)]
  | .BRL => [(.relativeLong, 0x82)]
  | .BVC => [(.relative, 0x50)]
  | .BVS => [(.relative, 0x70)]
  | .CLC => [(.implied, 0x18)]
  | .CLD => [(.implied, 0xD8)]
  | .CLI => [(.implied, 0x58)]
  | .CLV => [(.implied, 0xB8)]
  | .CMP =>
    [(.immediate, 0xC9), (.direct, 0xC5), (.directX, 0xD5), (.absolute, 0xCD), (.absoluteX, 0xDD),
     (.absoluteY, 0xD9), (.absoluteLong, 0xCF), (.absoluteLongX, 0xDF), (.directIndirect, 0xD2),
     (.directIndirectLong, 0xC7), (.directIndexedIndirect, 0xC1), (.directIndirectIndexed, 0xD1),
     (.directIndirectLongIndexed, 0xD7), (.stackRelative, 0xC3),
     (.stackRelativeIndirectIndexed, 0xD3)]
  | .COP => [(.immediate, 0x02)]
  | .CPX => [(.immediate, 0xE0), (.direct, 0xE4), (.absolute, 0xEC)]
  | .CPY => [(.immediate, 0xC0), (.direct, 0xC4), (.absolute, 0xCC)]
  | .DEC =>
    [(.implied, 0x3A), (.direct, 0xC6), (.directX, 0xD6), (.absolute, 0xCE), (.absoluteX, 0xDE)]
  | .DEX => [(.implied, 0xCA)]
  | .DEY => [(.implied, 0x88)]
  | .EOR =>
    [(.immediate, 0x49), (.direct, 0x45), (.directX, 0x55), (.absolute, 0x4D), (.absoluteX, 0x5D),
     (.absoluteY, 0x59), (.absoluteLong, 0x4F), (.absoluteLongX, 0x5F), (.directIndirect, 0x52),
     (.directIndirectLong, 0x47), (.directIndexedIndirect, 0x41), (.directIndirectIndexed, 0x51),
     (.directIndirectLongIndexed, 0x57), (.stackRelative, 0x43),
     (.stackRelativeIndirectIndexed, 0x53)]
  | .INC =>
    [(.implied, 0x1A), (.direct, 0xE6), (.directX, 0xF6), (.absolute, 0xEE), (.absoluteX, 0xFE)]
  | .INX => [(.implied, 0xE8)]
  | .INY => [(.implied, 0xC8)]
  | .JML => [(.absoluteLong, 0x5C), (.absoluteIndirectLong, 0xDC)]
  | .JMP =>
    [(.absolute, 0x4C), (.absoluteLong, 0x5C), (.absoluteIndirect, 0x6C),
     (.absoluteIndexedIndirect, 0x7C), (.absoluteIndirectLong, 0xDC)]
  | .JSL => [(.absoluteLong, 0x22)]
  | .JSR => [(.absolute, 0x20), (.absoluteIndexedIndirect, 0xFC)]
  | .LDA =>
    [(.immediate, 0xA9), (.direct, 0xA5), (.directX, 0xB5), (.absolute, 0xAD), (.absoluteX, 0xBD),
     (.absoluteY, 0xB9), (.absoluteLong, 0xAF), (.absoluteLongX, 0xBF), (.directIndirect, 0xB2),
     (.directIndirectLong, 0xA7), (.directIndexedIndirect, 0xA1), (.directIndirectIndexed, 0xB1),
     (.directIndirectLongIndexed, 0xB7), (.stackRelative, 0xA3),
     (.stackRelativeIndirectIndexed, 0xB3)]
  | .LDX =>
    [(.immediate, 0xA2), (.direct, 0xA6), (.directY, 0xB6), (.absolute, 0xAE), (.absoluteY, 0xBE)]
  | .LDY =>
    [(.immediate, 0xA0), (.direct, 0xA4), (.directX, 0xB4), (.absolute, 0xAC), (.absoluteX, 0xBC)]
  | .LSR =>
    [(.implied, 0x4A), (.direct, 0x46), (.directX, 0x56), (.absolute, 0x4E), (.absoluteX, 0x5E)]
  | .MVN => [(.blockMove, 0x54)]
  | .MVP => [(.blockMove, 0x44)]
  | .NOP => [(.implied, 0xEA)]
  | .ORA =>
    [(.immediate, 0x09), (.direct, 0x05), (.directX, 0x15), (.absolute, 0x0D), (.absoluteX, 0x1D),
     (.absoluteY, 0x19), (.absoluteLong, 0x0F), (.absoluteLongX, 0x1F), (.directIndirect, 0x12),
     (.directIndirectLong, 0x07), (.directIndexedIndirect, 0x01), (.directIndirectIndexed, 0x11),
     (.directIndirectLongIndexed, 0x17), (.stackRelative, 0x03),
     (.stackRelativeIndirectIndexed, 0x13)]
  | .PEA => [(.absolute, 0xF4)]
  | .PEI => [(.directIndirect, 0xD4)]
  | .PER => [(.relativeLong, 0x62)]
  | .PHA => [(.implied, 0x48)]
  | .PHB => [(.implied, 0x8B)]
  | .PHD => [(.implied, 0x0B)]
  | .PHK => [(.implied, 0x4B)]
  | .PHP => [(.implied, 0x08)]
  | .PHX => [(.implied, 0xDA)]
  | .PHY => [(.implied, 0x5A)]
  | .PLA => [(.implied, 0x68)]
  | .PLB => [(.implied, 0xAB)]
  | .PLD => [(.implied, 0x2B)]
  | .PLP => [(.implied, 0x28)]
  | .PLX => [(.implied, 0xFA)]
  | .PLY => [(.implied, 0x7A)]
  | .REP => [(.immediate, 0xC2)]
  | .ROL =>
    [(.implied, 0x2A), (.direct, 0x26), (.directX, 0x36), (.absolute, 0x2E), (.absoluteX, 0x3E)]
  | .ROR =>
    [(.implied, 0x6A), (.direct, 0x66), (.directX, 0x76), (.absolute, 0x6E), (.absoluteX, 0x7E)]
  | .RTI => [(.implied, 0x40)]
  | .RTL => [(.implied, 0x6B)]
  | .RTS => [(.implied, 0x60)]
  | .SBC =>
    [(.immediate, 0xE9), (.direct, 0xE5), (.directX, 0xF5), (.absolute, 0xED), (.absoluteX, 0xFD),
     (.absoluteY, 0xF9), (.absoluteLong, 0xEF), (.absoluteLongX, 0xFF), (.directIndirect, 0xF2),
     (.directIndirectLong, 0xE7), (.directIndexedIndirect, 0xE1), (.directIndirectIndexed, 0xF1),
     (.directIndirectLongIndexed, 0xF7), (.stackRelative, 0xE3),
     (.stackRelativeIndirectIndexed, 0xF3)]
  | .SEC => [(.implied, 0x38)]
  | .SED => [(.implied, 0xF8)]
  | .SEI => [(.implied, 0x78)]
  | .SEP => [(.immediate, 0xE2)]
  | .STA =>
    [(.direct, 0x85), (.directX, 0x95), (.absolute, 0x8D), (.absoluteX, 0x9D), (.absoluteY, 0x99),
     (.absoluteLong, 0x8F), (.absoluteLongX, 0x9F), (.directIndirect, 0x92),
     (.directIndirectLong, 0x87), (.directIndexedIndirect, 0x81), (.directIndirectIndexed, 0x91),
     (.directIndirectLongIndexed, 0x97), (.stackRelative, 0x83),
     (.stackRelativeIndirectIndexed, 0x93)]
  | .STP => [(.implied, 0xDB)]
  | .STX => [(.direct, 0x86), (.directY, 0x96), (.absolute, 0x8E)]
  | .STY => [(.direct, 0x84), (.directX, 0x94), (.absolute, 0x8C)]
  | .STZ => [(.direct, 0x64), (.directX, 0x74), (.absolute, 0x9C), (.absoluteX, 0x9E)]
  | .TAX => [(.implied, 0xAA)]
  | .TAY => [(.implied, 0xA8)]
  | .TCD => [(.implied, 0x5B)]
  | .TCS => [(.implied, 0x1B)]
  | .TDC => [(.implied, 0x7B)]
  | .TRB => [(.direct, 0x14), (.absolute, 0x1C)]
  | .TSB => [(.direct, 0x04), (.absolute, 0x0C)]
  | .TSC => [(.implied, 0x3B)]
  | .TSX => [(.implied, 0xBA)]
  | .TXA => [(.implied, 0x8A)]
  | .TXS => [(.implied, 0x9A)]
  | .TXY => [(.implied, 0x9B)]
  | .TYA => [(.implied, 0x98)]
  | .TYX => [(.implied, 0xBB)]
  | .WAI => [(.implied, 0xCB)]
  | .WDM => [(.immediate, 0x42)]
  | .XBA => [(.implied, 0xEB)]
  | .XCE => [(.implied, 0xFB)]

def opcode? (m : Mnemonic) (mode : Mode) : Option UInt8 := m.forms.lookup mode

def registerClass : Mnemonic → RegisterClass
  | .ADC | .AND | .BIT | .CMP | .EOR | .LDA | .ORA | .SBC => .accumulator
  | .CPX | .CPY | .LDX | .LDY => .index
  | _ => .fixed

end Mnemonic

end Assembler65816
