import Assembler65816.Image.Basic

/-! # Intel HEX

Records of up to thirty-two data bytes, none of which crosses a boundary of 64 KiB. An extended
address record stands before the first data record of each bank, and the end record comes last.
-/

namespace Assembler65816.IntelHex

inductive RecordType where
  | data
  | endOfFile
  | extendedAddress
  deriving DecidableEq, Repr

def RecordType.code : RecordType → UInt8
  | .data => 0x00
  | .endOfFile => 0x01
  | .extendedAddress => 0x04

structure Record where
  address : UInt16
  type : RecordType
  data : List UInt8
  deriving DecidableEq, Repr

namespace Record

def content (r : Record) : List UInt8 :=
  UInt8.ofNat r.data.length :: (r.address >>> 8).toUInt8 :: r.address.toUInt8 :: r.type.code ::
    r.data

def checksum (r : Record) : UInt8 := 0 - r.content.foldl (· + ·) 0

def render (r : Record) : Text :=
  ':' :: (r.content ++ [r.checksum]).flatMap (fun byte => Numeral.hexDigits 2 byte.toNat)

end Record

def lineLimit : Nat := 32

def bankRecord (bank : Nat) : Record :=
  ⟨0, .extendedAddress, [UInt8.ofNat (bank / 0x100), UInt8.ofNat bank]⟩

/-- Records for bytes that start at `address`, when `bank` has been announced. The fuel bounds the
number of data records. -/
def dataRecords : Nat → Option Nat → Nat → List UInt8 → List Record
  | 0, _, _, _ => []
  | _, _, _, [] => []
  | fuel + 1, bank, address, bytes =>
    let current := address / 0x10000
    let count := min lineLimit (0x10000 - address % 0x10000)
    let line : Record := ⟨UInt16.ofNat address, .data, bytes.take count⟩
    let more := dataRecords fuel (some current) (address + count) (bytes.drop count)
    if bank = some current then line :: more else bankRecord current :: line :: more

def records (i : Image) : List Record :=
  let bytes := i.bytes.toList.take (i.limit.toNat - i.base.toNat)
  dataRecords bytes.length none i.base.toNat bytes ++ [⟨0, .endOfFile, []⟩]

def render (i : Image) : Text := (records i).flatMap (fun r => r.render ++ ['\n'])

end Assembler65816.IntelHex
