import Assembler65816.Fault

/-! # ROM image

A window of bytes at a base address. A run of bytes is stored whole or not at all. The addresses
of a run saturate at the top of the address space; a run that the saturated bounds let pass but
the buffer cannot hold is an overrun, which no report describes.
-/

namespace Assembler65816

structure Image where
  base : UInt32
  fill : UInt8
  bytes : Array UInt8
  deriving DecidableEq, Repr

def saturatingAdd (a b : UInt32) : UInt32 :=
  if a.toNat + b.toNat < UInt32.size then a + b else 0xFFFFFFFF

namespace Image

inductive StoreError where
  | outside (address : UInt32)
  /-- The run passes the top of the address space. -/
  | overrun
  deriving DecidableEq, Repr

def new (base size : UInt32) (fill : UInt8) : Image :=
  ⟨base, fill, Array.replicate size.toNat fill⟩

def size (i : Image) : UInt32 := UInt32.ofNat i.bytes.size

def limit (i : Image) : UInt32 := saturatingAdd i.base i.size

def contains (i : Image) (address : UInt32) : Bool :=
  i.base ≤ address && address - i.base < i.size

def clear (i : Image) : Image := { i with bytes := Array.replicate i.bytes.size i.fill }

def rebase (i : Image) (base : UInt32) : Image := { i.clear with base }

def write : Array UInt8 → Nat → List UInt8 → Array UInt8
  | buffer, _, [] => buffer
  | buffer, start, byte :: rest => write (buffer.setIfInBounds start byte) (start + 1) rest

@[simp] theorem size_write (buffer : Array UInt8) (start : Nat) (run : List UInt8) :
    (write buffer start run).size = buffer.size := by
  induction run generalizing buffer start with
  | nil => rfl
  | cons byte rest ih => simp [write, ih]

theorem getElem?_write {buffer : Array UInt8} {start : Nat} {run : List UInt8}
    (fits : start + run.length ≤ buffer.size) (k : Nat) :
    (write buffer start run)[k]? =
      if start ≤ k ∧ k < start + run.length then run[k - start]? else buffer[k]? := by
  induction run generalizing buffer start with
  | nil =>
    have : ¬(start ≤ k ∧ k < start + 0) := by omega
    simp only [write, List.length_nil, if_neg this]
  | cons byte rest ih =>
    simp only [List.length_cons] at fits
    rw [write, ih (by simp; omega)]
    by_cases hk : k = start
    · subst hk
      have : ¬(k + 1 ≤ k ∧ k < k + 1 + rest.length) := by omega
      rw [if_neg this, if_pos (by simp)]
      simp [Array.getElem?_setIfInBounds]
      omega
    · have shifted : start + 1 ≤ k ∧ k < start + 1 + rest.length ↔
          start ≤ k ∧ k < start + (byte :: rest).length := by
        simp only [List.length_cons]
        omega
      simp only [shifted]
      split
      · next h =>
        obtain ⟨j, rfl⟩ := Nat.exists_eq_add_of_lt (Nat.lt_of_le_of_ne h.1 (Ne.symm hk))
        rw [show start + j + 1 - start = j + 1 by omega,
          show start + j + 1 - (start + 1) = j by omega]
        rfl
      · rw [Array.getElem?_setIfInBounds_ne (Ne.symm hk)]

/-- The index at which a run of bytes for an address goes into the buffer. -/
def locate (i : Image) (address : UInt32) (run : List UInt8) : Except StoreError Nat :=
  if run.isEmpty then .ok 0
  else
    let last := saturatingAdd address (UInt32.ofNat (run.length - 1))
    let start := (address - i.base).toNat
    if !i.contains address then .error (.outside address)
    else if !i.contains last then .error (.outside last)
    else if i.bytes.size < start + run.length then .error .overrun
    else .ok start

def overwrite (i : Image) (start : Nat) (run : List UInt8) : Image :=
  { i with bytes := write i.bytes start run }

def store (i : Image) (address : UInt32) (run : List UInt8) : Except StoreError Image :=
  (i.locate address run).map fun start => i.overwrite start run

def outsideFault (i : Image) (address : UInt32) : Fault := .outsideRom address i.base i.limit

end Image

end Assembler65816
