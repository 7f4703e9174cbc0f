import Assembler65816.Proofs.Knowledge
import Mathlib.Data.Nat.Digits.Defs

/-! # The grammar of expressions

Expressions as trees, how they are written and what they mean. An infix expression is a sequence of
operands, taken from left to right without precedence; an operand is an atom or a bracketed
expression, with a selector or without; between braces stands a tree of operators in postorder. The
meaning is by arithmetic on numbers, reduced to words, and stops at the first obstacle from the
left.
-/
namespace Assembler65816.Grammar

open Expression (Obstacle Reading Operator Selector)

inductive Radix where
  | binary
  | octal
  | decimal
  | hex
  deriving DecidableEq, Repr

namespace Radix

def base : Radix → Nat
  | .binary => 2
  | .octal => 8
  | .decimal => 10
  | .hex => 16

instance (radix : Radix) : NeZero radix.base := ⟨by cases radix <;> decide⟩

def sign : Radix → Text
  | .binary => ['%']
  | .octal => ['&']
  | .decimal => []
  | .hex => ['$']

end Radix

/-- A digit. Digits from ten on are letters of either case. -/
structure Digit (radix : Radix) where
  value : Fin radix.base
  upper : Bool := false
  deriving DecidableEq, Repr

def Digit.char {radix : Radix} (d : Digit radix) : Char :=
  if d.upper then (Nat.digitChar d.value).toUpper else Nat.digitChar d.value

structure Number where
  radix : Radix
  digits : List (Digit radix)
  digits_ne_nil : digits ≠ []
  fits : Nat.ofDigits radix.base (digits.reverse.map fun d => d.value.val) < 2 ^ 32

namespace Number

def value (n : Number) : Nat := Nat.ofDigits n.radix.base (n.digits.reverse.map fun d => d.value.val)

def text (n : Number) : Text := n.radix.sign ++ n.digits.map Digit.char

end Number

inductive Mark where
  | single
  | double
  deriving DecidableEq, Repr

def Mark.char : Mark → Char
  | .single => '\''
  | .double => '"'

inductive Escape where
  | carriageReturn
  | newline
  | tab
  | nul
  | backslash
  | quote (mark : Mark)
  deriving DecidableEq, Repr

namespace Escape

def letter : Escape → Char
  | .carriageReturn => 'r'
  | .newline => 'n'
  | .tab => 't'
  | .nul => '0'
  | .backslash => '\\'
  | .quote mark => mark.char

def char : Escape → Char
  | .carriageReturn => '\r'
  | .newline => '\n'
  | .tab => '\t'
  | .nul => '\x00'
  | .backslash => '\\'
  | .quote mark => mark.char

end Escape

/-- A character between two marks. The mark itself and the backslash have to be escaped. -/
inductive Quoted (mark : Mark) where
  | plain (c : Char) (ne_mark : c ≠ mark.char) (ne_backslash : c ≠ '\\')
  | escaped (escape : Escape)

namespace Quoted

variable {mark : Mark}

def char : Quoted mark → Char
  | .plain c _ _ => c
  | .escaped escape => escape.char

def text : Quoted mark → Text
  | .plain c _ _ => [c]
  | .escaped escape => ['\\', escape.letter]

end Quoted

inductive Simple where
  | number (n : Number)
  | character (mark : Mark) (quoted : Quoted mark)
  | counter
  | symbol (name : Text) (isName : isSymbolName name = true)

namespace Simple

def text : Simple → Text
  | .number n => n.text
  | .character mark quoted => mark.char :: (quoted.text ++ [mark.char])
  | .counter => ['$']
  | .symbol name _ => name

/-- The value of an atom in an environment; `whole` is the atom as it stands, for the report. -/
def meaning (env : Env) (whole : Text) : Simple → Reading
  | .number n => .ok (UInt32.ofNat n.value)
  | .character _ quoted => .ok (UInt32.ofNat quoted.char.toNat)
  | .counter =>
    match env.address with
    | some address => .ok address
    | none => .error (.fault (.counterUnset whole))
  | .symbol name _ =>
    match env.lookup name with
    | some (.known word) => .ok word
    | some .unresolved => .error .pending
    | none => .error (.missing name)

end Simple

def selectorSign : Selector → Char
  | .low => '<'
  | .high => '>'
  | .bank => '^'

def lead : Option Selector → Text
  | none => []
  | some selector => [selectorSign selector]

def pick : Option Selector → UInt32 → UInt32
  | none, word => word
  | some .low, word => UInt32.ofNat (word.toNat % 256)
  | some .high, word => UInt32.ofNat (word.toNat / 256 % 256)
  | some .bank, word => UInt32.ofNat (word.toNat / 65536 % 256)

def sign : Operator → Text
  | .add => ['+']
  | .sub => ['-']
  | .mul => ['*']
  | .div => ['/']
  | .mod => ['%']
  | .shiftLeft => ['<', '<']
  | .shiftRight => ['>', '>']
  | .or => ['|']
  | .and => ['&']
  | .xor => ['^']

def compute : Operator → UInt32 → UInt32 → Reading
  | .add, a, b => .ok (UInt32.ofNat (a.toNat + b.toNat))
  | .sub, a, b => .ok (UInt32.ofNat (2 ^ 32 + a.toNat - b.toNat))
  | .mul, a, b => .ok (UInt32.ofNat (a.toNat * b.toNat))
  | .div, a, b =>
    if b.toNat = 0 then .error (.fault .divisionByZero) else .ok (UInt32.ofNat (a.toNat / b.toNat))
  | .mod, a, b =>
    if b.toNat = 0 then .error (.fault .divisionByZero) else .ok (UInt32.ofNat (a.toNat % b.toNat))
  | .shiftLeft, a, b => .ok (UInt32.ofNat (a.toNat * 2 ^ b.toNat))
  | .shiftRight, a, b => .ok (UInt32.ofNat (a.toNat / 2 ^ b.toNat))
  | .or, a, b => .ok (UInt32.ofNat (a.toNat ||| b.toNat))
  | .and, a, b => .ok (UInt32.ofNat (a.toNat &&& b.toNat))
  | .xor, a, b => .ok (UInt32.ofNat (a.toNat ^^^ b.toNat))

structure Atom where
  selector : Option Selector := none
  simple : Simple

namespace Atom

def text (a : Atom) : Text := lead a.selector ++ a.simple.text

def meaning (env : Env) (a : Atom) : Reading :=
  (a.simple.meaning env a.text).map (pick a.selector)

end Atom

mutual

inductive Infix where
  | operand (x : Operand)
  | chain (left : Infix) (op : Operator) (right : Operand)

inductive Operand where
  | atom (a : Atom)
  | parens (selector : Option Selector) (inside : Infix)
  | braces (selector : Option Selector) (inside : Postfix)

inductive Postfix where
  | atom (a : Atom)
  | parens (inside : Infix)
  | braces (inside : Postfix)
  | node (op : Operator) (left right : Postfix)

end

mutual

def Infix.text : Infix → Text
  | .operand x => x.text
  | .chain left op right => left.text ++ ' ' :: (sign op ++ ' ' :: right.text)

def Operand.text : Operand → Text
  | .atom a => a.text
  | .parens selector inside => lead selector ++ '(' :: (inside.text ++ [')'])
  | .braces selector inside => lead selector ++ '{' :: (inside.text ++ ['}'])

def Postfix.text : Postfix → Text
  | .atom a => a.text
  | .parens inside => '(' :: (inside.text ++ [')'])
  | .braces inside => '{' :: (inside.text ++ ['}'])
  | .node op left right => left.text ++ ' ' :: (right.text ++ ' ' :: sign op)

end

mutual

def Infix.meaning (env : Env) : Infix → Reading
  | .operand x => x.meaning env
  | .chain left op right => do
    let a ← left.meaning env
    let b ← right.meaning env
    compute op a b

def Operand.meaning (env : Env) : Operand → Reading
  | .atom a => a.meaning env
  | .parens selector inside => (inside.meaning env).map (pick selector)
  | .braces selector inside => (inside.meaning env).map (pick selector)

def Postfix.meaning (env : Env) : Postfix → Reading
  | .atom a => a.meaning env
  | .parens inside => inside.meaning env
  | .braces inside => inside.meaning env
  | .node op left right => do
    let a ← left.meaning env
    let b ← right.meaning env
    compute op a b

end

theorem eq_ofNat {w : UInt32} {n : Nat} (h : w.toNat = n % 2 ^ 32) : w = UInt32.ofNat n := by
  apply UInt32.toNat_inj.mp
  rw [h, UInt32.toNat_ofNat']

theorem low_byte (w : UInt32) : w &&& 0xFF = UInt32.ofNat (w.toNat % 256) := by
  have low : (w &&& 0xFF).toNat = w.toNat % 256 := by
    rw [UInt32.toNat_and]
    exact Nat.and_two_pow_sub_one_eq_mod w.toNat 8
  rw [← low, UInt32.ofNat_toNat]

theorem select_eq_pick (selector : Selector) (word : UInt32) :
    selector.select word = pick (some selector) word := by
  cases selector with
  | low => exact low_byte word
  | high =>
    have shifted : (word >>> 8).toNat = word.toNat / 256 := by
      rw [UInt32.toNat_shiftRight]
      exact Nat.shiftRight_eq_div_pow word.toNat 8
    rw [Selector.select, low_byte, shifted, pick]
  | bank =>
    have shifted : (word >>> 16).toNat = word.toNat / 65536 := by
      rw [UInt32.toNat_shiftRight]
      exact Nat.shiftRight_eq_div_pow word.toNat 16
    rw [Selector.select, low_byte, shifted, pick]

theorem lt_width_iff (b : UInt32) : b < 32 ↔ b.toNat < 32 := UInt32.lt_iff_toNat_lt

theorem shiftLeft_eq (a b : UInt32) :
    (if b < 32 then a <<< b else 0) = UInt32.ofNat (a.toNat * 2 ^ b.toNat) := by
  apply eq_ofNat
  split
  · next small =>
    have small := (lt_width_iff b).mp small
    rw [UInt32.toNat_shiftLeft, Nat.mod_eq_of_lt small, Nat.shiftLeft_eq]
  · next large =>
    have large := Nat.not_lt.mp (mt (lt_width_iff b).mpr large)
    obtain ⟨more, eq⟩ := Nat.exists_eq_add_of_le large
    rw [eq, Nat.pow_add, Nat.mul_left_comm, Nat.mul_mod_right]
    rfl

theorem shiftRight_eq (a b : UInt32) :
    (if b < 32 then a >>> b else 0) = UInt32.ofNat (a.toNat / 2 ^ b.toNat) := by
  split
  · next small =>
    have small := (lt_width_iff b).mp small
    have shifted : (a >>> b).toNat = a.toNat / 2 ^ b.toNat := by
      rw [UInt32.toNat_shiftRight, Nat.mod_eq_of_lt small, Nat.shiftRight_eq_div_pow]
    rw [← shifted, UInt32.ofNat_toNat]
  · next large =>
    have large := Nat.not_lt.mp (mt (lt_width_iff b).mpr large)
    have less : a.toNat < 2 ^ b.toNat :=
      Nat.lt_of_lt_of_le a.toNat_lt (Nat.pow_le_pow_right (by decide) large)
    rw [Nat.div_eq_of_lt less]
    rfl

def outcome : Option UInt32 → Reading
  | some word => .ok word
  | none => .error (.fault .divisionByZero)

theorem outcome_apply (op : Operator) (a b : UInt32) :
    outcome (op.apply a b) = compute op a b := by
  have zero : b = 0 ↔ b.toNat = 0 := UInt32.toNat_inj.symm
  cases op with
  | add => exact congrArg Except.ok (eq_ofNat (UInt32.toNat_add a b))
  | sub =>
    refine congrArg Except.ok (eq_ofNat ?_)
    have word := b.toNat_lt
    rw [UInt32.toNat_sub, Nat.add_comm, Nat.add_comm (2 ^ 32), Nat.add_sub_assoc (by omega)]
  | mul => exact congrArg Except.ok (eq_ofNat (UInt32.toNat_mul a b))
  | div =>
    simp only [Operator.apply, compute, zero, ← UInt32.toNat_div, UInt32.ofNat_toNat]
    split <;> rfl
  | mod =>
    simp only [Operator.apply, compute, zero, ← UInt32.toNat_mod, UInt32.ofNat_toNat]
    split <;> rfl
  | shiftLeft => exact congrArg Except.ok (shiftLeft_eq a b)
  | shiftRight => exact congrArg Except.ok (shiftRight_eq a b)
  | or => rw [compute, ← UInt32.toNat_or, UInt32.ofNat_toNat]; rfl
  | and => rw [compute, ← UInt32.toNat_and, UInt32.ofNat_toNat]; rfl
  | xor => rw [compute, ← UInt32.toNat_xor, UInt32.ofNat_toNat]; rfl

end Assembler65816.Grammar
