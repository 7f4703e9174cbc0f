import Assembler65816.Proofs.Truncation

/-! # Branches

A branch stores how far its target lies from the next instruction, in two's complement. The next
instruction may lie across the top of the address space, where its address wraps; the distance is a
plain difference of the two addresses and never wraps. A target that is known is reached exactly
when the distance fits, and the offset that is stored then leads to it.
-/
namespace Assembler65816

def ofTwosComplement (bytes : List UInt8) : Int :=
  (ofLittleEndian bytes : Int).bmod (256 ^ bytes.length)

/-- The distance between two words, cut to bytes in which it fits, is read back. -/
theorem ofTwosComplement_sub {target source : UInt32} {size : Nat} (small : size ≤ 4)
    (low : -(256 ^ size : Nat) ≤ ((target.toNat : Int) - source.toNat) * 2)
    (high : ((target.toNat : Int) - source.toNat) * 2 < (256 ^ size : Nat)) :
    ofTwosComplement (littleEndian (target - source) size) =
      (target.toNat : Int) - source.toNat := by
  have divides : ((256 ^ size : Nat) : Int) ∣ ((2 ^ 32 : Nat) : Int) := by
    have powers : 256 ^ size ∣ 256 ^ 4 := Nat.pow_dvd_pow 256 small
    exact_mod_cast powers
  have wrapped : ((target - source).toNat : Int) =
      ((target.toNat : Int) - source.toNat) % (2 ^ 32 : Nat) := by
    have := target.toNat_lt
    have := source.toNat_lt
    rw [UInt32.toNat_sub]
    omega
  calc ofTwosComplement (littleEndian (target - source) size)
      = (((target - source).toNat : Int) % (256 ^ size : Nat)).bmod (256 ^ size) := by
        rw [ofTwosComplement, length_littleEndian, ofLittleEndian_littleEndian]
        norm_cast
    _ = (((target.toNat : Int) - source.toNat) % (256 ^ size : Nat)).bmod (256 ^ size) := by
        rw [wrapped, Int.emod_emod_of_dvd _ divides]
    _ = ((target.toNat : Int) - source.toNat).bmod (256 ^ size) := Int.emod_bmod _ _
    _ = (target.toNat : Int) - source.toNat := Int.bmod_eq_of_le_mul_two low high

theorem littleEndian_zero (size : Nat) : littleEndian 0 size = List.replicate size 0 := by
  induction size with
  | zero => rfl
  | succ size ih =>
    rw [littleEndian, List.replicate_succ]
    exact congrArg _ ih

/-- What an opcode is looked up in is a row of the table. -/
theorem Mnemonic.mem_forms {m : Mnemonic} {mode : Mode} {op : UInt8}
    (entry : m.opcode? mode = some op) : (mode, op) ∈ m.forms := by
  obtain ⟨before, after, split, _⟩ := List.lookup_eq_some_iff.mp entry
  rw [split]
  exact List.mem_append_right before List.mem_cons_self

namespace Instruction

variable {ctx : EncodeContext} {mnemonic operand : Text} {m : Mnemonic} {op : UInt8} {mode : Mode}
  {pc : UInt32} {t t' : Trace}

def IsBranch (mode : Mode) : Prop := mode = .relative ∨ mode = .relativeLong

theorem forms_of_branch : ∀ m ∈ Mnemonic.all, ∀ entry ∈ m.forms,
    entry.1 = .relative ∨ entry.1 = .relativeLong → m.forms = [entry] := by
  decide

theorem encode_branch (found : Mnemonic.ofText? mnemonic = some m) (branch : IsBranch mode)
    (entry : m.opcode? mode = some op) (given : Text.trim operand ≠ []) :
    encode ctx mnemonic operand = encodeBranch ctx op mode (Text.trim operand) := by
  have only : m.forms = [(mode, op)] :=
    forms_of_branch m (List.mem_of_find?_eq_some found) _ (Mnemonic.mem_forms entry) branch
  have none_other (other : Mode) (differs : other ≠ mode) : m.opcode? other = none := by
    have unequal : (other == mode) = false := beq_eq_false_iff_ne.mpr differs
    rw [Mnemonic.opcode?, only, List.lookup_cons, unequal]
    rfl
  unfold encode
  rw [found]
  rcases branch with rfl | rfl
  · have implied := none_other .implied (by decide)
    simp [encodeMnemonic, encodeExplicit, implied, entry, given]
  · have implied := none_other .implied (by decide)
    have relative := none_other .relative (by decide)
    simp [encodeMnemonic, encodeExplicit, implied, relative, entry, given]

/-- The address of the instruction after a branch. It wraps at the top of the address space. -/
def addressAfter (pc : UInt32) (mode : Mode) : Nat := (pc.toNat + (1 + mode.operandSize)) % 2 ^ 32

theorem IsBranch.addressAfter_eq (branch : IsBranch mode) (pc : UInt32) :
    (pc + UInt32.ofNat (1 + mode.operandSize)).toNat = addressAfter pc mode := by
  have small : 1 + mode.operandSize < UInt32.size := by rcases branch with rfl | rfl <;> decide
  rw [UInt32.toNat_add, UInt32.toNat_ofNat_of_lt' small, addressAfter]

def InReach (mode : Mode) (distance : Int) : Prop :=
  -2 ^ (8 * mode.operandSize - 1) ≤ distance ∧ distance ≤ 2 ^ (8 * mode.operandSize - 1) - 1

instance (mode : Mode) (distance : Int) : Decidable (InReach mode distance) :=
  inferInstanceAs (Decidable (_ ∧ _))

theorem IsBranch.bounds (branch : IsBranch mode) {distance : Int} (fits : InReach mode distance) :
    -(256 ^ mode.operandSize : Nat) ≤ distance * 2 ∧
      distance * 2 < (256 ^ mode.operandSize : Nat) := by
  rcases branch with rfl | rfl
  · have range : -128 ≤ distance ∧ distance ≤ 127 := fits
    change -256 ≤ distance * 2 ∧ distance * 2 < 256
    omega
  · have range : -32768 ≤ distance ∧ distance ≤ 32767 := fits
    change -65536 ≤ distance * 2 ∧ distance * 2 < 65536
    omega

/-- A branch whose target has been read: to the value, or to the next instruction instead. -/
theorem encodeBranch_run (op : UInt8) (mode : Mode) (placed : ctx.env.address = some pc)
    {value : Value} {source : UInt32} (next : pc + UInt32.ofNat (1 + mode.operandSize) = source)
    (read : (Tracing.eval ctx.env operand).run t = (.ok value, t')) :
    (encodeBranch ctx op mode operand).run t =
      if InReach mode (((value.getD source).toNat : Int) - source.toNat) then
        (.ok (op :: littleEndian (value.getD source - source) mode.operandSize), t')
      else (.error (.branchRange (((value.getD source).toNat : Int) - source.toNat) source), t') := by
  have reach : ((1 <<< (8 * mode.operandSize - 1) : Nat) : Int) =
      2 ^ (8 * mode.operandSize - 1) := by
    rw [Nat.shiftLeft_eq, one_mul]
    norm_cast
  unfold encodeBranch
  rw [placed]
  dsimp only
  rw [run_bind_of_ok read, next, reach]
  simp only [Bool.or_eq_true, decide_eq_true_eq]
  by_cases fits : InReach mode (((value.getD source).toNat : Int) - source.toNat)
  · rw [if_pos fits, if_neg (by unfold InReach at fits; omega)]
    rfl
  · rw [if_neg fits, if_pos (by unfold InReach at fits; omega)]
    rfl

theorem encodeBranch_known (op : UInt8) (branch : IsBranch mode)
    (placed : ctx.env.address = some pc) {target : UInt32}
    (value : Expression.eval ctx.env operand = .ok target) :
    (InReach mode (target.toNat - addressAfter pc mode) ∧ ∃ offset,
      (encodeBranch ctx op mode operand).run t = (.ok (op :: offset), t) ∧
      offset.length = mode.operandSize ∧
      addressAfter pc mode + ofTwosComplement offset = target.toNat) ∨
    (¬ InReach mode (target.toNat - addressAfter pc mode) ∧ ∃ cause,
      (encodeBranch ctx op mode operand).run t = (.error cause, t) ∧
      cause.kind = .branchRange) := by
  have run := encodeBranch_run op mode placed rfl (eval_run_known value t)
  rw [Value.getD, branch.addressAfter_eq] at run
  by_cases fits : InReach mode (target.toNat - addressAfter pc mode)
  · rw [if_pos fits] at run
    refine Or.inl ⟨fits, _, run, length_littleEndian _ _, ?_⟩
    have small : mode.operandSize ≤ 4 := by rcases branch with rfl | rfl <;> decide
    rw [← branch.addressAfter_eq] at fits ⊢
    obtain ⟨low, high⟩ := branch.bounds fits
    rw [ofTwosComplement_sub small low high]
    omega
  · rw [if_neg fits] at run
    exact Or.inr ⟨fits, _, run, rfl⟩

/-- Branches. Without a location counter a branch is refused before its operand is read. Otherwise,
for a known target, it is encoded exactly if the distance from the next instruction fits, and then
as the opcode and an offset that leads to the target; if not, it is out of range. A target that is
not known yet is asked for and encoded with offset zero, and no width is remembered for it. -/
theorem branch_encoding (ctx : EncodeContext) (found : Mnemonic.ofText? mnemonic = some m)
    (branch : IsBranch mode) (entry : m.opcode? mode = some op) (given : Text.trim operand ≠ [])
    (t : Trace) :
    (ctx.env.address = none →
      (encode ctx mnemonic operand).run t = (.error .instructionBeforeOrigin, t) ∧
        Fault.instructionBeforeOrigin.kind = .directive) ∧
    ∀ pc, ctx.env.address = some pc →
      (∀ target, Expression.eval ctx.env (Text.trim operand) = .ok target →
        ((∃ bytes t', (encode ctx mnemonic operand).run t = (.ok bytes, t')) ↔
          InReach mode (target.toNat - addressAfter pc mode)) ∧
        (InReach mode (target.toNat - addressAfter pc mode) → ∃ offset,
          (encode ctx mnemonic operand).run t = (.ok (op :: offset), t) ∧
          offset.length = mode.operandSize ∧
          addressAfter pc mode + ofTwosComplement offset = target.toNat) ∧
        (¬ InReach mode (target.toNat - addressAfter pc mode) → ∃ cause,
          (encode ctx mnemonic operand).run t = (.error cause, t) ∧ cause.kind = .branchRange)) ∧
      ∀ t', (Tracing.eval ctx.env (Text.trim operand)).run t = (.ok .unresolved, t') →
        (encode ctx mnemonic operand).run t =
            (.ok (op :: List.replicate mode.operandSize 0), t') ∧
          t'.deferred = true ∧ t'.hint = t.hint := by
  rw [encode_branch found branch entry given]
  constructor
  · intro unset
    unfold encodeBranch
    rw [unset]
    exact ⟨rfl, rfl⟩
  · intro pc placed
    constructor
    · intro target value
      rcases encodeBranch_known (t := t) op branch placed value with
        ⟨fits, offset, run, leads⟩ | ⟨far, refused⟩
      · exact ⟨iff_of_true ⟨_, t, run⟩ fits, fun _ => ⟨offset, run, leads⟩, absurd fits⟩
      · refine ⟨iff_of_false ?_ far, fun fits => absurd fits far, fun _ => refused⟩
        rintro ⟨bytes, t', encoded⟩
        obtain ⟨cause, run, _⟩ := refused
        rw [run] at encoded
        cases encoded
    · intro t' asked
      have run := encodeBranch_run op mode placed rfl asked
      have near : InReach mode 0 := by rcases branch with rfl | rfl <;> decide
      rw [Value.getD, sub_self, if_pos near, UInt32.sub_self, littleEndian_zero] at run
      exact ⟨run, Tracing.eval_deferred asked, (Tracing.eval_run_ok asked).1⟩

/-- A branch across the top of the address space, as far forward as it can go. -/
theorem branch_encoding_wrapped :
    Mnemonic.ofText? "bra".toList = some .BRA ∧ IsBranch .relative ∧
    Mnemonic.BRA.opcode? .relative = some 0x80 ∧ Text.trim "$80".toList ≠ [] ∧
    ∃ offset, (encode ⟨SymbolTable.env {} (some 0xFFFFFFFF), {}⟩ "bra".toList "$80".toList).run {} =
        (.ok (0x80 :: offset), {}) ∧ offset.length = 1 ∧ 1 + ofTwosComplement offset = 0x80 := by
  have found : Mnemonic.ofText? "bra".toList = some .BRA := by decide
  have entry : Mnemonic.BRA.opcode? .relative = some 0x80 := rfl
  have given : Text.trim "$80".toList ≠ [] := by decide
  have value : Expression.eval (SymbolTable.env {} (some 0xFFFFFFFF)) (Text.trim "$80".toList) =
      .ok 0x80 := by decide +kernel
  have encodes := branch_encoding ⟨SymbolTable.env {} (some 0xFFFFFFFF), {}⟩ found (Or.inl rfl)
    entry given {}
  exact ⟨found, Or.inl rfl, entry, given,
    (((encodes.2 0xFFFFFFFF rfl).1 0x80 value).2.1 (by decide))⟩

end Instruction

end Assembler65816
