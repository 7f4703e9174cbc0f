import Assembler65816.Proofs.Branches

/-! # Modes and widths of instructions

What an instruction is encoded to is a row of the opcode table: the opcode of the row and operand
bytes as many as its mode takes. For an address that is known the row is the narrowest one that
holds it. A shape that a mnemonic lacks at some width is promoted to a wider one, never demoted.
-/
namespace Assembler65816

namespace Width

theorem mem_all (w : Width) : w ∈ all := by cases w <;> decide

theorem pairwise_all : all.Pairwise fun v w => v.bytes ≤ w.bytes := by decide

theorem mem_orWider {least w : Width} : w ∈ least.orWider ↔ least.bytes ≤ w.bytes := by
  simp [orWider, mem_all]

theorem pairwise_orWider (least : Width) :
    least.orWider.Pairwise fun v w => v.bytes ≤ w.bytes := pairwise_all.filter _

def Holds (w : Width) (value : UInt32) : Prop := value.toNat < 256 ^ w.bytes

instance (w : Width) (value : UInt32) : Decidable (w.Holds value) :=
  inferInstanceAs (Decidable (_ < _))

theorem ofValue?_eq_find? (value : UInt32) :
    ofValue? value = all.find? fun w => decide (w.Holds value) := by
  have direct : value ≤ 0xFF ↔ Width.direct.Holds value :=
    UInt32.le_iff_toNat_le.trans Nat.lt_succ_iff.symm
  have absolute : value ≤ 0xFFFF ↔ Width.absolute.Holds value :=
    UInt32.le_iff_toNat_le.trans Nat.lt_succ_iff.symm
  have long : value ≤ 0xFFFFFF ↔ Width.long.Holds value :=
    UInt32.le_iff_toNat_le.trans Nat.lt_succ_iff.symm
  simp only [ofValue?, direct, absolute, long]
  split_ifs with d a l <;> simp [all, *]

/-- In a list that goes from narrow to wide the first of its kind is the narrowest. -/
theorem le_of_find? {ws : List Width} {p : Width → Bool} {v w : Width}
    (found : ws.find? p = some v) (sorted : ws.Pairwise fun v w => v.bytes ≤ w.bytes)
    (mem : w ∈ ws) (kind : p w = true) : v.bytes ≤ w.bytes := by
  obtain ⟨_, before, after, rfl, skipped⟩ := List.find?_eq_some_iff_append.mp found
  rcases List.mem_append.mp mem with early | late
  · have other := skipped w early
    simp [kind] at other
  · rcases List.mem_cons.mp late with rfl | later
    · exact le_rfl
    · have tail := (List.pairwise_append.mp sorted).2.1
      exact (List.pairwise_cons.mp tail).1 w later

end Width

/-- The mode of a shape at a width takes as many bytes as the width has. -/
theorem Shape.operandSize_of_mode? {shape : Shape} {width : Width} {mode : Mode}
    (h : shape.mode? width = some mode) :
    mode.operandSize = width.bytes ∧ mode ≠ .immediate := by
  cases shape <;> cases width <;> cases h <;> decide

theorem Mnemonic.opcode?_ne_none {m : Mnemonic} {mode : Mode} {op : UInt8}
    (row : (mode, op) ∈ m.forms) : m.opcode? mode ≠ none := by
  rw [Mnemonic.opcode?, ← Option.isSome_iff_ne_none, List.lookup_isSome_iff]
  exact ⟨(mode, op), row, beq_self_eq_true mode⟩

namespace Instruction

open Tracing

variable {env : Env} {ctx : EncodeContext} {widths : RegisterWidths} {mnemonic operand : Text}
  {expression : Text} {m : Mnemonic} {shape : Shape} {t t' : Trace} {bytes : List UInt8}

/-- The bytes are the opcode of a row and as many operand bytes as its mode takes: one more than
listed if the operand is immediate and goes to a wide register. -/
def IsRow (widths : RegisterWidths) (m : Mnemonic) (bytes : List UInt8) : Prop :=
  ∃ mode op rest, (mode, op) ∈ m.forms ∧ bytes = op :: rest ∧
    rest.length = mode.operandSize + if mode = .immediate ∧ isWide widths m = true then 1 else 0

theorem isRow_of_opcode? {mode : Mode} {op : UInt8} {rest : List UInt8}
    (entry : m.opcode? mode = some op) (other : mode ≠ .immediate)
    (length : rest.length = mode.operandSize) : IsRow widths m (op :: rest) := by
  refine ⟨mode, op, rest, Mnemonic.mem_forms entry, rfl, ?_⟩
  rw [if_neg (fun both => other both.1), length, Nat.add_zero]

theorem encodeImmediate_isRow (ctx : EncodeContext) (m : Mnemonic) (expression operand : Text) :
    Yields (encodeImmediate ctx m expression operand) (IsRow ctx.widths m) := by
  unfold encodeImmediate
  split
  · exact .throw _
  · next op entry =>
    refine (Yields.eval ctx.env _).bind fun value _ => .cautionIf _ _ (.pure ?_)
    refine ⟨.immediate, op, _, Mnemonic.mem_forms entry, rfl, ?_⟩
    rw [length_littleEndian]
    cases isWide ctx.widths m <;> rfl

theorem encodeBlockMove_isRow (ctx : EncodeContext) (m : Mnemonic)
    (source destination operand : Text) :
    Yields (encodeBlockMove ctx m source destination operand) (IsRow ctx.widths m) := by
  unfold encodeBlockMove
  split
  · exact .throw _
  · next op entry =>
    exact (Yields.eval ctx.env _).bind fun _ _ => (Yields.eval ctx.env _).bind fun _ _ =>
      .cautionIf _ _ (.cautionIf _ _ (.pure (isRow_of_opcode? entry (by decide) rfl)))

theorem encodeBranch_isRow (ctx : EncodeContext) {mode : Mode} {op : UInt8}
    (branch : IsBranch mode) (entry : m.opcode? mode = some op) (operand : Text) :
    Yields (encodeBranch ctx op mode operand) (IsRow ctx.widths m) := by
  unfold encodeBranch
  split
  · exact .throw _
  · refine (Yields.eval ctx.env _).bind fun value _ => ?_
    dsimp only
    split
    · exact .throw _
    · refine .pure (isRow_of_opcode? entry ?_ (length_littleEndian _ _))
      rcases branch with rfl | rfl <;> decide

theorem encodeAddress_ok
    (h : (encodeAddress ctx m shape expression operand).run t = (.ok bytes, t')) :
    ∃ value width t₁ op, (Tracing.eval ctx.env (splitForce expression).2).run t = (.ok value, t₁) ∧
      (chooseWidth m shape operand (splitForce expression).1 value).run t₁ = (.ok width, t') ∧
      opcodeAt? m shape width = some op ∧
      bytes = op :: littleEndian (value.getD 0) width.bytes := by
  obtain ⟨value, t₁, read, h⟩ := run_bind_ok h
  obtain ⟨width, t₂, chosen, h⟩ := run_bind_ok h
  split at h
  · cases h
  · next op entry =>
    cases h
    exact ⟨value, width, t₁, op, read, chosen, entry, rfl⟩

theorem encodeAddress_isRow
    (h : (encodeAddress ctx m shape expression operand).run t = (.ok bytes, t')) :
    IsRow ctx.widths m bytes := by
  obtain ⟨value, width, _, op, _, _, entry, rfl⟩ := encodeAddress_ok h
  obtain ⟨mode, shaped, entry⟩ := Option.bind_eq_some_iff.mp entry
  obtain ⟨size, other⟩ := Shape.operandSize_of_mode? shaped
  exact isRow_of_opcode? entry other (by rw [length_littleEndian, size])

theorem encodeOperand_isRow {form : Operand}
    (h : (encodeOperand ctx m operand form).run t = (.ok bytes, t')) :
    IsRow ctx.widths m bytes := by
  cases form with
  | immediate expression => exact (encodeImmediate_isRow ctx m expression operand _ _ _ h).1
  | address shape expression => exact encodeAddress_isRow h
  | blockMove source destination =>
    exact (encodeBlockMove_isRow ctx m source destination operand _ _ _ h).1
  | empty | openIndirect | openIndirectLong => cases h

theorem encodeExplicit_isRow (h : (encodeExplicit ctx m operand).run t = (.ok bytes, t')) :
    IsRow ctx.widths m bytes := by
  unfold encodeExplicit at h
  split at h
  · next op entry => exact (encodeBranch_isRow ctx (Or.inl rfl) entry operand _ _ _ h).1
  · next op _ entry => exact (encodeBranch_isRow ctx (Or.inr rfl) entry operand _ _ _ h).1
  · split at h
    · obtain ⟨_, t₁, _, h⟩ := run_bind_ok h
      exact encodeOperand_isRow h
    · exact encodeOperand_isRow h

theorem encode_isRow (h : (encode ctx mnemonic operand).run t = (.ok bytes, t')) :
    ∃ m, Mnemonic.ofText? mnemonic = some m ∧ IsRow ctx.widths m bytes := by
  unfold encode at h
  split at h
  · cases h
  · next m found =>
    refine ⟨m, found, ?_⟩
    unfold encodeMnemonic at h
    split at h
    · next op entry =>
      split at h
      · cases h
        exact isRow_of_opcode? entry (by decide) rfl
      · exact encodeExplicit_isRow h
    · split at h
      · cases h
      · exact encodeExplicit_isRow h

/-- The narrowest width that holds a value among those that the mnemonic has for a shape. -/
structure Narrowest (m : Mnemonic) (shape : Shape) (value : UInt32) (w : Width) : Prop where
  holds : w.Holds value
  has : opcodeAt? m shape w ≠ none
  least : ∀ v : Width, v.Holds value → opcodeAt? m shape v ≠ none → w.bytes ≤ v.bytes

variable {value : UInt32} {least w : Width}

theorem le_of_holds (narrow : Width.ofValue? value = some least) (fits : w.Holds value) :
    least.bytes ≤ w.bytes := by
  rw [Width.ofValue?_eq_find?] at narrow
  exact Width.le_of_find? narrow Width.pairwise_all (Width.mem_all w) (by simpa using fits)

theorem narrowest_of_promoted (narrow : Width.ofValue? value = some least)
    (promoted : promoteWidth? m shape least = some w) : Narrowest m shape value w := by
  constructor
  · exact (lt_of_ofValue? narrow).trans_le
      (Nat.pow_le_pow_right (by decide) (bytes_le_of_promoteWidth? promoted))
  · have has := List.find?_some promoted
    simpa [Option.isSome_iff_ne_none] using has
  · intro v fits has
    have mem : v ∈ least.orWider := Width.mem_orWider.mpr (le_of_holds narrow fits)
    exact Width.le_of_find? promoted (Width.pairwise_orWider least) mem
      (by simpa [Option.isSome_iff_ne_none] using has)

theorem opcodeAt?_of_not_promoted (narrow : Width.ofValue? value = some least)
    (refused : promoteWidth? m shape least = none) (fits : w.Holds value) :
    opcodeAt? m shape w = none := by
  have mem : w ∈ least.orWider := Width.mem_orWider.mpr (le_of_holds narrow fits)
  have none_here := List.find?_eq_none.mp refused w mem
  simpa using none_here

/-- With no width forced and none remembered, a known address gets the narrowest width there is, or
is refused as there is none. -/
theorem chooseWidth_known (m : Mnemonic) (shape : Shape) (operand : Text) (value : UInt32)
    (unguessed : t.hint = none) :
    (∃ w, Narrowest m shape value w ∧
      (chooseWidth m shape operand none (.known value)).run t = (.ok w, t)) ∨
    ((∀ w : Width, w.Holds value → opcodeAt? m shape w = none) ∧ ∃ cause,
      (chooseWidth m shape operand none (.known value)).run t = (.error cause, t) ∧
      cause.kind = .addressingMode) := by
  unfold chooseWidth
  rw [run_bind_of_ok (Tracing.get_run t), unguessed]
  dsimp only
  cases narrow : Width.ofValue? value with
  | none =>
    right
    constructor
    · intro w fits
      rw [Width.ofValue?_eq_find?, List.find?_eq_none] at narrow
      exact absurd fits (by simpa using narrow w (Width.mem_all w))
    · exact ⟨.addressRange value, rfl, rfl⟩
  | some least =>
    cases promoted : promoteWidth? m shape least with
    | none =>
      right
      constructor
      · intro w fits
        exact opcodeAt?_of_not_promoted narrow promoted fits
      · exact ⟨.addressingMode m.name operand, by simp only [promoted]; rfl, rfl⟩
    | some w =>
      left
      exact ⟨w, narrowest_of_promoted narrow promoted, by simp only [promoted]; rfl⟩

/-- An operand that is encoded as an address: of a mnemonic that does not branch, and not the name
of the accumulator where that is implied. -/
structure Addresses (m : Mnemonic) (operand : Text) (shape : Shape) (expression : Text) :
    Prop where
  form : Operand.ofText operand = .address shape expression
  straight : m.opcode? .relative = none ∧ m.opcode? .relativeLong = none
  explicit : m.opcode? .implied ≠ none → Text.sameLetters operand ['A'] = false

def doubts (m : Mnemonic) (operand : Text) : List Note :=
  match Operand.classify operand with
  | .openIndirect text => [.caution (.doubtfulIndirect m.name text)]
  | _ => []

theorem encodeExplicit_address (addresses : Addresses m operand shape expression) (t : Trace) :
    (encodeExplicit ctx m operand).run t =
      (encodeAddress ctx m shape expression operand).run
        { t with notes := t.notes ++ doubts m operand } := by
  obtain ⟨form, ⟨relative, relativeLong⟩, _⟩ := addresses
  unfold encodeExplicit doubts
  simp only [relative, relativeLong]
  cases read : Operand.classify operand with
  | openIndirect text =>
    rw [Operand.ofText, read] at form
    dsimp only at form ⊢
    rw [form]
    rfl
  | address shape' expression' =>
    rw [Operand.ofText, read] at form
    cases form
    dsimp only
    rw [List.append_nil]
    rfl
  | empty | immediate | blockMove | openIndirectLong =>
    rw [Operand.ofText, read] at form
    cases form

theorem encode_address (found : Mnemonic.ofText? mnemonic = some m)
    (addresses : Addresses m (Text.trim operand) shape expression) (t : Trace) :
    (encode ctx mnemonic operand).run t =
      (encodeAddress ctx m shape expression (Text.trim operand)).run
        { t with notes := t.notes ++ doubts m (Text.trim operand) } := by
  have given : (Text.trim operand).isEmpty = false := by
    cases empty : Text.trim operand with
    | nil =>
      have form := addresses.form
      rw [empty] at form
      cases form
    | cons => rfl
  rw [← encodeExplicit_address addresses t]
  unfold encode encodeMnemonic
  rw [found]
  dsimp only
  split
  · next op entry =>
    have explicit := addresses.explicit (by rw [entry]; exact Option.some_ne_none op)
    rw [given, explicit, Bool.or_false, if_neg Bool.false_ne_true]
  · rw [given, if_neg Bool.false_ne_true]

/-- A known address, with no width forced and none remembered, is stored whole at the narrowest
width that holds it, or is refused because no width that the mnemonic has holds it. -/
theorem encodeAddress_known (m : Mnemonic) (shape : Shape) (operand : Text)
    (unforced : (splitForce expression).1 = none) (unguessed : t.hint = none)
    (known : Expression.eval ctx.env expression = .ok value) :
    (∃ w op rest, Narrowest m shape value w ∧ opcodeAt? m shape w = some op ∧
      (encodeAddress ctx m shape expression operand).run t = (.ok (op :: rest), t) ∧
      rest.length = w.bytes ∧ ofLittleEndian rest = value.toNat) ∨
    ((∀ w : Width, w.Holds value → opcodeAt? m shape w = none) ∧ ∃ cause,
      (encodeAddress ctx m shape expression operand).run t = (.error cause, t) ∧
      cause.kind = .addressingMode) := by
  unfold encodeAddress
  rw [splitForce_of_unforced unforced]
  dsimp only
  rw [run_bind_of_ok (eval_run_known known t)]
  rcases chooseWidth_known m shape operand value unguessed with
    ⟨w, narrowest, chosen⟩ | ⟨none_holds, cause, refused, kind⟩
  · left
    obtain ⟨op, entry⟩ := Option.ne_none_iff_exists'.mp narrowest.has
    refine ⟨w, op, littleEndian value w.bytes, narrowest, entry, ?_, length_littleEndian _ _,
      ofLittleEndian_of_lt narrowest.holds⟩
    rw [run_bind_of_ok chosen, entry]
    rfl
  · right
    refine ⟨none_holds, cause, ?_, kind⟩
    rw [run_bind, refused]

/-- Encoding and the opcode table. Whatever is encoded is a row of the table for the mnemonic in
upper case. A known address with no width forced and none remembered is encoded exactly if it is
below `2 ^ 24` and the mnemonic has the shape at some width that holds it; it is then stored whole
at the narrowest such width. Otherwise the addressing mode is at fault. Nothing is remembered. -/
theorem encoding_from_table (ctx : EncodeContext) (mnemonic operand : Text) (t : Trace) :
    (∀ bytes t', (encode ctx mnemonic operand).run t = (.ok bytes, t') →
      ∃ m, m.name = Text.upper mnemonic ∧ IsRow ctx.widths m bytes) ∧
    ∀ m shape expression value, Mnemonic.ofText? mnemonic = some m →
      Addresses m (Text.trim operand) shape expression → (splitForce expression).1 = none →
      t.hint = none → Expression.eval ctx.env expression = .ok value →
      ((∃ bytes t', (encode ctx mnemonic operand).run t = (.ok bytes, t')) ↔
        value.toNat < 2 ^ 24 ∧ ∃ w mode op, w.Holds value ∧ shape.mode? w = some mode ∧
          (mode, op) ∈ m.forms) ∧
      (∀ bytes t', (encode ctx mnemonic operand).run t = (.ok bytes, t') →
        ∃ w op rest, Narrowest m shape value w ∧ opcodeAt? m shape w = some op ∧
          bytes = op :: rest ∧ rest.length = w.bytes ∧ ofLittleEndian rest = value.toNat) ∧
      (∀ cause t', (encode ctx mnemonic operand).run t = (.error cause, t') →
        cause.kind = .addressingMode) ∧
      ((encode ctx mnemonic operand).run t).2.hint = none := by
  constructor
  · intro bytes t' h
    obtain ⟨m, found, row⟩ := encode_isRow h
    exact ⟨m, by simpa using List.find?_some found, row⟩
  · intro m shape expression value found addresses unforced unguessed known
    rw [encode_address found addresses]
    have below {w : Width} (holds : w.Holds value) : value.toNat < 2 ^ 24 := by
      have widest : w.bytes ≤ 3 := by cases w <;> decide
      exact holds.trans_le (Nat.pow_le_pow_right (n := 256) (by decide) widest)
    rcases encodeAddress_known m shape (Text.trim operand) unforced
        (t := { t with notes := t.notes ++ doubts m (Text.trim operand) }) unguessed known
      with ⟨w, op, rest, narrowest, entry, run, length, whole⟩ | ⟨none_holds, cause, run, kind⟩
    · rw [run]
      refine ⟨iff_of_true ⟨_, _, rfl⟩ ⟨below narrowest.holds, ?_⟩, ?_, ?_, unguessed⟩
      · obtain ⟨mode, shaped, entry⟩ := Option.bind_eq_some_iff.mp entry
        exact ⟨w, mode, op, narrowest.holds, shaped, Mnemonic.mem_forms entry⟩
      · intro bytes t' same
        cases same
        exact ⟨w, op, rest, narrowest, entry, rfl, length, whole⟩
      · intro cause t' other
        cases other
    · rw [run]
      refine ⟨iff_of_false ?_ ?_, ?_, ?_, unguessed⟩
      · rintro ⟨bytes, t', other⟩
        cases other
      · rintro ⟨_, w, mode, op, holds, shaped, row⟩
        have missing := none_holds w holds
        rw [opcodeAt?, shaped, Option.bind_some] at missing
        exact Mnemonic.opcode?_ne_none row missing
      · intro bytes t' other
        cases other
      · intro cause' t' same
        cases same
        exact kind

/-- An address that fits one byte, of a mnemonic that has the shape with two bytes only. -/
theorem encoding_from_table_promoted :
    Mnemonic.ofText? "ldA".toList = some .LDA ∧
    Addresses .LDA (Text.trim " $12,Y ".toList) .indexedY "$12".toList ∧
    (splitForce "$12".toList).1 = none ∧
    Expression.eval (SymbolTable.env {} none) "$12".toList = .ok 0x12 ∧
    ∃ bytes t', (encode ⟨SymbolTable.env {} none, {}⟩ "ldA".toList " $12,Y ".toList).run {} =
        (.ok bytes, t') ∧
      ∃ w op rest, Narrowest .LDA .indexedY 0x12 w ∧ opcodeAt? .LDA .indexedY w = some op ∧
        bytes = op :: rest ∧ rest.length = w.bytes ∧ ofLittleEndian rest = 0x12 := by
  have found : Mnemonic.ofText? "ldA".toList = some .LDA := by decide
  have addresses : Addresses .LDA (Text.trim " $12,Y ".toList) .indexedY "$12".toList := by
    constructor <;> decide
  have known : Expression.eval (SymbolTable.env {} none) "$12".toList = .ok 0x12 := by
    decide +kernel
  obtain ⟨encodes, narrowest, _⟩ := (encoding_from_table ⟨SymbolTable.env {} none, {}⟩
    "ldA".toList " $12,Y ".toList {}).2 .LDA .indexedY "$12".toList 0x12 found addresses rfl rfl
    known
  obtain ⟨bytes, t', run⟩ :=
    encodes.mpr ⟨by decide, .absolute, .absoluteY, 0xB9, by decide, rfl, by decide⟩
  exact ⟨found, addresses, rfl, known, bytes, t', run, narrowest bytes t' run⟩

example : ((encode ⟨SymbolTable.env {} none, {}⟩ "ldA".toList " $12,Y ".toList).run {}).1 =
    .ok [0xB9, 0x12, 0x00] := by
  decide +kernel

end Instruction

end Assembler65816
