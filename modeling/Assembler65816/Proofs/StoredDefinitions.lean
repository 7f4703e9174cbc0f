import Assembler65816.Proofs.Solution

/-! # Stored definitions

A symbol keeps the expression and the location counter of the definition that gave it its entry. An
entry is left as it is when a later pass finds the same value again, so the location counter in it
is the one that some pass had in front of the defining line, not always the last pass. The
expression is that of the line in every pass, and at the address that the line has in the last pass
it comes to the value of the symbol. When no name starts with a digit lines do not move, and the two
addresses are the same.
-/
namespace Assembler65816

/-- A definition has the location counter of its line, and moves with the line. -/
theorem ParsedLine.mem_definitions {line : ParsedLine} {counter : Option UInt32} {d : Definition}
    (h : d ∈ line.definitions counter) (counter' : Option UInt32) :
    d.pc = counter ∧ ⟨d.name, d.expression, counter'⟩ ∈ line.definitions counter' := by
  unfold ParsedLine.definitions at h ⊢
  rcases List.mem_append.mp h with label | equate
  · obtain ⟨name, here, rfl⟩ := List.mem_map.mp label
    exact ⟨rfl, List.mem_append_left _ (List.mem_map.mpr ⟨name, here, rfl⟩)⟩
  · cases statement : line.statement with
    | equate name expression =>
      rw [statement] at equate
      obtain rfl := List.mem_singleton.mp equate
      exact ⟨rfl, List.mem_append_right _ (List.mem_singleton.mpr rfl)⟩
    | _ =>
      rw [statement] at equate
      cases equate

theorem mem_definitionsAt {lines : List SourceLine} {counters : List (Option UInt32)}
    {d : Definition} : d ∈ definitionsAt lines counters ↔
      ∃ (i : Nat) (line : SourceLine) (counter : Option UInt32), lines[i]? = some line ∧
        counters[i]? = some counter ∧ d ∈ (ParsedLine.ofText line.text).definitions counter := by
  induction lines generalizing counters with
  | nil => simp [definitionsAt]
  | cons line lines ih =>
    cases counters with
    | nil => simp [definitionsAt]
    | cons counter counters =>
      rw [definitionsAt, List.mem_append, ih]
      constructor
      · rintro (here | ⟨i, later, counter', at_line, at_counter, mem⟩)
        · exact ⟨0, line, counter, rfl, rfl, here⟩
        · exact ⟨i + 1, later, counter', at_line, at_counter, mem⟩
      · rintro ⟨i, later, counter', at_line, at_counter, mem⟩
        cases i with
        | zero =>
          cases at_line
          cases at_counter
          exact Or.inl mem
        | succ i => exact Or.inr ⟨i, later, counter', at_line, at_counter, mem⟩

/-- A sweep gives values to entries and leaves their definitions as they are. -/
theorem SymbolTable.Swept.definition {t t' : SymbolTable} (h : t.Swept t') {m : Text} {s : Symbol}
    (found : t'.find? m = some s) : ∃ s₀, t.find? m = some s₀ ∧ s₀.definition = s.definition := by
  induction h with
  | refl => exact ⟨s, found, rfl⟩
  | @step t t' e word here _ _ _ ih =>
    obtain ⟨s₀, found₀, same⟩ := ih found
    rw [SymbolTable.find?_put] at found₀
    split at found₀
    · next name =>
      cases found₀
      exact ⟨e, name ▸ here, same⟩
    · exact ⟨s₀, found₀, same⟩

namespace Assembly

variable {config : Config} {lines : List SourceLine} {p : Nat} {a a' : Assembly}

/-- The definitions that a pass meets, each at the location counter of its line. -/
theorem Reached.bound_at (h : (new config lines).Reached p a)
    (passed : a.runPass (p + 1) = (none, a')) :
    ∃ w : Work, Bound (p == 0) (definitionsAt lines (a.counters (p + 1))) ⟨a.work.symbols, []⟩
      w.bindings ∧ w.Retried a'.work := by
  obtain ⟨w, done, retried, _⟩ := runPass_none passed
  have bound := done.bound (by rw [startPass_symbols]; exact h.worded)
  have first : (p + 1 == 1) = (p == 0) := by simp
  rw [startPass_pass, Work.bindings, startPass_symbols, startPass_defined, first,
    h.sources_eq] at bound
  exact ⟨w, bound, retried⟩

theorem Reached.stored (h : (new config lines).Reached p a) {m : Text} {s : Symbol}
    (found : a.work.symbols.find? m = some s) :
    ∃ q b, q < p ∧ (new config lines).Reached q b ∧
      s.definition ∈ definitionsAt lines (b.counters (q + 1)) := by
  induction h generalizing s with
  | start => cases found
  | @pass p a a' before passed ih =>
    obtain ⟨w, bound, retried⟩ := before.bound_at passed
    obtain ⟨s₀, found₀, same⟩ := retried.swept.definition found
    rw [← same]
    rcases bound.origins found₀ with earlier | here
    · obtain ⟨q, b, lt, reached, mem⟩ := ih earlier
      exact ⟨q, b, by omega, reached, mem⟩
    · exact ⟨p, a, by omega, before, here⟩

end Assembly

/-- The table that a settled pass ends with solves the definitions as that pass met them. -/
theorem Passed.solves {config : Config} {table : SymbolTable} {records records' : List Record}
    {w w' : Work} (h : Passed config records w records' w') (last : w'.symbols = table)
    (settled : w'.unsettled = false) (later : w.pass ≠ 1) (covers : w.symbols.Covers table)
    (worded : table.Worded) :
    table.Solves (definitionsAt (records.map Record.source) (Work.counters config records w)) := by
  induction h with
  | nil => exact fun d mem => absurd mem List.not_mem_nil
  | @cons r rest rest' w w₁ w₂ line more ih =>
    have carried := Step.runLine_run_ok line
    have later₁ : w₁.pass ≠ 1 := by rwa [carried.pass_eq]
    have covers₁ := carried.covers covers
    obtain ⟨settled₁, leads₁, _⟩ := more.settled last settled later₁ covers₁
    obtain ⟨_, _, _, _, settles, _⟩ := carried.settles later settled₁ leads₁ covers
    rw [List.map_cons, Work.counters, line]
    intro d mem
    rcases List.mem_append.mp mem with here | rest
    · exact settles.solves worded d here
    · exact ih last settled later₁ covers₁ d rest

namespace Assembly

variable {config : Config} {lines : List SourceLine} {p : Nat} {a b : Assembly}

/-- A run that is done has the assembly in front of its last pass. -/
theorem last_pass_of_run_done (h : (new config lines).run = (.done, a)) :
    ∃ p b, (new config lines).Reached p b ∧ p + 1 = a.work.pass ∧
      (b.counters (p + 1)).length = lines.length ∧
      a.work.symbols.Solves (definitionsAt lines (b.counters (p + 1))) ∧
      ∃ c, (new config lines).Reached (p + 1) c ∧ a.work.symbols = c.work.symbols := by
  obtain ⟨_, p, c, reached, settled, log, rfl⟩ := reached_of_run_done h
  simp only [Work.settled, Bool.and_eq_true, decide_eq_true_eq, Bool.not_eq_true', beq_iff_eq]
    at settled
  obtain ⟨⟨two, settled⟩, _⟩ := settled
  have worded := reached.worded
  have names := reached.names
  have number := reached.pass_eq
  cases id reached with
  | @pass _ b _ before passed =>
    obtain ⟨w, done, retried, later, _⟩ := runPass_none passed
    have later := later (by omega)
    have symbols : w.symbols = c.work.symbols := by rw [later]; rfl
    have unsettled : w.unsettled = false := by
      rw [later] at settled
      exact settled
    have covers : (b.work.startPass b.config (p + 1)).symbols.Covers c.work.symbols := by
      intro m hm
      rw [startPass_symbols]
      exact (before.names m).mpr ⟨by omega, ((names m).mp hm).2⟩
    have solves := done.solves symbols unsettled (by rw [startPass_pass]; omega) covers worded
    rw [before.sources_eq] at solves
    refine ⟨p, b, before, number.symm, ?_, solves, c, reached, rfl⟩
    rw [counters, done.length_counters, ← before.sources_eq, List.length_map]

/-- An entry of the table that a run ends with holds the definition of a line. At the address that
the line has in the last pass, the expression comes to the value of the entry. The location counter
of the entry is the address that the line had in one of the passes, and the same address when no
name starts with a digit. -/
theorem stored_definitions (h : (new config lines).run = (.done, a)) :
    ∃ p b, (new config lines).Reached p b ∧ p + 1 = a.work.pass ∧
      ∀ s ∈ a.work.symbols.entries, ∃ (i : Nat) (line : SourceLine) (pc : Option UInt32)
        (word : UInt32), lines[i]? = some line ∧ (b.counters (p + 1))[i]? = some pc ∧
        ⟨s.name, s.expression, pc⟩ ∈ (ParsedLine.ofText line.text).definitions pc ∧
        s.value = .known word ∧
        Expression.eval (a.work.symbols.env pc) s.expression = .ok word ∧
        (∃ q c, q ≤ p ∧ (new config lines).Reached q c ∧
          (c.counters (q + 1))[i]? = some s.pc) ∧
        (LetterNames lines → s.pc = pc) := by
  obtain ⟨p, b, before, number, length, solves, c, reached, symbols⟩ := last_pass_of_run_done h
  refine ⟨p, b, before, number, fun s mem => ?_⟩
  have ordered : a.work.symbols.Ordered := symbols ▸ reached.ordered
  have found : a.work.symbols.find? s.name = some s := ordered.mem_iff.mp mem
  -- Some pass put the entry in; its line is there in the last pass too.
  obtain ⟨q, c', lt, reached', stored⟩ := reached.stored (symbols ▸ found)
  obtain ⟨i, line, counter, at_line, at_counter, defines⟩ := mem_definitionsAt.mp stored
  obtain ⟨inside, _⟩ := List.getElem?_eq_some_iff.mp at_line
  obtain ⟨pc, at_pc⟩ : ∃ pc, (b.counters (p + 1))[i]? = some pc :=
    ⟨_, List.getElem?_eq_getElem (length ▸ inside)⟩
  obtain ⟨stored_pc, moved⟩ := ParsedLine.mem_definitions defines pc
  obtain rfl : s.pc = counter := stored_pc
  obtain ⟨word, read, value⟩ :=
    solves _ (mem_definitionsAt.mpr ⟨i, line, pc, at_line, at_pc, moved⟩)
  have known : s.value = .known word := by
    rw [show s.definition.name = s.name from rfl, SymbolTable.lookup, found] at value
    exact Option.some.inj value
  refine ⟨i, line, pc, word, at_line, at_pc, moved, known, read,
    ⟨q, c', by omega, reached', at_counter⟩, fun letters => ?_⟩
  have first := before.counter_eq letters at_pc
  rw [reached'.counter_eq letters at_counter] at first
  exact Option.some.inj first

/-- The operand of the first instruction grows when the second pass reads the name `1`, and both
lines behind it move. -/
def shiftSource : List SourceLine :=
  SourceLine.ofText "shift.asm"
    (" org $80\n lda 1\nhere: nop\nx equ $-here\n1 equ $1234\n".toList)

theorem shiftSource_entry : (new { romSize := 16 } shiftSource).run.1 = .done ∧
    (new { romSize := 16 } shiftSource).run.2.work.symbols.find? ['x'] =
      some ⟨['x'], .known 1, "$-here".toList, some 0x83⟩ := by
  decide +kernel

theorem stored_definitions_shift :
    ∃ a p b, (new { romSize := 16 } shiftSource).run = (.done, a) ∧
      (new { romSize := 16 } shiftSource).Reached p b ∧ p + 1 = a.work.pass ∧
      ∃ s ∈ a.work.symbols.entries, s.pc = some 0x83 ∧
        ∃ (i : Nat) (pc : Option UInt32), (b.counters (p + 1))[i]? = some pc ∧
          Expression.eval (a.work.symbols.env pc) s.expression = .ok 1 := by
  obtain ⟨done, entry⟩ := shiftSource_entry
  rcases run : (new { romSize := 16 } shiftSource).run with ⟨ending, a⟩
  rw [run] at done entry
  obtain rfl : ending = .done := done
  obtain ⟨p, b, reached, last, entries⟩ := stored_definitions run
  have mem := List.mem_of_find?_eq_some entry
  obtain ⟨i, _, pc, word, _, at_pc, _, value, read, _⟩ := entries _ mem
  cases value
  exact ⟨a, p, b, rfl, reached, last, _, mem, rfl, i, pc, at_pc, read⟩

/-- The expression of an entry need not come to its value at the location counter of the entry. -/
theorem stored_counter_outdated :
    ∃ a, (new { romSize := 16 } shiftSource).run = (.done, a) ∧
      ∃ s ∈ a.work.symbols.entries, s.value = .known 1 ∧
        Expression.eval (a.work.symbols.env s.pc) s.expression = .ok 0 := by
  obtain ⟨done, entry⟩ := shiftSource_entry
  have read : Expression.eval ((new { romSize := 16 } shiftSource).run.2.work.symbols.env
      (some 0x83)) "$-here".toList = .ok 0 := by decide +kernel
  rcases run : (new { romSize := 16 } shiftSource).run with ⟨ending, a⟩
  rw [run] at done entry read
  obtain rfl : ending = .done := done
  exact ⟨a, rfl, _, List.mem_of_find?_eq_some entry, rfl, read⟩

end Assembly

end Assembler65816
