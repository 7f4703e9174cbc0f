import Assembler65816.Proofs.Settled
import Assembler65816.Proofs.Sweep

/-! # Sweeps in any order

A sweep may visit the unresolved names of each round in any order. Within a round a value that is
found early is seen by the names tried after it, so two orders pass through different tables. They
still end alike: evaluation keeps a value or a fault that it has found when more becomes known, so
a table in which no symbol can be resolved any more holds all that any other order finds.
-/
namespace Assembler65816

namespace SymbolTable

def AtRest (t : SymbolTable) : Prop :=
  ∀ name s, t.find? name = some s → s.value = .unresolved → t.Waits s

/-- What resolving symbols makes of a table: entries with a value stay, and an entry that gets one
has the value that its own expression comes to in the end. -/
structure Completes (t t' : SymbolTable) : Prop where
  absent : ∀ name, t.find? name = none → t'.find? name = none
  untouched : ∀ name s, t.find? name = some s → s.value ≠ .unresolved → t'.find? name = some s
  filled : ∀ name s, t.find? name = some s → s.value = .unresolved →
    t'.find? name = some s ∨ ∃ word, t'.find? name = some { s with value := .known word } ∧
      Expression.eval (t'.env s.pc) s.expression = .ok word

theorem Completes.refl (t : SymbolTable) : t.Completes t :=
  ⟨fun _ none => none, fun _ _ found _ => found, fun _ _ found _ => Or.inl found⟩

theorem Completes.env_extends {t t' : SymbolTable} (h : t.Completes t') (pc : Option UInt32) :
    (t.env pc).Extends (t'.env pc) := by
  refine ⟨rfl, ?_, ?_, ?_⟩
  · intro name word known
    obtain ⟨s, found, value⟩ := Option.map_eq_some_iff.mp known
    have kept := h.untouched name s found (by rw [value]; exact Value.noConfusion)
    exact Option.map_eq_some_iff.mpr ⟨s, kept, value⟩
  · intro name present absent
    cases found : t.find? name with
    | none => exact present (Option.map_eq_none_iff.mpr found)
    | some s =>
      have absent := Option.map_eq_none_iff.mp absent
      by_cases waiting : s.value = .unresolved
      · rcases h.filled name s found waiting with same | ⟨word, filled, _⟩
        · exact Option.some_ne_none _ (same.symm.trans absent)
        · exact Option.some_ne_none _ (filled.symm.trans absent)
      · exact Option.some_ne_none _ ((h.untouched name s found waiting).symm.trans absent)
  · intro name absent
    left
    exact Option.map_eq_none_iff.mpr (h.absent name (Option.map_eq_none_iff.mp absent))

theorem Completes.eval_ok {t t' : SymbolTable} {s : Symbol} {word : UInt32} (h : t.Completes t')
    (read : Expression.eval (t.env s.pc) s.expression = .ok word) :
    Expression.eval (t'.env s.pc) s.expression = .ok word :=
  Expression.eval_of_extends (h.env_extends s.pc) read

theorem Completes.eval_fault {t t' : SymbolTable} {s : Symbol} {cause : Fault}
    (h : t.Completes t')
    (fault : Expression.eval (t.env s.pc) s.expression = .error (.fault cause)) :
    Expression.eval (t'.env s.pc) s.expression = .error (.fault cause) := by
  have answer := (Expression.eval_advances (t.env s.pc) s.expression).answer
  rw [fault] at answer
  exact answer.2 _ (h.env_extends s.pc)

/-- A symbol that has been resolved is as good as one that is found with its value. -/
theorem Completes.unput {t t' : SymbolTable} {s : Symbol} {word : UInt32}
    (found : t.find? s.name = some s) (waiting : s.value = .unresolved)
    (h : (t.put { s with value := .known word }).Completes t')
    (read : Expression.eval (t'.env s.pc) s.expression = .ok word) : t.Completes t' := by
  have own : t'.find? s.name = some { s with value := .known word } :=
    h.untouched s.name _ (by simp) Value.noConfusion
  have other {name : Text} (differ : s.name ≠ name) :
      (t.put { s with value := .known word }).find? name = t.find? name := by
    simp [differ]
  refine ⟨?_, ?_, ?_⟩
  · intro name absent
    have differ : s.name ≠ name := by
      rintro rfl
      rw [found] at absent
      cases absent
    exact h.absent name ((other differ).trans absent)
  · intro name e here known
    have differ : s.name ≠ name := by
      rintro rfl
      rw [found] at here
      cases here
      exact known waiting
    exact h.untouched name e ((other differ).trans here) known
  · intro name e here waits
    by_cases same : s.name = name
    · subst same
      rw [found] at here
      cases here
      exact Or.inr ⟨word, own, read⟩
    · exact h.filled name e ((other same).trans here) waits

theorem Swept.completes {t t' : SymbolTable} (h : t.Swept t') : t.Completes t' := by
  induction h with
  | refl t => exact .refl t
  | @step t t' s word found waiting read more ih =>
    have grown : (t.env s.pc).Extends (t'.env s.pc) := by
      have swept : t.Swept t' := .step found waiting read more
      have leads : t.Leads t' := ⟨fun _ _ => swept.known, fun m => (swept.names m).mpr⟩
      exact leads.env_extends (fun m => (swept.names m).mp) s.pc
    exact ih.unput found waiting (Expression.eval_of_extends grown read)

/-- A table at rest completes every table on the way from where it started. -/
theorem Completes.of_swept {t u rest : SymbolTable} (h : t.Completes rest) (done : rest.AtRest)
    (swept : t.Swept u) : u.Completes rest := by
  induction swept with
  | refl => exact h
  | @step t u s word found waiting read more ih =>
    apply ih
    have read' := h.eval_ok read
    -- At rest the symbol cannot be waiting, since its expression has a value.
    have own : rest.find? s.name = some { s with value := .known word } := by
      rcases h.filled s.name s found waiting with same | ⟨word', filled, again⟩
      · exact absurd read' ((done s.name s same waiting).1 word)
      · rw [read'] at again
        cases again
        exact filled
    refine ⟨?_, ?_, ?_⟩
    · intro name absent
      rw [find?_put] at absent
      split at absent
      · cases absent
      · exact h.absent name absent
    · intro name e here known
      rw [find?_put] at here
      split at here
      · next same =>
        cases here
        rw [← same]
        exact own
      · exact h.untouched name e here known
    · intro name e here waits
      rw [find?_put] at here
      split at here
      · cases here
        cases waits
      · exact h.filled name e here waits

/-- All sweeps of a table that come to rest come to the same table. -/
theorem Swept.unique {t u v : SymbolTable} (ordered : t.Ordered) (hu : t.Swept u) (hv : t.Swept v)
    (restU : u.AtRest) (restV : v.AtRest) : u = v := by
  have uv := hv.completes.of_swept restV hu
  have vu := hu.completes.of_swept restU hv
  apply (hu.ordered ordered).ext (hv.ordered ordered)
  intro name
  cases found : u.find? name with
  | none => exact (uv.absent name found).symm
  | some s =>
    by_cases waiting : s.value = .unresolved
    · rcases uv.filled name s found waiting with same | ⟨word, filled, _⟩
      · exact same.symm
      · have back := vu.untouched name _ filled Value.noConfusion
        rw [found] at back
        rw [Option.some.inj back] at waiting
        cases waiting
    · exact (uv.untouched name s found waiting).symm

theorem Refuses.not_atRest {t v : SymbolTable} {cause : Fault} (refuses : t.Refuses cause)
    (swept : t.Swept v) : ¬v.AtRest := by
  intro rest
  obtain ⟨u, s, towards, found, waiting, fault⟩ := refuses
  have completes := swept.completes.of_swept rest towards
  have fault' := completes.eval_fault fault
  rcases completes.filled s.name s found waiting with same | ⟨word, _, read⟩
  · exact (rest s.name s same waiting).2 cause fault'
  · rw [fault'] at read
    cases read

theorem Ordered.unresolvedCount_put {t : SymbolTable} {s : Symbol} (word : UInt32)
    (ordered : t.Ordered) (found : t.find? s.name = some s) (waiting : s.value = .unresolved) :
    (t.put { s with value := .known word }).unresolvedCount + 1 = t.unresolvedCount := by
  have ordered' : (t.put { s with value := .known word }).Ordered := pairwise_place _ ordered
  have finite : {name | t.lookup name = some .unresolved}.Finite := by
    apply (List.finite_toSet t.unresolvedNames).subset
    intro name waits
    exact ordered.mem_unresolvedNames.mpr waits
  have removed : {name | (t.put { s with value := .known word }).lookup name = some .unresolved} =
      {name | t.lookup name = some .unresolved} \ {s.name} := by
    ext name
    simp only [lookup_put, Set.mem_sdiff, Set.mem_ofPred_eq, Set.mem_singleton_iff]
    by_cases same : s.name = name
    · simp [same]
    · simp [same, Ne.symm same]
  rw [ordered'.unresolvedCount_eq, ordered.unresolvedCount_eq, removed]
  apply Set.ncard_sdiff_singleton_add_one _ finite
  simp [lookup, found, waiting]

end SymbolTable

namespace Work

/-- A round that is not refused leaves as many names less as it counts. If it counts none, it has
changed nothing and every name it visited waits. -/
theorem sweepRound_counts {round advanced n : Nat} {names : List Text} {w w' : Work}
    (ordered : w.symbols.Ordered) (h : sweepRound round names advanced w = (.ok n, w')) :
    advanced ≤ n ∧ w'.symbols.unresolvedCount + n = w.symbols.unresolvedCount + advanced ∧
      (n = advanced → w'.symbols = w.symbols ∧ ∀ name ∈ names, ∀ s,
        w.symbols.find? name = some s → s.value = .unresolved → w.symbols.Waits s) := by
  induction names generalizing advanced w with
  | nil =>
    cases h
    exact ⟨Nat.le_refl _, rfl, fun _ => ⟨rfl, by simp⟩⟩
  | cons name rest ih =>
    rw [sweepRound] at h
    split at h
    · cases h
    · next w₁ tried =>
      cases retry_tried tried with
      | @advanced s word found waiting _ resolved =>
        have fewer := ordered.unresolvedCount_put word found waiting
        rw [← resolved] at fewer
        have ordered₁ : w₁.symbols.Ordered := by
          rw [resolved]
          exact SymbolTable.pairwise_place _ ordered
        obtain ⟨more, count, _⟩ := ih (w := w₁.report (.resolved name round)) ordered₁ h
        have count : w'.symbols.unresolvedCount + n = w₁.symbols.unresolvedCount + (advanced + 1) :=
          count
        refine ⟨by omega, by omega, fun same => ?_⟩
        omega
      | idle unresolved => exact absurd rfl unresolved
    · next attempt w₁ refused advanced' tried =>
      cases retry_tried tried with
      | advanced => exact (advanced' rfl).elim
      | refused => exact (refused _ rfl).elim
      | idle _ _ waits same =>
        rw [← same] at ordered
        obtain ⟨more, count, still⟩ := ih ordered h
        rw [same] at count still
        refine ⟨more, count, fun none => ⟨(still none).1, ?_⟩⟩
        intro m mem
        rcases List.mem_cons.mp mem with rfl | later
        · exact waits
        · exact (still none).2 m later

/-- A sweep that visits the unresolved names of each round in the order that `order` gives them. -/
def sweepIn (order : Nat → List Text → List Text) : Nat → Nat → Work → Option Fault × Work
  | 0, _, w => (none, w)
  | left + 1, round, w =>
    if w.symbols.unresolvedCount = 0 then (none, w)
    else
      match sweepRound round (order round w.symbols.unresolvedNames) 0 w with
      | (.error cause, w) => (some cause, w)
      | (.ok advanced, w) =>
        let w := w.report (.sweepRound round advanced w.symbols.unresolvedCount)
        if advanced = 0 then (none, w) else sweepIn order left (round + 1) w

def sorted (_ : Nat) (names : List Text) : List Text := names

theorem sweep_eq_sweepIn (left round : Nat) (w : Work) :
    sweep left round w = sweepIn sorted left round w := by
  induction left generalizing round w with
  | zero => rfl
  | succ left ih =>
    have same : sweep left = sweepIn sorted left := funext fun round => funext (ih round)
    rw [sweep, same]
    rfl

def Arranges (order : Nat → List Text → List Text) : Prop :=
  ∀ round names, (order round names).Perm names

theorem atRest_of_unresolvedCount {t : SymbolTable} (none : t.unresolvedCount = 0) :
    t.AtRest := by
  intro name s found waiting
  have mem : s ∈ t.entries := List.mem_of_find?_eq_some found
  obtain ⟨word, known⟩ := SymbolTable.known_of_unresolvedCount none mem
  rw [waiting] at known
  cases known

/-- With a round for every unresolved name, a sweep meets a fault or comes to rest. -/
theorem sweepIn_cases {order : Nat → List Text → List Text} (arranges : Arranges order)
    (round : Nat) {left : Nat} {w : Work} (ordered : w.symbols.Ordered)
    (enough : w.symbols.unresolvedCount ≤ left) :
    (∃ cause, (sweepIn order left round w).1 = some cause ∧ w.symbols.Refuses cause) ∨
    (sweepIn order left round w).1 = none ∧
      w.symbols.Swept (sweepIn order left round w).2.symbols ∧
      (sweepIn order left round w).2.symbols.AtRest := by
  induction left generalizing round w with
  | zero => exact Or.inr ⟨rfl, .refl _, atRest_of_unresolvedCount (Nat.le_zero.mp enough)⟩
  | succ left ih =>
    rw [sweepIn]
    split
    · next none => exact Or.inr ⟨rfl, .refl _, atRest_of_unresolvedCount none⟩
    · have swept := (sweepRound_retried round (order round w.symbols.unresolvedNames) 0 w).swept
      split
      · next cause w₁ refused => exact Or.inl ⟨cause, rfl, sweepRound_refused refused⟩
      · next advanced w₁ done =>
        rw [done] at swept
        obtain ⟨_, count, still⟩ := sweepRound_counts ordered done
        dsimp only
        split
        · next none =>
          obtain ⟨same, waits⟩ := still none
          refine Or.inr ⟨rfl, swept, ?_⟩
          intro name s found waiting
          rw [report, same] at found ⊢
          have unresolved : w.symbols.lookup name = some .unresolved := by
            rw [SymbolTable.lookup, found, Option.map_some, waiting]
          have mem := ordered.mem_unresolvedNames.mpr unresolved
          exact waits name ((arranges round _).mem_iff.mpr mem) s found waiting
        · next progress =>
          have rest := ih (round + 1)
            (w := w₁.report (.sweepRound round advanced w₁.symbols.unresolvedCount))
            (swept.ordered ordered) (show w₁.symbols.unresolvedCount ≤ left by omega)
          rcases rest with ⟨cause, refused, refuses⟩ | ⟨done, onward, atRest⟩
          · exact Or.inl ⟨cause, refused, swept.refuses refuses⟩
          · exact Or.inr ⟨done, swept.trans onward, atRest⟩

/-- The order of the names has no say in what a sweep comes to. Either it meets a fault in every
order, or every order comes to the same table, in which nothing more can be resolved. -/
theorem sweep_order_irrelevant (calls : List SymbolTable.Call) (w : Work) (budget : Nat)
    (built : w.symbols = SymbolTable.after {} calls)
    (enough : w.symbols.unresolvedCount ≤ budget) :
    sweep budget 1 w = sweepIn sorted budget 1 w ∧
    ((∀ order, Arranges order → ∃ cause, (sweepIn order budget 1 w).1 = some cause ∧
        w.symbols.Refuses cause) ∨
      ∃ table, (∀ order, Arranges order → (sweepIn order budget 1 w).1 = none ∧
          (sweepIn order budget 1 w).2.symbols = table) ∧
        table.AtRest ∧ w.symbols.Completes table) := by
  have ordered : w.symbols.Ordered := by
    rw [built]
    exact SymbolTable.Ordered.after List.Pairwise.nil calls
  refine ⟨sweep_eq_sweepIn budget 1 w, ?_⟩
  have arranged : Arranges sorted := fun _ _ => List.Perm.refl _
  rcases sweepIn_cases arranged 1 ordered enough with
    ⟨_, _, refuses⟩ | ⟨_, swept, atRest⟩
  · left
    intro order arranges
    rcases sweepIn_cases arranges 1 ordered enough with refused | ⟨_, swept, atRest⟩
    · exact refused
    · exact absurd atRest (refuses.not_atRest swept)
  · right
    refine ⟨_, ?_, atRest, swept.completes⟩
    intro order arranges
    rcases sweepIn_cases arranges 1 ordered enough with
      ⟨_, _, refuses⟩ | ⟨done, swept', atRest'⟩
    · exact absurd atRest (refuses.not_atRest swept)
    · exact ⟨done, swept'.unique ordered swept atRest' atRest⟩

/-- A chain that takes two rounds forwards and one backwards, and a symbol that has to wait. -/
def chainCalls : List SymbolTable.Call :=
  [.define ⟨['a'], .unresolved, "b + 1".toList, none⟩ true,
    .define ⟨['b'], .unresolved, "c * $".toList, some 2⟩ true,
    .define ⟨['d'], .unresolved, "a + e".toList, none⟩ true,
    .define ⟨['c'], .known 3, ['3'], none⟩ true]

def chainWork : Work :=
  { image := Image.new 0 1 0, symbols := SymbolTable.after {} chainCalls }

theorem sweep_order_irrelevant_chain :
    chainWork.symbols.unresolvedCount ≤ 3 ∧ ∃ table,
      (∀ order, Arranges order → (sweepIn order 3 1 chainWork).1 = none ∧
        (sweepIn order 3 1 chainWork).2.symbols = table) ∧
      table.lookup ['a'] = some (.known 7) ∧ table.lookup ['d'] = some .unresolved := by
  have enough : chainWork.symbols.unresolvedCount ≤ 3 := by decide
  have forwards : (sweepIn sorted 3 1 chainWork).1 = none ∧
      (sweepIn sorted 3 1 chainWork).2.symbols.lookup ['a'] = some (.known 7) ∧
      (sweepIn sorted 3 1 chainWork).2.symbols.lookup ['d'] = some .unresolved := by decide +kernel
  have arranged : Arranges sorted := fun _ _ => List.Perm.refl _
  refine ⟨enough, ?_⟩
  rcases (sweep_order_irrelevant chainCalls chainWork 3 rfl enough).2 with
    refused | ⟨table, same, _⟩
  · obtain ⟨cause, failed, _⟩ := refused sorted arranged
    rw [forwards.1] at failed
    cases failed
  · refine ⟨table, same, ?_⟩
    rw [← (same sorted arranged).2]
    exact forwards.2

end Work

end Assembler65816
