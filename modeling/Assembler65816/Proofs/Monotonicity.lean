import Assembler65816.Proofs.Pass
import Assembler65816.Proofs.Signals

/-! # Evaluation under growing tables

A table grows when names are added and unresolved symbols get values. A value or a fault found under
the smaller table is found again under the larger one; an evaluation that waited may come to
anything, but only once the symbol that stopped it has changed. The names that are added have to be
symbol names. A table can hold any text as a name, and a text that is a name as a whole is not read
any further.
-/
namespace Assembler65816

/-- All that `t` knows is in `t'`, and the names that are new in `t'` are of the given sort. -/
structure SymbolTable.Grows (sort : Text → Prop) (t t' : SymbolTable) : Prop where
  present : ∀ name, t.lookup name ≠ none → t'.lookup name ≠ none
  known : ∀ name word, t.lookup name = some (.known word) → t'.lookup name = some (.known word)
  added : ∀ name, t.lookup name = none → t'.lookup name ≠ none → sort name

theorem SymbolTable.Grows.env_extends {t t' : SymbolTable}
    (h : t.Grows (fun name => isSymbolName name = true) t') (address : Option UInt32) :
    (t.env address).Extends (t'.env address) := by
  constructor
  · rfl
  · exact h.known
  · exact h.present
  · intro name absent
    by_cases added : t'.lookup name = none
    · exact Or.inl added
    · exact Or.inr (h.added name absent added)

namespace Expression

/-- What is found under a table is found under every table that it grows into, the same value or the
same fault. Where nothing is found, that stays so until the symbol that is waited for changes. -/
theorem eval_under_growth {t t' : SymbolTable}
    (grows : t.Grows (fun name => isSymbolName name = true) t') (address : Option UInt32)
    (text : Text) :
    (∀ word, eval (t.env address) text = .ok word → eval (t'.env address) text = .ok word) ∧
    (∀ cause, eval (t.env address) text = .error (.fault cause) →
      eval (t'.env address) text = .error (.fault cause)) ∧
    (eval (t'.env address) text ≠ eval (t.env address) text →
      ∃ name, (t.lookup name = none ∨ t.lookup name = some .unresolved) ∧
        t'.lookup name ≠ t.lookup name ∧ StopsAt (t.env address) .chain text name) := by
  have larger := grows.env_extends address
  have answer := (eval_advances (t.env address) text).answer
  rcases found : eval (t.env address) text with (cause | name | _) | word
  · rw [found] at answer
    have again := answer.2 _ larger
    refine ⟨nofun, ?_, fun differ => absurd again differ⟩
    rintro _ ⟨⟩
    exact again
  · obtain ⟨_, absent, stops⟩ := stopsAt_of_missing
      (show evalForm (t.env address) .chain text = _ from found)
    refine ⟨nofun, nofun, fun differ => ⟨name, Or.inl absent, fun same => differ ?_, stops⟩⟩
    exact (stops.stays _ larger same).trans found
  · obtain ⟨name, waits, stops⟩ := stopsAt_of_pending
      (show evalForm (t.env address) .chain text = _ from found)
    refine ⟨nofun, nofun, fun differ => ⟨name, Or.inr waits, fun same => differ ?_, stops⟩⟩
    exact (stops.stays _ larger same).trans found
  · rw [found] at answer
    have again := answer _ larger
    refine ⟨?_, nofun, fun differ => absurd again differ⟩
    rintro _ ⟨⟩
    exact again

/-- Tables that differ in one name: `a` and `b` are known in both. -/
def pairTable : SymbolTable := ⟨[⟨['a'], .known 1, [], none⟩, ⟨['b'], .known 2, [], none⟩]⟩

def pairTableWith (name : Text) : SymbolTable := pairTable.put ⟨name, .known 9, [], none⟩

theorem pairTable_grows {name : Text} (absent : pairTable.lookup name = none) {sort : Text → Prop}
    (named : sort name) : pairTable.Grows sort (pairTableWith name) := by
  have other {m : Text} (present : pairTable.lookup m ≠ none) :
      (pairTableWith name).lookup m = pairTable.lookup m := by
    rw [pairTableWith, SymbolTable.lookup_put, if_neg]
    rintro rfl
    exact present absent
  constructor
  · intro m present
    rwa [other present]
  · intro m word known
    rwa [other (by rw [known]; simp)]
  · intro m fresh added
    by_cases same : name = m
    · rwa [← same]
    · rw [pairTableWith, SymbolTable.lookup_put, if_neg same] at added
      exact absurd fresh added

/-- A value, a fault and an answer that changes, under a table that grows by the name `c`. -/
theorem eval_under_growth_pair :
    pairTable.Grows (fun name => isSymbolName name = true) (pairTableWith ['c']) ∧
    eval ((pairTableWith ['c']).env none) "(a + b) << a".toList = .ok 6 ∧
    eval ((pairTableWith ['c']).env none) "b / (a - 1) + c".toList =
      .error (.fault .divisionByZero) ∧
    eval (pairTable.env none) "a + c".toList = .error (.missing ['c']) ∧
    eval ((pairTableWith ['c']).env none) "a + c".toList = .ok 10 := by
  have grows : pairTable.Grows (fun name => isSymbolName name = true) (pairTableWith ['c']) :=
    pairTable_grows (by decide) (by decide)
  refine ⟨grows, ?_, ?_, by decide +kernel, by decide +kernel⟩
  · exact (eval_under_growth grows none _).1 6 (by decide +kernel)
  · exact (eval_under_growth grows none _).2.1 .divisionByZero (by decide +kernel)

/-- It is not enough that new names start with a letter or an underscore: when `a+b` itself becomes
a name, it is no longer read as a sum. -/
theorem eval_under_growth_by_sum :
    pairTable.Grows (fun name => name.head?.any isNameStart = true) (pairTableWith "a+b".toList) ∧
    eval (pairTable.env none) "a+b".toList = .ok 3 ∧
    eval ((pairTableWith "a+b".toList).env none) "a+b".toList = .ok 9 := by
  refine ⟨pairTable_grows (by decide) (by decide), by decide +kernel, by decide +kernel⟩

end Expression

end Assembler65816
