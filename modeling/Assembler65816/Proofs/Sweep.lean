import Assembler65816.Proofs.Table

/-! # Retries and sweeps

A retry resolves a symbol, finds that its expression cannot be evaluated, or leaves the table alone.
A sweep is refused where one of its retries is, with the table as the retries before it left it.
-/
namespace Assembler65816

namespace SymbolTable

def Waits (t : SymbolTable) (s : Symbol) : Prop :=
  (∀ word, Expression.eval (t.env s.pc) s.expression ≠ .ok word) ∧
    ∀ cause, Expression.eval (t.env s.pc) s.expression ≠ .error (.fault cause)

inductive Tried (t : SymbolTable) (name : Text) (t' : SymbolTable) : Attempt → Prop where
  | advanced {s : Symbol} {word : UInt32} (found : t.find? s.name = some s)
      (waiting : s.value = .unresolved)
      (read : Expression.eval (t.env s.pc) s.expression = .ok word)
      (resolved : t' = t.put { s with value := .known word }) : Tried t name t' .advanced
  | refused {s : Symbol} {cause : Fault} (found : t.find? s.name = some s)
      (waiting : s.value = .unresolved)
      (fault : Expression.eval (t.env s.pc) s.expression = .error (.fault cause))
      (same : t' = t) : Tried t name t' (.refused cause)
  | idle {attempt : Attempt} (unresolved : attempt ≠ .advanced)
      (accepted : ∀ cause, attempt ≠ .refused cause)
      (waits : ∀ s, t.find? name = some s → s.value = .unresolved → t.Waits s)
      (same : t' = t) : Tried t name t' attempt

theorem retry_tried (t : SymbolTable) (name : Text) :
    t.Tried name (t.retry name).2 (t.retry name).1 := by
  unfold retry attempt
  cases found : t.find? name with
  | none =>
    refine .idle (by simp) (by simp) ?_ rfl
    intro s here
    rw [found] at here
    cases here
  | some s =>
    have only {P : Symbol → Prop} (here : P s) : ∀ s', t.find? name = some s' → P s' := by
      intro s' same
      rw [found] at same
      exact Option.some.inj same ▸ here
    have own : t.find? s.name = some s := by rw [find?_name found, found]
    dsimp only
    cases known : s.value.isKnown with
    | true =>
      refine .idle (by simp) (by simp) (only fun waiting => ?_) rfl
      rw [waiting] at known
      cases known
    | false =>
      have waiting := isKnown_eq_false.mp known
      simp only [Bool.false_eq_true, if_false]
      cases read : Expression.eval (t.env s.pc) s.expression with
      | ok word => exact .advanced own waiting read rfl
      | error obstacle =>
        cases obstacle with
        | fault cause => exact .refused own waiting read rfl
        | missing on =>
          exact .idle (by simp) (by simp) (only fun _ => ⟨by simp [read], by simp [read]⟩) rfl
        | pending =>
          exact .idle (by simp) (by simp) (only fun _ => ⟨by simp [read], by simp [read]⟩) rfl

def Refuses (t : SymbolTable) (cause : Fault) : Prop :=
  ∃ u s, t.Swept u ∧ u.find? s.name = some s ∧ s.value = .unresolved ∧
    Expression.eval (u.env s.pc) s.expression = .error (.fault cause)

theorem Swept.refuses {t u : SymbolTable} {cause : Fault} (h : t.Swept u)
    (refuses : u.Refuses cause) : t.Refuses cause := by
  obtain ⟨v, s, swept, found⟩ := refuses
  exact ⟨v, s, h.trans swept, found⟩

end SymbolTable

namespace Work

theorem retry_tried {w w' : Work} {name : Text} {attempt : Attempt}
    (h : w.retry name = (attempt, w')) : w.symbols.Tried name w'.symbols attempt := by
  have tried := w.symbols.retry_tried name
  unfold Work.retry at h
  split at h
  · next eq =>
    rw [eq] at tried
    cases h
    exact tried
  · next eq =>
    rw [eq] at tried
    cases h
    exact tried

theorem sweepRound_refused {round advanced : Nat} {names : List Text} {w w' : Work} {cause : Fault}
    (h : sweepRound round names advanced w = (.error cause, w')) : w.symbols.Refuses cause := by
  induction names generalizing advanced w with
  | nil => cases h
  | cons name rest ih =>
    have first := (w.retry_retried name).swept
    rw [sweepRound] at h
    split at h
    · next tried =>
      cases h
      cases retry_tried tried with
      | refused found waiting fault => exact ⟨w.symbols, _, .refl _, found, waiting, fault⟩
      | idle _ accepted _ => exact absurd rfl (accepted cause)
    · next w₁ tried =>
      rw [tried] at first
      exact first.refuses (ih (w := w₁.report (.resolved name round)) h)
    · next tried =>
      rw [tried] at first
      exact first.refuses (ih h)

theorem sweep_refused {left round : Nat} {w w' : Work} {cause : Fault}
    (h : sweep left round w = (some cause, w')) : w.symbols.Refuses cause := by
  induction left generalizing round w with
  | zero => cases h
  | succ left ih =>
    rw [sweep] at h
    split at h
    · cases h
    · have first := (sweepRound_retried round w.symbols.unresolvedNames 0 w).swept
      split at h
      · next refused =>
        cases h
        exact sweepRound_refused refused
      · next advanced w₁ swept =>
        rw [swept] at first
        dsimp only at h
        split at h
        · cases h
        · exact first.refuses
            (ih (w := w₁.report (.sweepRound round advanced w₁.symbols.unresolvedCount)) h)

end Work

end Assembler65816
