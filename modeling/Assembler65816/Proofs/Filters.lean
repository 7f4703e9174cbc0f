import Assembler65816.Log.Filter
import Assembler65816.Proofs.Matching
import Mathlib.Data.List.Induction

/-! # What a log filter shows

The directives that are read from a text hold one for each target, which is the last one that the
text gives for it. A message is shown if it is grave enough for the directive that decides about its
target, and if the pattern matches a part of it.
-/
namespace Assembler65816.Log

namespace Directive

theorem find?_insert (new : Directive) (ds : List Directive) (target : Option Text) :
    (new.insert ds).find? (fun d => d.target = target) =
      if new.target = target then some new else ds.find? fun d => d.target = target := by
  fun_induction insert new ds with
  | case1 => by_cases h : new.target = target <;> simp [h]
  | case2 d more same => by_cases h : new.target = target <;> simp [h, same]
  | case3 d more other ih =>
    by_cases h : d.target = target
    · have apart : new.target ≠ target := fun same => other (h.trans same.symm)
      simp [h, apart]
    · simp [h, ih]

theorem mem_targets_insert {new : Directive} {ds : List Directive} {target : Option Text} :
    target ∈ (new.insert ds).map (·.target) ↔ target = new.target ∨ target ∈ ds.map (·.target) := by
  fun_induction insert new ds with
  | case1 => simp
  | case2 d more same => simp [same]
  | case3 d more other ih =>
    rw [List.map_cons, List.mem_cons, ih, List.map_cons, List.mem_cons]
    exact or_left_comm

theorem nodup_targets_insert {new : Directive} {ds : List Directive}
    (h : (ds.map (·.target)).Nodup) : ((new.insert ds).map (·.target)).Nodup := by
  fun_induction insert new ds with
  | case1 => simp
  | case2 d more same => simpa [same] using h
  | case3 d more other ih =>
    rw [List.map_cons, List.nodup_cons] at h ⊢
    exact ⟨fun mem => (mem_targets_insert.mp mem).elim other h.1, ih h.2⟩

/-- The directive that counts: none that applies as well has a longer target, and none behind it has
one that is as long. -/
def Decides (ds : List Directive) (target : Text) (d : Directive) : Prop :=
  ∃ earlier later, ds.filter (·.applies target) = earlier ++ d :: later ∧
    (∀ e ∈ earlier, e.targetLength ≤ d.targetLength) ∧
    ∀ e ∈ later, e.targetLength < d.targetLength

theorem foldl_stronger (ds : List Directive) (first : Directive) :
    ∃ earlier later, first :: ds = earlier ++ ds.foldl stronger first :: later ∧
      (∀ e ∈ earlier, e.targetLength ≤ (ds.foldl stronger first).targetLength) ∧
      ∀ e ∈ later, e.targetLength < (ds.foldl stronger first).targetLength := by
  induction ds generalizing first with
  | nil => exact ⟨[], [], rfl, by simp, by simp⟩
  | cons e ds ih =>
    rw [List.foldl_cons]
    by_cases longer : first.targetLength ≤ e.targetLength
    · rw [stronger, if_pos longer]
      obtain ⟨earlier, later, split, before, behind⟩ := ih e
      generalize ds.foldl stronger e = d at split before behind ⊢
      refine ⟨first :: earlier, later, by rw [split]; rfl, ?_, behind⟩
      have least : e.targetLength ≤ d.targetLength := by
        cases earlier with
        | nil => cases split; exact le_refl _
        | cons _ _ => cases split; exact before _ List.mem_cons_self
      simpa using ⟨longer.trans least, before⟩
    · rw [stronger, if_neg longer]
      obtain ⟨earlier, later, split, before, behind⟩ := ih first
      generalize ds.foldl stronger first = d at split before behind ⊢
      have shorter := Nat.lt_of_not_le longer
      cases earlier with
      | nil =>
        cases split
        exact ⟨[], e :: ds, rfl, by simp, by simpa using ⟨shorter, behind⟩⟩
      | cons _ more =>
        cases split
        have bound := before _ List.mem_cons_self
        refine ⟨first :: e :: more, later, rfl, ?_, behind⟩
        have others (e' : Directive) (mem : e' ∈ more) := before e' (List.mem_cons_of_mem _ mem)
        simpa using ⟨bound, shorter.le.trans bound, others⟩

theorem Decides.unique {ds : List Directive} {target : Text} {d d' : Directive}
    (h : Decides ds target d) (h' : Decides ds target d') : d = d' := by
  obtain ⟨earlier, later, split, before, behind⟩ := h
  obtain ⟨earlier', later', split', before', behind'⟩ := h'
  rw [split] at split'
  -- If one stood in front of the other, it would be both at most as long and longer.
  rcases List.append_eq_append_iff.mp split' with
    ⟨_ | ⟨e, between⟩, rfl, tail⟩ | ⟨_ | ⟨e, between⟩, rfl, tail⟩
  · exact (List.cons.inj tail).1
  · obtain ⟨rfl, rfl⟩ := List.cons.inj tail
    exact absurd (behind d' (by simp)) (Nat.not_lt.mpr (before' d (by simp)))
  · exact (List.cons.inj tail).1.symm
  · obtain ⟨rfl, rfl⟩ := List.cons.inj tail
    exact absurd (behind' d (by simp)) (Nat.not_lt.mpr (before d' (by simp)))

end Directive

namespace Filter

open Directive

theorem threshold_eq_some_iff (f : Filter) (target : Text) (level : Level) :
    f.threshold target = some level ↔
      ∃ d, Decides f.directivesOrDefault target d ∧ d.threshold = some level := by
  unfold threshold
  split
  · next none =>
    simp only [reduceCtorEq, false_iff]
    rintro ⟨d, ⟨earlier, later, split, -⟩, -⟩
    simp [none] at split
  · next first more found =>
    have decides : Decides f.directivesOrDefault target (more.foldl stronger first) := by
      obtain ⟨earlier, later, split, bounds⟩ := foldl_stronger more first
      exact ⟨earlier, later, found.trans split, bounds⟩
    constructor
    · intro h
      exact ⟨_, decides, h⟩
    · rintro ⟨d, h, level⟩
      rw [decides.unique h]
      exact level

/-- A message is shown exactly if the directive that decides about its target lets its level
through, and the pattern, if there is one, matches a part of it. -/
theorem shows_iff (f : Filter) (target : Text) (level : Level) (message : Text) :
    f.shows target level message = true ↔
      (∃ d least, Decides f.directivesOrDefault target d ∧ d.threshold = some least ∧
        least.rank ≤ level.rank) ∧
      ∀ r, f.pattern = some r →
        ∃ i j, i ≤ message.length ∧ r.Matches message.toArray i j := by
  have grave_iff :
      (f.threshold target).any (fun least => decide (least.rank ≤ level.rank)) = true ↔
        ∃ d least, Decides f.directivesOrDefault target d ∧ d.threshold = some least ∧
          least.rank ≤ level.rank := by
    rw [Option.any_eq_true]
    constructor
    · rintro ⟨least, found, grave⟩
      obtain ⟨d, decides, level⟩ := (threshold_eq_some_iff f target least).mp found
      exact ⟨d, least, decides, level, of_decide_eq_true grave⟩
    · rintro ⟨d, least, decides, level, grave⟩
      exact ⟨least, (threshold_eq_some_iff f target least).mpr ⟨d, decides, level⟩,
        decide_eq_true grave⟩
  rw [shows, Bool.and_eq_true, grave_iff, Option.all_eq_true]
  simp only [Regex.occursIn_iff]

/-- The parts of a text that are to be directives. -/
def parts (t : Text) : List Text := ((fields ',' t).map Text.trim).filter (!·.isEmpty)

/-- Of the directives that a text gives for a target the last one is in force, there is one for each
target, and what is wrong with the other parts is reported in order. -/
theorem readDirectives_spec (t : Text) :
    (∀ target, (readDirectives t).1.find? (fun d => d.target = target) =
      ((parts t).filterMap fun part => (Directive.read part).toOption).reverse.find?
        fun d => d.target = target) ∧
    ((readDirectives t).1.map (·.target)).Nodup ∧
    (readDirectives t).2 = (parts t).filterMap fun part =>
      match Directive.read part with
      | .ok _ => none
      | .error fault => some fault := by
  rw [show readDirectives t = (parts t).foldl addDirective ([], []) from rfl]
  induction parts t using List.reverseRecOn with
  | nil => simp
  | append_singleton before part ih =>
    obtain ⟨found, apart, faults⟩ := ih
    rw [List.foldl_append, List.foldl_cons, List.foldl_nil]
    generalize before.foldl addDirective ([], []) = so at found apart faults ⊢
    unfold addDirective
    cases read : Directive.read part with
    | ok directive =>
      refine ⟨fun target => ?_, nodup_targets_insert apart, ?_⟩
      · rw [find?_insert, found, List.filterMap_append, List.reverse_append]
        by_cases same : directive.target = target <;> simp [read, Except.toOption, same]
      · simp [faults, read]
    | error fault =>
      refine ⟨fun target => ?_, apart, ?_⟩
      · rw [found]
        simp [read, Except.toOption]
      · simp [faults, read]

end Filter

end Assembler65816.Log
