import Assembler65816.Regex.Basic
import Mathlib.Data.Nat.Bitwise

/-! # Matching

The search runs through an expression with a whole set of places at once. It finds the parts of a
text that match, and no others. A repetition is cut off after as many rounds as there are places,
which loses nothing: among so many rounds one does not move, and can be left out or made again.
-/
namespace Assembler65816

/-- Steps of a relation, one after the other. -/
def Steps (R : Nat → Nat → Prop) : Nat → Nat → Nat → Prop
  | 0, i, j => i = j
  | n + 1, i, k => ∃ j, R i j ∧ Steps R n j k

section Steps

variable {R : Nat → Nat → Prop} {last : Nat}

theorem steps_add {a b i k : Nat} :
    Steps R (a + b) i k ↔ ∃ j, Steps R a i j ∧ Steps R b j k := by
  induction a generalizing i with
  | zero => simp [Steps]
  | succ a ih =>
    rw [Nat.succ_add, Steps]
    constructor
    · rintro ⟨m, first, more⟩
      obtain ⟨j, before, after⟩ := ih.mp more
      exact ⟨j, ⟨m, first, before⟩, after⟩
    · rintro ⟨j, ⟨m, first, before⟩, after⟩
      exact ⟨m, first, ih.mpr ⟨j, before, after⟩⟩

/-- A relation that leads forwards, and not past the last place. -/
def Onward (R : Nat → Nat → Prop) (last : Nat) : Prop :=
  ∀ i j, i ≤ last → R i j → i ≤ j ∧ j ≤ last

variable (onward : Onward R last)

include onward

theorem Onward.steps (n : Nat) : Onward (Steps R n) last := by
  induction n with
  | zero =>
    rintro i j within rfl
    exact ⟨le_refl i, within⟩
  | succ n ih =>
    rintro i k within ⟨j, first, more⟩
    have move := onward i j within first
    have rest := ih j k move.2 more
    exact ⟨move.1.trans rest.1, rest.2⟩

/-- Among more steps than there are places ahead, one stays where it is. -/
theorem Onward.exists_stay {n i k : Nat} (within : i ≤ last) (many : last < n + i)
    (h : Steps R n i k) :
    ∃ a b j, n = a + 1 + b ∧ Steps R a i j ∧ R j j ∧ Steps R b j k := by
  induction n generalizing i with
  | zero => omega
  | succ n ih =>
    obtain ⟨j, first, more⟩ := h
    by_cases same : j = i
    · subst same
      exact ⟨0, n, j, by omega, rfl, first, more⟩
    · have move := onward i j within first
      obtain ⟨a, b, m, count, before, stay, after⟩ := ih move.2 (by omega) more
      exact ⟨a + 1, b, m, by omega, ⟨j, first, before⟩, stay, after⟩

theorem Onward.steps_succ_iff {n i k : Nat} (within : i ≤ last) (many : last < n) :
    Steps R (n + 1) i k ↔ Steps R n i k := by
  constructor
  · intro h
    obtain ⟨a, b, j, count, before, -, after⟩ := onward.exists_stay within (by omega) h
    obtain rfl : n = a + b := by omega
    exact steps_add.mpr ⟨j, before, after⟩
  · intro h
    obtain ⟨a, b, j, rfl, before, stay, after⟩ := onward.exists_stay within (by omega) h
    have again : Steps R (b + 1 + 1) j k := ⟨j, stay, j, stay, after⟩
    rw [show a + 1 + b + 1 = a + (b + 1 + 1) by omega]
    exact steps_add.mpr ⟨j, before, again⟩

/-- More steps than places are as good as one more than the last place. -/
theorem Onward.steps_min {n i k : Nat} (within : i ≤ last) :
    Steps R (min n (last + 1)) i k ↔ Steps R n i k := by
  induction n with
  | zero => simp
  | succ n ih =>
    by_cases few : n + 1 ≤ last + 1
    · rw [min_eq_left few]
    · have many : last + 1 ≤ n := by omega
      rw [min_eq_right many] at ih
      rw [min_eq_right (by omega : last + 1 ≤ n + 1), onward.steps_succ_iff within many]
      exact ih

end Steps

namespace Places

theorem testBit_add_shiftLeft {places n : Nat} (small : places < 2 ^ n) (i : Nat) :
    (places + 1 <<< n).testBit i = (decide (i = n) || places.testBit i) := by
  rw [Nat.one_shiftLeft, Nat.add_comm]
  rcases Nat.lt_trichotomy i n with below | rfl | above
  · rw [Nat.testBit_two_pow_add_gt below]
    simp [below.ne]
  · rw [Nat.testBit_two_pow_add_eq, Nat.testBit_lt_two_pow small]
    simp
  · have power : 2 ^ (n + 1) ≤ 2 ^ i := Nat.pow_le_pow_right (by decide) above
    rw [Nat.testBit_lt_two_pow (by omega : 2 ^ n + places < 2 ^ i),
      Nat.testBit_lt_two_pow (by omega : places < 2 ^ i)]
    simp [above.ne']

theorem testBit_upTo (last : Nat) (test : Nat → Bool) (i : Nat) :
    (upTo last test).testBit i = (decide (i ≤ last) && test i) := by
  have marked (n : Nat) :
      let places := (List.range n).foldl
        (fun places i => if test i then places + 1 <<< i else places) 0
      places < 2 ^ n ∧ ∀ i, places.testBit i = (decide (i < n) && test i) := by
    induction n with
    | zero => simp
    | succ n ih =>
      obtain ⟨small, bits⟩ := ih
      rw [List.range_succ, List.foldl_append]
      generalize List.foldl _ 0 (List.range n) = places at small bits ⊢
      simp only [List.foldl_cons, List.foldl_nil]
      have power : 2 ^ (n + 1) = 2 ^ n + 2 ^ n := by omega
      cases marks : test n with
      | true =>
        refine ⟨by simp only [if_true, Nat.one_shiftLeft]; omega, fun i => ?_⟩
        rw [if_pos rfl, testBit_add_shiftLeft small, bits]
        by_cases same : i = n
        · simp [same, marks]
        · simp [same, show i < n + 1 ↔ i < n by omega]
      | false =>
        refine ⟨by simp only [Bool.false_eq_true, if_false]; omega, fun i => ?_⟩
        rw [if_neg Bool.false_ne_true, bits]
        by_cases same : i = n
        · simp [same, marks]
        · simp [show i < n + 1 ↔ i < n by omega]
  rw [upTo, (marked (last + 1)).2]
  simp only [Nat.lt_succ_iff]

/-- A step on sets of places does what a relation does place by place. -/
def Follows (step : Places → Places) (R : Nat → Nat → Prop) (last : Nat) : Prop :=
  ∀ places : Places, (∀ i, places.testBit i = true → i ≤ last) →
    ∀ j, (step places).testBit j = true ↔ ∃ i, places.testBit i = true ∧ R i j

section Rounds

variable {step : Places → Places} {R : Nat → Nat → Prop} {last : Nat} {places : Places}
  (follows : Follows step R last)

include follows

/-- Places from which no step leads to new ones are never left. -/
theorem Follows.stays (within : ∀ i, places.testBit i = true → i ≤ last)
    (closed : places ||| step places = places) {n i j : Nat} (start : places.testBit i = true)
    (h : Steps R n i j) : places.testBit j = true := by
  induction n generalizing i with
  | zero =>
    obtain rfl : i = j := h
    exact start
  | succ n ih =>
    obtain ⟨m, first, more⟩ := h
    have reached : (step places).testBit m = true := (follows places within m).mpr ⟨i, start, first⟩
    refine ih ?_ more
    rw [← closed, Nat.testBit_or, reached, Bool.or_true]

variable (onward : Onward R last)

include onward

theorem Follows.within (within : ∀ i, places.testBit i = true → i ≤ last) (j : Nat)
    (h : (step places).testBit j = true) : j ≤ last := by
  obtain ⟨i, start, move⟩ := (follows places within j).mp h
  exact (onward i j (within i start) move).2

theorem Follows.iterate (n : Nat) : Follows (Places.iterate step n) (Steps R n) last := by
  induction n with
  | zero =>
    intro places _ j
    simp [Places.iterate, Steps]
  | succ n ih =>
    intro places within j
    rw [Places.iterate, ih _ (follows.within onward within)]
    simp only [follows places within, Steps]
    constructor
    · rintro ⟨m, ⟨i, start, first⟩, more⟩
      exact ⟨i, start, m, first, more⟩
    · rintro ⟨i, start, m, first, more⟩
      exact ⟨m, ⟨i, start, first⟩, more⟩

theorem Follows.closure (n : Nat) :
    Follows (Places.closure step n) (fun i j => ∃ rounds ≤ n, Steps R rounds i j) last := by
  induction n with
  | zero =>
    intro places _ j
    simp [Places.closure, Steps]
  | succ n ih =>
    intro places within j
    have more_iff (m : Nat) : (places ||| step places).testBit m = true ↔
        places.testBit m = true ∨ ∃ i, places.testBit i = true ∧ R i m := by
      rw [Nat.testBit_or, Bool.or_eq_true, follows places within]
    rw [Places.closure]
    split
    · next closed =>
      constructor
      · intro here
        exact ⟨j, here, 0, Nat.zero_le _, rfl⟩
      · rintro ⟨i, start, rounds, -, h⟩
        exact follows.stays within closed start h
    · have inside (m : Nat) (h : (places ||| step places).testBit m = true) : m ≤ last := by
        rcases (more_iff m).mp h with here | ⟨i, start, move⟩
        · exact within m here
        · exact (onward i m (within i start) move).2
      rw [ih _ inside]
      constructor
      · rintro ⟨m, reached, rounds, few, more⟩
        rcases (more_iff m).mp reached with here | ⟨i, start, first⟩
        · exact ⟨m, here, rounds, by omega, more⟩
        · exact ⟨i, start, rounds + 1, by omega, m, first, more⟩
      · rintro ⟨i, start, rounds | rounds, few, h⟩
        · exact ⟨i, (more_iff i).mpr (.inl start), 0, Nat.zero_le _, h⟩
        · obtain ⟨m, first, more⟩ := h
          exact ⟨m, (more_iff m).mpr (.inr ⟨i, start, first⟩), rounds, by omega, more⟩

end Rounds

end Places

namespace Regex

/-- The part of a text from place `i` to place `j` matches an expression. -/
def Matches (text : Array Char) : Regex → Nat → Nat → Prop
  | empty, i, j => i = j
  | one set, i, j => text[i]?.any set = true ∧ j = i + 1
  | look condition, i, j =>
    condition.holds (if i = 0 then none else text[i - 1]?) text[i]? = true ∧ j = i
  | seq first second, i, k => ∃ j, first.Matches text i j ∧ second.Matches text j k
  | alt first second, i, j => first.Matches text i j ∨ second.Matches text i j
  | repeated body least most, i, j => ∃ rounds, least ≤ rounds ∧
    (∀ bound ∈ most, rounds ≤ max least bound) ∧ Steps (body.Matches text) rounds i j

theorem onward_matches (text : Array Char) (r : Regex) : Onward (r.Matches text) text.size := by
  induction r with
  | empty =>
    rintro i j within rfl
    exact ⟨le_refl i, within⟩
  | one set =>
    rintro i j _ ⟨found, rfl⟩
    cases read : text[i]? with
    | none => simp [read] at found
    | some c =>
      have inside := (Array.getElem?_eq_some_iff.mp read).1
      omega
  | look condition =>
    rintro i j within ⟨-, rfl⟩
    exact ⟨le_refl j, within⟩
  | seq first second ih ih' =>
    rintro i k within ⟨j, front, back⟩
    have move := ih i j within front
    have rest := ih' j k move.2 back
    exact ⟨move.1.trans rest.1, rest.2⟩
  | alt first second ih ih' =>
    rintro i j within (h | h)
    · exact ih i j within h
    · exact ih' i j within h
  | repeated body least most ih =>
    rintro i j within ⟨rounds, -, -, h⟩
    exact ih.steps rounds i j within h

/-- The rounds that are run for a repetition reach what all its rounds reach. -/
theorem steps_repeated {R : Nat → Nat → Prop} {last i j : Nat} (onward : Onward R last)
    (within : i ≤ last) (least : Nat) (most : Option Nat) :
    (∃ m, Steps R (min least (last + 1)) i m ∧
      ∃ rounds ≤ most.elim (last + 1) fun bound => min (bound - least) (last + 1),
        Steps R rounds m j) ↔
    ∃ rounds, least ≤ rounds ∧ (∀ bound ∈ most, rounds ≤ max least bound) ∧
      Steps R rounds i j := by
  simp only [onward.steps_min within]
  constructor
  · rintro ⟨m, first, rounds, few, more⟩
    refine ⟨least + rounds, Nat.le_add_right _ _, ?_, steps_add.mpr ⟨m, first, more⟩⟩
    rintro bound rfl
    have few : rounds ≤ min (bound - least) (last + 1) := few
    omega
  · rintro ⟨rounds, enough, few, h⟩
    obtain ⟨rest, rfl⟩ := Nat.exists_eq_add_of_le enough
    obtain ⟨m, first, more⟩ := steps_add.mp h
    have inside := (onward.steps least i m within first).2
    refine ⟨m, first, min rest (last + 1), ?_, (onward.steps_min inside).mpr more⟩
    cases most with
    | none => exact min_le_right _ _
    | some bound =>
      have few := few bound rfl
      change min rest (last + 1) ≤ min (bound - least) (last + 1)
      omega

/-- An expression leads a set of places to just the places where its matches from there end. -/
theorem follows_flow (text : Array Char) (r : Regex) :
    Places.Follows (r.flow text) (r.Matches text) text.size := by
  induction r with
  | empty =>
    intro places _ j
    simp [flow, Matches]
  | one set =>
    intro places within j
    rw [flow, Nat.testBit_shiftLeft]
    cases j with
    | zero => simp [Matches]
    | succ j =>
      simp only [Nat.add_one_sub_one, Nat.testBit_and, Places.testBit_upTo, Matches,
        Bool.and_eq_true, decide_eq_true_eq, Nat.add_right_cancel_iff]
      constructor
      · rintro ⟨-, start, -, found⟩
        exact ⟨j, start, found, rfl⟩
      · rintro ⟨i, start, found, rfl⟩
        exact ⟨Nat.le_add_left _ _, start, within j start, found⟩
  | look condition =>
    intro places within j
    rw [flow, Nat.testBit_and, Places.testBit_upTo]
    simp only [Matches, Bool.and_eq_true, decide_eq_true_eq]
    constructor
    · rintro ⟨start, -, holds⟩
      exact ⟨j, start, holds, rfl⟩
    · rintro ⟨i, start, holds, rfl⟩
      exact ⟨start, within j start, holds⟩
  | seq first second ih ih' =>
    intro places within j
    rw [flow, ih' _ (ih.within (onward_matches text first) within)]
    simp only [ih places within, Matches]
    constructor
    · rintro ⟨m, ⟨i, start, front⟩, back⟩
      exact ⟨i, start, m, front, back⟩
    · rintro ⟨i, start, m, front, back⟩
      exact ⟨m, ⟨i, start, front⟩, back⟩
  | alt first second ih ih' =>
    intro places within j
    rw [flow, Nat.testBit_or, Bool.or_eq_true, ih places within, ih' places within]
    simp only [Matches, and_or_left, exists_or]
  | repeated body least most ih =>
    intro places within j
    have onward := onward_matches text body
    have first := ih.iterate onward (min least (text.size + 1))
    have inside := first.within (onward.steps _) within
    have rest := ih.closure onward (most.elim (text.size + 1) fun bound =>
      min (bound - least) (text.size + 1)) _ inside j
    rw [flow]
    refine rest.trans ?_
    simp only [first places within, Matches]
    constructor
    · rintro ⟨m, ⟨i, start, front⟩, back⟩
      exact ⟨i, start, (steps_repeated onward (within i start) least most).mp ⟨m, front, back⟩⟩
    · rintro ⟨i, start, h⟩
      obtain ⟨m, front, back⟩ := (steps_repeated onward (within i start) least most).mpr h
      exact ⟨m, ⟨i, start, front⟩, back⟩

/-- The search succeeds exactly where some part of the text matches. -/
theorem occursIn_iff (r : Regex) (text : Text) :
    r.occursIn text = true ↔ ∃ i j, i ≤ text.length ∧ r.Matches text.toArray i j := by
  have everywhere (i : Nat) :
      (Places.upTo text.length fun _ => true).testBit i = true ↔ i ≤ text.length := by
    simp [Places.testBit_upTo]
  have ends := follows_flow text.toArray r (Places.upTo text.length fun _ => true)
    fun i start => by simpa using (everywhere i).mp start
  simp only [everywhere] at ends
  rw [occursIn, bne_iff_ne]
  constructor
  · intro marked
    obtain ⟨j, here⟩ := Nat.exists_testBit_of_ne_zero marked
    obtain ⟨i, h⟩ := (ends j).mp here
    exact ⟨i, j, h⟩
  · rintro ⟨i, j, h⟩ unmarked
    have here := (ends j).mpr ⟨i, h⟩
    rw [unmarked, Nat.zero_testBit] at here
    cases here

end Regex

end Assembler65816
