import Assembler65816.Proofs.ByteOperands
import Assembler65816.Proofs.Knowledge
import Mathlib

/-! # Written operands

Every shape of an address has a standard form: the expression, with what opens the shape before it
and the ending of the shape behind it. Letters of the ending are written in either case, and blanks
may follow each of its characters. An operand is classified as a shape exactly if it is the form of
that shape around an expression, and no form that is tried before fits as well.
-/
namespace Assembler65816

namespace Text

def Blank (t : Text) : Prop := ∀ c ∈ t, isBlank c = true

structure Trimmed (t : Text) : Prop where
  head : ∀ c ∈ t.head?, isBlank c = false
  last : ∀ c ∈ t.getLast?, isBlank c = false

variable {t before after : Text}

theorem Blank.append (hb : before.Blank) (ha : after.Blank) : (before ++ after).Blank := by
  intro c mem
  rcases List.mem_append.mp mem with mem | mem
  · exact hb c mem
  · exact ha c mem

theorem Blank.of_ascii (h : ∀ c ∈ t, isAsciiBlank c = true) : t.Blank :=
  fun c mem => isBlank_of_isAsciiBlank (h c mem)

theorem dropWhile_of_blank (h : before.Blank) : before.dropWhile isBlank = [] :=
  List.dropWhile_eq_nil_iff.mpr h

theorem dropWhile_append_blank (h : before.Blank) (t : Text) :
    (before ++ t).dropWhile isBlank = t.dropWhile isBlank := by
  rw [List.dropWhile_append, dropWhile_of_blank h]
  rfl

theorem head?_dropWhile_blank (t : Text) :
    ∀ c ∈ (t.dropWhile isBlank).head?, isBlank c = false := by
  intro c mem
  have first := List.head?_dropWhile_not isBlank t
  rw [Option.mem_def.mp mem] at first
  exact first

theorem Trimmed.append {s : Text} (head : ∀ c ∈ s.head?, isBlank c = false) (nonempty : t ≠ [])
    (trimmed : t.Trimmed) : Trimmed (s ++ t) := by
  constructor
  · intro c mem
    cases s with
    | nil => exact trimmed.head c mem
    | cons d s => exact head c mem
  · intro c mem
    rw [List.getLast?_append_of_ne_nil _ nonempty] at mem
    exact trimmed.last c mem

theorem trim_frame (t : Text) :
    ∃ before after, t = before ++ (trim t ++ after) ∧ before.Blank ∧ after.Blank := by
  refine ⟨t.takeWhile isBlank, ((trimStart t).reverse.takeWhile isBlank).reverse, ?_, ?_, ?_⟩
  · have back := List.takeWhile_append_dropWhile (p := isBlank) (l := (trimStart t).reverse)
    have whole := congrArg List.reverse back
    rw [List.reverse_append, List.reverse_reverse] at whole
    rw [trim, trimEnd, whole, trimStart, List.takeWhile_append_dropWhile]
  · exact fun c mem => List.mem_takeWhile_imp mem
  · exact fun c mem => List.mem_takeWhile_imp (List.mem_reverse.mp mem)

theorem trimmed_trim (t : Text) : Trimmed (trim t) := by
  constructor
  · intro c mem
    have split : trimStart t = trim t ++ ((trimStart t).reverse.takeWhile isBlank).reverse := by
      have back := List.takeWhile_append_dropWhile (p := isBlank) (l := (trimStart t).reverse)
      have whole := congrArg List.reverse back
      rw [List.reverse_append, List.reverse_reverse] at whole
      exact whole.symm
    apply head?_dropWhile_blank t
    change c ∈ (trimStart t).head?
    rw [split, List.head?_append, Option.mem_def.mp mem]
    rfl
  · intro c mem
    rw [trim, trimEnd, List.getLast?_reverse] at mem
    exact head?_dropWhile_blank _ c mem

theorem trim_of_frame (hb : before.Blank) (ht : t.Trimmed) (ha : after.Blank) :
    trim (before ++ (t ++ after)) = t := by
  have start : trimStart (before ++ (t ++ after)) = if t = [] then [] else t ++ after := by
    rw [trimStart, dropWhile_append_blank hb]
    cases t with
    | nil => exact dropWhile_of_blank ha
    | cons c rest => exact List.dropWhile_cons_of_neg (by simp [ht.head c rfl])
  rw [trim, start]
  by_cases empty : t = []
  · rw [if_pos empty, empty]
    rfl
  · have back : Blank after.reverse := fun c mem => ha c (List.mem_reverse.mp mem)
    have last := Expression.trim_eq_self ht.head ht.last
    rw [trim, trimStart, List.dropWhile_eq_self_iff.mpr] at last
    · rw [if_neg empty, trimEnd, List.reverse_append, dropWhile_append_blank back]
      exact last
    · intro lt
      obtain ⟨c, rest, rfl⟩ := List.exists_cons_of_ne_nil empty
      simp [ht.head c rfl]

/-- Blanks around a text make no difference to what is left of it. -/
theorem trim_pad (hb : before.Blank) (ha : after.Blank) (t : Text) :
    trim (before ++ (t ++ after)) = trim t := by
  obtain ⟨front, back, whole, hf, hk⟩ := trim_frame t
  have pad := trim_of_frame (hb.append hf) (trimmed_trim t) (hk.append ha)
  rw [← pad]
  congr 1
  conv_lhs => rw [whole]
  simp only [List.append_assoc]

end Text

namespace Operand

open Text

/-- The characters of an ending, each with blanks after it and letters in either case. -/
inductive Spells : Text → Text → Prop where
  | nil : Spells [] []
  | cons {want c : Char} {ending gap tail : Text} (letter : c = want ∨ c = want.toUpper)
      (blanks : ∀ b ∈ gap, isAsciiBlank b = true) (more : Spells ending tail) :
      Spells (want :: ending) (c :: (gap ++ tail))

def EndsIn (t ending : Text) : Prop := ∃ front tail, t = front ++ tail ∧ Spells ending tail

/-- A character of which endings are made: no blank, and no letter in upper case. -/
def isEndingChar (c : Char) : Bool :=
  !c.isUpper && !isBlank c && !isBlank c.toUpper

theorem not_isAsciiBlank {c : Char} (h : isBlank c = false) : isAsciiBlank c = false := by
  by_contra blank
  rw [isBlank_of_isAsciiBlank (by simpa using blank)] at h
  cases h

section Ending

variable {t front ending : Text} {c want : Char}

theorem toLower_eq_iff (h : isEndingChar want = true) :
    (c.toLower == want.toLower) = true ↔ c = want ∨ c = want.toUpper := by
  simp only [isEndingChar, Bool.and_eq_true, Bool.not_eq_true'] at h
  rw [beq_iff_eq]
  constructor
  · intro same
    rw [Char.toLower_eq_of_not_isUpper (c := want) (by simp [h.1.1])] at same
    by_cases upper : c.isUpper = true
    · right
      have lower : ¬ c.isLower = true := Char.not_isLower_of_isUpper upper
      rw [← same, Char.toUpper_toLower_eq_toUpper, Char.toUpper_eq_of_not_isLower lower]
    · left
      rwa [Char.toLower_eq_of_not_isUpper upper] at same
  · rintro (rfl | rfl)
    · rfl
    · exact Char.toLower_toUpper_eq_toLower want

theorem isBlank_of_letter (h : isEndingChar want = true) (letter : c = want ∨ c = want.toUpper) :
    isBlank c = false := by
  simp only [isEndingChar, Bool.and_eq_true, Bool.not_eq_true'] at h
  rcases letter with rfl | rfl
  · exact h.1.2
  · exact h.2

theorem stripBackwards_append (t a b : Text) :
    stripBackwards t (a ++ b) = (stripBackwards t a).bind (stripBackwards · b) := by
  induction a generalizing t with
  | nil => rfl
  | cons want a ih =>
    rw [List.cons_append, stripBackwards, stripBackwards]
    cases t.dropWhile isAsciiBlank with
    | nil => rfl
    | cons c rest =>
      dsimp only
      split
      · exact ih rest
      · rfl

theorem stripEnding_append (t a b : Text) :
    stripEnding t (a ++ b) = (stripEnding t b).bind (stripEnding · a) := by
  rw [stripEnding, List.reverse_append, stripBackwards_append, stripEnding]
  cases stripBackwards t.reverse b.reverse with
  | none => rfl
  | some rest => simp [stripEnding]

theorem stripEnding_char (h : isEndingChar want = true) :
    stripEnding t [want] = some front ↔
      ∃ c gap, t = front ++ c :: gap ∧ (c = want ∨ c = want.toUpper) ∧
        ∀ b ∈ gap, isAsciiBlank b = true := by
  have split : t.reverse.takeWhile isAsciiBlank ++ t.reverse.dropWhile isAsciiBlank = t.reverse :=
    List.takeWhile_append_dropWhile
  simp only [stripEnding, List.reverse_singleton, stripBackwards]
  constructor
  · intro stripped
    cases left : t.reverse.dropWhile isAsciiBlank with
    | nil =>
      rw [left] at stripped
      cases stripped
    | cons c rest =>
      rw [left] at stripped split
      dsimp only at stripped
      split at stripped
      · next same =>
        obtain rfl := Option.some.inj stripped
        refine ⟨c, (t.reverse.takeWhile isAsciiBlank).reverse, ?_, (toLower_eq_iff h).mp same, ?_⟩
        · have whole := congrArg List.reverse split
          rw [List.reverse_append, List.reverse_reverse, List.reverse_cons] at whole
          rw [List.append_assoc] at whole
          exact whole.symm
        · exact fun b mem => List.mem_takeWhile_imp (List.mem_reverse.mp mem)
      · cases stripped
  · rintro ⟨c, gap, rfl, letter, blanks⟩
    have solid := not_isAsciiBlank (isBlank_of_letter h letter)
    have dropped : (front ++ c :: gap).reverse.dropWhile isAsciiBlank = c :: front.reverse := by
      have back : gap.reverse.dropWhile isAsciiBlank = [] :=
        List.dropWhile_eq_nil_iff.mpr fun b mem => blanks b (List.mem_reverse.mp mem)
      rw [List.reverse_append, List.reverse_cons, List.append_assoc, List.dropWhile_append, back]
      exact List.dropWhile_cons_of_neg (by simp [solid])
    rw [dropped]
    simp [(toLower_eq_iff h).mpr letter]

theorem stripEnding_eq_some_iff (solid : ∀ want ∈ ending, isEndingChar want = true) :
    stripEnding t ending = some front ↔ ∃ tail, t = front ++ tail ∧ Spells ending tail := by
  induction ending generalizing front with
  | nil =>
    have whole : stripEnding t [] = some t := by simp [stripEnding, stripBackwards]
    rw [whole]
    constructor
    · intro same
      cases same
      exact ⟨[], (List.append_nil t).symm, .nil⟩
    · rintro ⟨tail, same, spelled⟩
      cases spelled
      rw [same, List.append_nil]
  | cons want ending ih =>
    have last := stripEnding_append t [want] ending
    rw [List.singleton_append] at last
    rw [last, Option.bind_eq_some_iff]
    have solid' : ∀ want ∈ ending, isEndingChar want = true :=
      fun w mem => solid w (List.mem_cons_of_mem _ mem)
    constructor
    · rintro ⟨mid, stripped, first⟩
      obtain ⟨tail, rfl, spelled⟩ := (ih solid').mp stripped
      obtain ⟨c, gap, rfl, letter, blanks⟩ := (stripEnding_char (solid want (by simp))).mp first
      exact ⟨c :: (gap ++ tail), by simp, .cons letter blanks spelled⟩
    · rintro ⟨_, rfl, spelled⟩
      cases spelled with
      | @cons _ c _ gap tail letter blanks more =>
        refine ⟨front ++ c :: gap, (ih solid').mpr ⟨tail, by simp, more⟩, ?_⟩
        exact (stripEnding_char (solid want (by simp))).mpr ⟨c, gap, rfl, letter, blanks⟩

theorem stripEnding_eq_none_iff (solid : ∀ want ∈ ending, isEndingChar want = true) :
    stripEnding t ending = none ↔ ¬ EndsIn t ending := by
  rw [Option.eq_none_iff_forall_ne_some]
  constructor
  · rintro none ⟨front, tail, same, spelled⟩
    exact none front ((stripEnding_eq_some_iff solid).mpr ⟨tail, same, spelled⟩)
  · intro none front stripped
    exact none ⟨front, (stripEnding_eq_some_iff solid).mp stripped⟩

/-- Two endings that end in different characters do not end the same text. -/
theorem stripEnding_of_last {a b : Text} {v w : Char} (hv : isEndingChar v = true)
    (hw : isEndingChar w = true) (differ : v.toLower ≠ w.toLower)
    (h : stripEnding t (b ++ [w]) = some front) : stripEnding t (a ++ [v]) = none := by
  have strips {want : Char} {rest : Text} (h : isEndingChar want = true)
      (stripped : stripEnding t [want] = some rest) :
      ∃ c, (t.reverse.dropWhile isAsciiBlank).head? = some c ∧ c.toLower = want.toLower := by
    simp only [stripEnding, List.reverse_singleton, stripBackwards] at stripped
    cases left : t.reverse.dropWhile isAsciiBlank with
    | nil =>
      rw [left] at stripped
      cases stripped
    | cons c rest =>
      rw [left] at stripped
      dsimp only at stripped
      split at stripped
      · next same => exact ⟨c, rfl, eq_of_beq same⟩
      · cases stripped
  rw [stripEnding_append] at h ⊢
  obtain ⟨_, last, _⟩ := Option.bind_eq_some_iff.mp h
  obtain ⟨c, here, lower⟩ := strips hw last
  cases other : stripEnding t [v] with
  | none => rfl
  | some rest =>
    obtain ⟨d, here', lower'⟩ := strips hv other
    rw [here] at here'
    cases here'
    exact absurd (lower'.symm.trans lower) differ

end Ending

def opening : Shape → Text
  | .indexedIndirect | .stackIndirectY | .indirectY | .indirect => ['(']
  | .indirectLongY | .indirectLong => ['[']
  | .indexedX | .indexedY | .stack | .plain => []

def ending : Shape → Text
  | .indexedIndirect => [',', 'x', ')']
  | .stackIndirectY => [',', 's', ')', ',', 'y']
  | .indirectY => [')', ',', 'y']
  | .indirect => [')']
  | .indirectLongY => [']', ',', 'y']
  | .indirectLong => [']']
  | .indexedX => [',', 'x']
  | .indexedY => [',', 'y']
  | .stack => [',', 's']
  | .plain => []

inductive Renders (shape : Shape) (e : Text) : Text → Prop where
  | intro {before tail after : Text} (front : before.Blank) (spelled : Spells (ending shape) tail)
      (back : after.Blank) :
      Renders shape e (before ++ ((opening shape ++ (e ++ tail)) ++ after))

def Unmarked (e : Text) : Prop := ∀ c ∈ (trim e).head?, c ∉ ['#', '(', '[']

def Distinct : Shape → Text → Prop
  | .indirectY, e => ¬ EndsIn e [',', 's']
  | .indirect, e => ¬ EndsIn e [',', 'x']
  | .indexedIndirect, _ | .stackIndirectY, _ | .indirectLongY, _ | .indirectLong, _ => True
  | .indexedX, e | .indexedY, e | .stack, e => Unmarked e
  | .plain, e => trim e ≠ [] ∧ Unmarked e ∧
      (∀ ending ∈ [[',', 'y'], [',', 'x'], [',', 's']], ¬ EndsIn (trim e) ending) ∧
      splitComma none 0 (trim e) = none

theorem ending_solid (shape : Shape) : ∀ want ∈ ending shape, isEndingChar want = true := by
  apply List.all_eq_true.mp
  cases shape <;> rfl

theorem ending_ne_nil {shape : Shape} (h : shape ≠ .plain) : ending shape ≠ [] := by
  cases shape with
  | plain => exact absurd rfl h
  | _ => exact List.cons_ne_nil _ _

/-- The longest part of a spelling that ends in one of its characters. -/
theorem Spells.exists_core {ending tail : Text} (h : Spells ending tail) (some : ending ≠ [])
    (solid : ∀ want ∈ ending, isEndingChar want = true) :
    ∃ core gap, tail = core ++ gap ∧ (∀ b ∈ gap, isAsciiBlank b = true) ∧ Spells ending core ∧
      core ≠ [] ∧ core.Trimmed := by
  induction h with
  | nil => exact absurd rfl some
  | @cons want c ending gap tail letter blanks more ih =>
    have plain := isBlank_of_letter (solid want (by simp)) letter
    cases more with
    | nil =>
      have spelled : Spells [want] (c :: ([] ++ [])) := .cons letter nofun .nil
      refine ⟨[c], gap, by simp, blanks, spelled, by simp, ?_⟩
      constructor <;>
        · intro d mem
          cases mem
          exact plain
    | cons letter' blanks' more' =>
      obtain ⟨core, gap', split, blank, spelled, nonempty, trimmed⟩ :=
        ih (by simp) fun w mem => solid w (List.mem_cons_of_mem _ mem)
      refine ⟨c :: (gap ++ core), gap', by simp [split], blank, .cons letter blanks spelled,
        by simp, ?_, ?_⟩
      · intro d mem
        cases mem
        exact plain
      · intro d mem
        apply trimmed.last d
        rwa [← List.cons_append, List.getLast?_append_of_ne_nil _ nonempty] at mem

section Tables

variable {t e : Text} {shape : Shape}

theorem stripEnding_ending (shape : Shape) {front : Text} :
    stripEnding t (ending shape) = some front ↔
      ∃ tail, t = front ++ tail ∧ Spells (ending shape) tail :=
  stripEnding_eq_some_iff (ending_solid shape)

theorem byEnding_eq_some_iff {table : List (Text × Shape)} :
    byEnding t table = some (.address shape e) ↔ ∃ earlier want later front,
      table = earlier ++ (want, shape) :: later ∧ (∀ p ∈ earlier, stripEnding t p.1 = none) ∧
      stripEnding t want = some front ∧ trim front = e := by
  induction table with
  | nil => simp [byEnding]
  | cons entry table ih =>
    obtain ⟨want, other⟩ := entry
    rw [byEnding]
    cases stripped : stripEnding t want with
    | some front =>
      constructor
      · intro found
        cases found
        exact ⟨[], want, table, front, rfl, by simp, stripped, rfl⟩
      · rintro ⟨_ | ⟨p, earlier⟩, want', later, front', split, none, stripped', rfl⟩
        · cases split
          rw [stripped] at stripped'
          cases stripped'
          rfl
        · cases split
          have missed := none (want, other) (by simp)
          rw [stripped] at missed
          cases missed
    | none =>
      dsimp only
      rw [ih]
      constructor
      · rintro ⟨earlier, want', later, front, rfl, none, found⟩
        refine ⟨(want, other) :: earlier, want', later, front, rfl, ?_, found⟩
        intro p mem
        rcases List.mem_cons.mp mem with rfl | mem
        · exact stripped
        · exact none p mem
      · rintro ⟨_ | ⟨p, earlier⟩, want', later, front, split, none, found⟩
        · cases split
          rw [stripped] at found
          cases found.1
        · cases split
          exact ⟨earlier, want', later, front, rfl, fun p mem => none p (by simp [mem]), found⟩

theorem endsIn_iff_of_stripEnding {front want more : Text} (h : stripEnding t want = some front)
    (solid : ∀ c ∈ more, isEndingChar c = true) :
    stripEnding t (more ++ want) = none ↔ ¬ EndsIn front more := by
  rw [stripEnding_append, h, Option.bind_some]
  exact stripEnding_eq_none_iff solid

/-- A bracketed operand has a form of the bracket around an expression, and is no other form. -/
def Bracketed (bracket : Char) (shape : Shape) (t e : Text) : Prop :=
  opening shape = [bracket] ∧ ∃ front tail, t = front ++ tail ∧ Spells (ending shape) tail ∧
    Distinct shape front ∧ trim front = e

theorem byEnding_indirect :
    byEnding t indirectEndings = some (.address shape e) ↔ Bracketed '(' shape t e := by
  constructor
  · intro found
    obtain ⟨earlier, want, later, front, split, none, stripped, rfl⟩ :=
      byEnding_eq_some_iff.mp found
    rcases earlier with _ | ⟨a, _ | ⟨b, _ | ⟨c, _ | ⟨d, earlier⟩⟩⟩⟩
    · cases split
      obtain ⟨tail, same, spelled⟩ := (stripEnding_ending .indexedIndirect).mp stripped
      exact ⟨rfl, front, tail, same, spelled, trivial, rfl⟩
    · cases split
      obtain ⟨tail, same, spelled⟩ := (stripEnding_ending .stackIndirectY).mp stripped
      exact ⟨rfl, front, tail, same, spelled, trivial, rfl⟩
    · cases split
      obtain ⟨tail, same, spelled⟩ := (stripEnding_ending .indirectY).mp stripped
      have longer : stripEnding t ([',', 's'] ++ [')', ',', 'y']) = Option.none :=
        none ([',', 's', ')', ',', 'y'], .stackIndirectY) (by simp)
      exact ⟨rfl, front, tail, same, spelled,
        (endsIn_iff_of_stripEnding stripped (List.all_eq_true.mp rfl)).mp longer, rfl⟩
    · cases split
      obtain ⟨tail, same, spelled⟩ := (stripEnding_ending .indirect).mp stripped
      have longer : stripEnding t ([',', 'x'] ++ [')']) = Option.none :=
        none ([',', 'x', ')'], .indexedIndirect) (by simp)
      exact ⟨rfl, front, tail, same, spelled,
        (endsIn_iff_of_stripEnding stripped (List.all_eq_true.mp rfl)).mp longer, rfl⟩
    · simp [indirectEndings] at split
  · rintro ⟨opens, front, tail, same, spelled, distinct, rfl⟩
    have stripped := (stripEnding_ending _).mpr ⟨tail, same, spelled⟩
    rw [byEnding_eq_some_iff]
    cases shape with
    | indexedIndirect => exact ⟨[], _, _, front, rfl, by simp, stripped, rfl⟩
    | stackIndirectY =>
      have first : stripEnding t ([',', 'x'] ++ [')']) = none :=
        stripEnding_of_last (b := [',', 's', ')', ',']) (w := 'y') rfl rfl (by decide) stripped
      exact ⟨[_], _, _, front, rfl, by simpa using first, stripped, rfl⟩
    | indirectY =>
      have first : stripEnding t ([',', 'x'] ++ [')']) = none :=
        stripEnding_of_last (b := [')', ',']) (w := 'y') rfl rfl (by decide) stripped
      have second : stripEnding t ([',', 's'] ++ [')', ',', 'y']) = none :=
        (endsIn_iff_of_stripEnding stripped (List.all_eq_true.mp rfl)).mpr distinct
      exact ⟨[_, _], _, _, front, rfl, by simpa using ⟨first, second⟩, stripped, rfl⟩
    | indirect =>
      have first : stripEnding t ([',', 'x'] ++ [')']) = none :=
        (endsIn_iff_of_stripEnding stripped (List.all_eq_true.mp rfl)).mpr distinct
      have second : stripEnding t ([',', 's', ')', ','] ++ ['y']) = none :=
        stripEnding_of_last (b := []) (w := ')') rfl rfl (by decide) stripped
      have third : stripEnding t ([')', ','] ++ ['y']) = none :=
        stripEnding_of_last (b := []) (w := ')') rfl rfl (by decide) stripped
      exact ⟨[_, _, _], _, _, front, rfl, by simpa using ⟨first, second, third⟩, stripped, rfl⟩
    | _ => cases opens

theorem byEnding_indirectLong :
    byEnding t indirectLongEndings = some (.address shape e) ↔ Bracketed '[' shape t e := by
  constructor
  · intro found
    obtain ⟨earlier, want, later, front, split, none, stripped, rfl⟩ :=
      byEnding_eq_some_iff.mp found
    rcases earlier with _ | ⟨a, _ | ⟨b, earlier⟩⟩
    · cases split
      obtain ⟨tail, same, spelled⟩ := (stripEnding_ending .indirectLongY).mp stripped
      exact ⟨rfl, front, tail, same, spelled, trivial, rfl⟩
    · cases split
      obtain ⟨tail, same, spelled⟩ := (stripEnding_ending .indirectLong).mp stripped
      exact ⟨rfl, front, tail, same, spelled, trivial, rfl⟩
    · simp [indirectLongEndings] at split
  · rintro ⟨opens, front, tail, same, spelled, distinct, rfl⟩
    have stripped := (stripEnding_ending _).mpr ⟨tail, same, spelled⟩
    rw [byEnding_eq_some_iff]
    cases shape with
    | indirectLongY => exact ⟨[], _, _, front, rfl, by simp, stripped, rfl⟩
    | indirectLong =>
      have first : stripEnding t ([']', ','] ++ ['y']) = none :=
        stripEnding_of_last (b := []) (w := ']') rfl rfl (by decide) stripped
      exact ⟨[_], _, _, front, rfl, by simpa using first, stripped, rfl⟩
    | _ => cases opens

def isIndexed : Shape → Bool
  | .indexedX | .indexedY | .stack => true
  | _ => false

theorem indexed_form (h : isIndexed shape = true) : opening shape = [] ∧
    (∃ rest, ending shape = ',' :: rest) ∧ (Distinct shape e ↔ Unmarked e) := by
  cases shape with
  | indexedX | indexedY | stack => exact ⟨rfl, ⟨_, rfl⟩, .rfl⟩
  | _ => cases h

theorem byEnding_index : byEnding t indexEndings = some (.address shape e) ↔
    isIndexed shape = true ∧ ∃ front tail, t = front ++ tail ∧ Spells (ending shape) tail ∧
      trim front = e := by
  constructor
  · intro found
    obtain ⟨earlier, want, later, front, split, none, stripped, rfl⟩ :=
      byEnding_eq_some_iff.mp found
    rcases earlier with _ | ⟨a, _ | ⟨b, _ | ⟨c, earlier⟩⟩⟩
    · cases split
      obtain ⟨tail, same, spelled⟩ := (stripEnding_ending .indexedY).mp stripped
      exact ⟨rfl, front, tail, same, spelled, rfl⟩
    · cases split
      obtain ⟨tail, same, spelled⟩ := (stripEnding_ending .indexedX).mp stripped
      exact ⟨rfl, front, tail, same, spelled, rfl⟩
    · cases split
      obtain ⟨tail, same, spelled⟩ := (stripEnding_ending .stack).mp stripped
      exact ⟨rfl, front, tail, same, spelled, rfl⟩
    · simp [indexEndings] at split
  · rintro ⟨indexed, front, tail, same, spelled, rfl⟩
    have stripped := (stripEnding_ending _).mpr ⟨tail, same, spelled⟩
    rw [byEnding_eq_some_iff]
    cases shape with
    | indexedY => exact ⟨[], _, _, front, rfl, by simp, stripped, rfl⟩
    | indexedX =>
      have first : stripEnding t ([','] ++ ['y']) = none :=
        stripEnding_of_last (b := [',']) (w := 'x') rfl rfl (by decide) stripped
      exact ⟨[_], _, _, front, rfl, by simpa using first, stripped, rfl⟩
    | stack =>
      have first : stripEnding t ([','] ++ ['y']) = none :=
        stripEnding_of_last (b := [',']) (w := 's') rfl rfl (by decide) stripped
      have second : stripEnding t ([','] ++ ['x']) = none :=
        stripEnding_of_last (b := [',']) (w := 's') rfl rfl (by decide) stripped
      exact ⟨[_, _], _, _, front, rfl, by simpa using ⟨first, second⟩, stripped, rfl⟩
    | _ => cases indexed

theorem byEnding_index_eq_none :
    byEnding t indexEndings = none ↔
      ∀ ending ∈ [[',', 'y'], [',', 'x'], [',', 's']], ¬ EndsIn t ending := by
  have missed (want : Text) (solid : want.all isEndingChar = true) :
      stripEnding t want = none ↔ ¬ EndsIn t want :=
    stripEnding_eq_none_iff (List.all_eq_true.mp solid)
  simp only [List.forall_mem_cons, List.not_mem_nil, false_imp_iff, implies_true, and_true,
    ← missed [',', 'y'] rfl, ← missed [',', 'x'] rfl, ← missed [',', 's'] rfl]
  simp only [indexEndings, byEnding]
  cases stripEnding t [',', 'y'] <;> cases stripEnding t [',', 'x'] <;>
    cases stripEnding t [',', 's'] <;> simp

end Tables

section Classify

variable {t e operand : Text} {shape : Shape}

theorem classifyDirect_eq_address :
    classifyDirect t = .address shape e ↔
      byEnding t indexEndings = some (.address shape e) ∨
        byEnding t indexEndings = none ∧ splitComma none 0 t = none ∧ shape = .plain ∧ t = e := by
  rw [classifyDirect]
  cases byEnding t indexEndings with
  | some found => simp
  | none =>
    cases splitComma none 0 t with
    | some pair => simp
    | none => simp [eq_comm]

/-- Without an opening bracket or a number sign the end of the text decides. -/
theorem classify_of_unmarked (some : trim operand ≠ []) (unmarked : Unmarked operand) :
    classify operand = classifyDirect (trim operand) := by
  apply Bytewise.classify_direct
  obtain ⟨c, rest, found⟩ := List.exists_cons_of_ne_nil some
  have first := unmarked c (by rw [found]; rfl)
  simp only [List.mem_cons, List.not_mem_nil, or_false, not_or] at first
  rw [found]
  simp [Bytewise.isMarked, first]

/-- Opened by a bracket, an operand is what the text behind the bracket ends like. -/
theorem classify_of_bracket {bracket : Char} {rest : Text} (found : trim operand = bracket :: rest)
    (kind : bracket = '(' ∨ bracket = '[') :
    classify operand = .address shape e ↔ Bracketed bracket shape rest e := by
  rcases kind with rfl | rfl
  · rw [← byEnding_indirect, classify, found]
    change (byEnding rest indirectEndings).getD _ = _ ↔ _
    cases byEnding rest indirectEndings <;> simp
  · rw [← byEnding_indirectLong, classify, found]
    change (byEnding rest indirectLongEndings).getD _ = _ ↔ _
    cases byEnding rest indirectLongEndings <;> simp

/-- Between the blanks around it, a form ends where the spelling of its ending does. -/
theorem Renders.exists_core {inside : Text} (h : Renders shape inside operand)
    (ends : shape ≠ .plain) : ∃ before core after,
      operand = before ++ ((opening shape ++ (inside ++ core)) ++ after) ∧ before.Blank ∧
      after.Blank ∧ Spells (ending shape) core ∧ core ≠ [] ∧ core.Trimmed := by
  obtain ⟨front, spelled, back⟩ := h
  obtain ⟨core, gap, rfl, blanks, spelled, nonempty, trimmed⟩ :=
    spelled.exists_core (ending_ne_nil ends) (ending_solid shape)
  exact ⟨_, core, _, by simp only [List.append_assoc], front, (Blank.of_ascii blanks).append back,
    spelled, nonempty, trimmed⟩

theorem classify_bracketed {bracket : Char} {inside : Text} (opens : opening shape = [bracket])
    (kind : bracket = '(' ∨ bracket = '[') (h : Renders shape inside operand)
    (distinct : Distinct shape inside) : classify operand = .address shape (trim inside) := by
  have ends : shape ≠ .plain := by
    rintro rfl
    cases opens
  obtain ⟨before, core, after, rfl, front, back, spelled, nonempty, trimmed⟩ := h.exists_core ends
  have solid : isBlank bracket = false := by rcases kind with rfl | rfl <;> rfl
  have whole : Trimmed (([bracket] ++ inside) ++ core) :=
    Trimmed.append (by simp [solid]) nonempty trimmed
  rw [List.append_assoc] at whole
  have found := trim_of_frame front whole back
  rw [opens, classify_of_bracket found kind]
  exact ⟨opens, inside, core, rfl, spelled, distinct, rfl⟩

theorem classify_indexed {inside : Text} (indexed : isIndexed shape = true)
    (h : Renders shape inside operand) (unmarked : Unmarked inside) :
    classify operand = .address shape (trim inside) := by
  obtain ⟨opens, ⟨rest, first⟩, _⟩ := indexed_form (e := inside) indexed
  have ends : shape ≠ .plain := by
    rintro rfl
    cases indexed
  obtain ⟨before, core, after, rfl, front, back, spelled, nonempty, trimmed⟩ := h.exists_core ends
  have comma : core.head? = some ',' := by
    rw [first] at spelled
    cases spelled with
    | cons letter => rcases letter with rfl | rfl <;> rfl
  -- Blanks before the expression are blanks before the operand.
  have split : inside.takeWhile isBlank ++ trimStart inside = inside :=
    List.takeWhile_append_dropWhile
  have blank : Blank (inside.takeWhile isBlank) := fun c mem => List.mem_takeWhile_imp mem
  have same : trim (trimStart inside) = trim inside := by
    have pad := trim_pad blank (show Blank [] from nofun) (trimStart inside)
    rw [List.append_nil, split] at pad
    exact pad.symm
  have head := head?_dropWhile_blank inside
  have found : trim (before ++ ((opening shape ++ (inside ++ core)) ++ after)) =
      trimStart inside ++ core := by
    have whole := trim_of_frame (front.append blank)
      (Trimmed.append (s := trimStart inside) head nonempty trimmed) back
    rw [← whole, opens]
    congr 1
    conv_lhs => rw [← split]
    simp only [List.append_assoc, List.nil_append]
  have starts : Unmarked (before ++ ((opening shape ++ (inside ++ core)) ++ after)) := by
    intro c mem
    rw [found] at mem
    cases start : trimStart inside with
    | nil =>
      rw [start, List.nil_append, comma] at mem
      cases mem
      decide
    | cons d rest =>
      rw [start] at mem same
      cases mem
      refine unmarked c ?_
      rw [← same]
      refine Expression.head_trim_of_not_blank rest (head c ?_)
      change (trimStart inside).head? = _
      rw [start]
      rfl
  rw [classify_of_unmarked (by rw [found]; simp [nonempty]) starts, found,
    classifyDirect_eq_address, byEnding_index]
  exact Or.inl ⟨indexed, _, core, rfl, spelled, same⟩

theorem classify_plain {inside : Text} (h : Renders .plain inside operand)
    (distinct : Distinct .plain inside) : classify operand = .address .plain (trim inside) := by
  obtain ⟨some, unmarked, apart, whole⟩ := distinct
  obtain ⟨front, spelled, back⟩ := h
  cases spelled
  have found := trim_pad front back inside
  simp only [opening, List.nil_append, List.append_nil]
  rw [classify_of_unmarked (by rw [found]; exact some) (by rw [Unmarked, found]; exact unmarked),
    found, classifyDirect_eq_address]
  exact Or.inr ⟨byEnding_index_eq_none.mpr apart, whole, rfl, rfl⟩

/-- A text that is classified as an address starts with a bracket or is unmarked. -/
theorem head_of_classify (h : classify operand = .address shape e) :
    (∃ bracket rest, trim operand = bracket :: rest ∧ (bracket = '(' ∨ bracket = '[')) ∨
      trim operand ≠ [] ∧ Unmarked operand := by
  cases found : trim operand with
  | nil =>
    rw [classify, found] at h
    cases h
  | cons c rest =>
    by_cases bracket : c = '(' ∨ c = '['
    · exact Or.inl ⟨c, rest, rfl, bracket⟩
    · by_cases sign : c = '#'
      · subst sign
        rw [classify, found] at h
        cases h
      · refine Or.inr ⟨by simp, ?_⟩
        intro d mem
        rw [found] at mem
        cases mem
        simp [sign, not_or.mp bracket]

theorem Unmarked.front {inside tail : Text} (trimmed : Trimmed (inside ++ tail))
    (h : ∀ c ∈ (inside ++ tail).head?, c ∉ ['#', '(', '[']) : Unmarked inside := by
  cases inside with
  | nil => exact nofun
  | cons c rest =>
    have first := Expression.head_trim_of_not_blank rest (trimmed.head c rfl)
    intro d mem
    rw [first] at mem
    cases mem
    exact h c rfl

end Classify

/-- An operand is an address of a shape around an expression exactly if it is the form of the shape
around a text that is the expression but for blanks, and is no other form. -/
theorem classify_eq_address_iff (operand e : Text) (shape : Shape) :
    classify operand = .address shape e ↔
      ∃ inside, Renders shape inside operand ∧ Distinct shape inside ∧ trim inside = e := by
  constructor
  · intro h
    obtain ⟨before, after, whole, front, back⟩ := trim_frame operand
    rcases head_of_classify h with ⟨bracket, rest, found, kind⟩ | ⟨some, unmarked⟩
    · obtain ⟨opens, inside, tail, rfl, spelled, distinct, rfl⟩ :=
        (classify_of_bracket found kind).mp h
      refine ⟨inside, ?_, distinct, rfl⟩
      rw [whole, found, ← List.singleton_append, ← opens]
      exact .intro front spelled back
    · rw [classify_of_unmarked some unmarked, classifyDirect_eq_address, byEnding_index] at h
      have trimmed := trimmed_trim operand
      rcases h with ⟨indexed, inside, tail, split, spelled, rfl⟩ | ⟨apart, single, rfl, rfl⟩
      · obtain ⟨opens, _, distinct⟩ := indexed_form (e := inside) indexed
        have starts : Unmarked inside := by
          rw [Unmarked, split] at unmarked
          exact .front (split ▸ trimmed) unmarked
        refine ⟨inside, ?_, distinct.mpr starts, rfl⟩
        rw [whole, split, ← List.nil_append (inside ++ tail), ← opens]
        exact .intro front spelled back
      · have same : trim (trim operand) = trim operand :=
          Expression.trim_eq_self trimmed.head trimmed.last
        refine ⟨trim operand, ?_, ?_, same⟩
        · have form : Renders .plain (trim operand)
              (before ++ (([] ++ (trim operand ++ [])) ++ after)) := .intro front .nil back
          rw [List.nil_append, List.append_nil, ← whole] at form
          exact form
        · refine ⟨by rwa [same], by rwa [Unmarked, same], ?_, by rwa [same]⟩
          rw [same]
          exact byEnding_index_eq_none.mp apart
  · rintro ⟨inside, form, distinct, rfl⟩
    cases shape with
    | indexedIndirect | stackIndirectY | indirectY | indirect =>
      exact classify_bracketed rfl (.inl rfl) form distinct
    | indirectLongY | indirectLong => exact classify_bracketed rfl (.inr rfl) form distinct
    | indexedX | indexedY | stack => exact classify_indexed rfl form distinct
    | plain => exact classify_plain form distinct

example : classify [' ', '(', 'a', ' ', ',', 'S', ' ', ')', ',', 'y'] =
    .address .stackIndirectY ['a'] := by
  decide

end Operand

end Assembler65816
