import Assembler65816.Proofs.Groups
import Assembler65816.Proofs.OperandForms

/-! # Commas between two banks

The two banks of a block move are told apart at the first comma in front of which the operand is
balanced. The splitter that looks for it ends a literal at the next mark of its kind, where
expressions let a backslash hide that mark. The two agree on where literals stand as long as no
backslash stands before a mark of the literal around it; then the operand is split at that comma,
and otherwise they are apart from that mark on.
-/
namespace Assembler65816

open Text

namespace Quote

def hidesMark : Quote → Text → Bool
  | _, [] => false
  | q, c :: rest => decide (q = .escaped c) || hidesMark (q.step c) rest

theorem hidesMark_append (q : Quote) (s t : Text) :
    hidesMark q (s ++ t) = (hidesMark q s || hidesMark (s.foldl Quote.step q) t) := by
  induction s generalizing q with
  | nil => rfl
  | cons c s ih =>
    rw [List.cons_append, hidesMark, hidesMark, ih, List.foldl_cons, Bool.or_assoc]

theorem hidesMark_append_eq_false {q : Quote} {s t : Text} :
    hidesMark q (s ++ t) = false ↔
      hidesMark q s = false ∧ hidesMark (s.foldl Quote.step q) t = false := by
  rw [hidesMark_append, Bool.or_eq_false_iff]

theorem hidesMark_cons_eq_false {q : Quote} {c : Char} {t : Text} :
    hidesMark q (c :: t) = false ↔ q ≠ .escaped c ∧ hidesMark (q.step c) t = false := by
  rw [hidesMark, Bool.or_eq_false_iff, decide_eq_false_iff_not]

section Literals

variable {mark c : Char} {body rest : Text}

theorem Literal.fold (h : Literal mark body) (hm : isQuoteMark mark = true) :
    body.foldl Quote.step (.inside mark) = .outside := by
  induction h with
  | close => exact step_closing hm
  | hidden c _ ih => exact ih
  | plain backslash other _ ih => rw [List.foldl_cons, step_inside backslash other, ih]

theorem hidesMark_outside (h : isQuoteMark c = false) :
    hidesMark .outside (c :: rest) = hidesMark .outside rest := by
  rw [hidesMark, step_outside h]
  rfl

theorem hidesMark_hidden_eq_false : hidesMark (.inside mark) ('\\' :: c :: rest) = false ↔
    c ≠ mark ∧ hidesMark (.inside mark) rest = false := by
  rw [hidesMark_cons_eq_false, and_iff_right nofun, step_backslash, hidesMark_cons_eq_false,
    step_escaped, Ne, escaped.injEq, eq_comm]

theorem hidesMark_inside (backslash : c ≠ '\\') (other : c ≠ mark) :
    hidesMark (.inside mark) (c :: rest) = hidesMark (.inside mark) rest := by
  rw [hidesMark, step_inside backslash other]
  rfl

/-- In a literal and the text behind it, the marks are hidden that are in one of them. -/
theorem hidesMark_literal_eq_false (hm : isQuoteMark mark = true) (h : Literal mark body) :
    hidesMark .outside (mark :: (body ++ rest)) = false ↔
      hidesMark (.inside mark) body = false ∧ hidesMark .outside rest = false := by
  rw [hidesMark_cons_eq_false, and_iff_right nofun, step_opening hm, hidesMark_append_eq_false,
    h.fold hm]

end Literals

end Quote

namespace Operand

open Bytewise (pastComma splitComma_cons)

def past (s : Option Char × Int) (t : Text) : Option Char × Int :=
  t.foldl (fun s c => pastComma s.1 s.2 c) s

theorem past_cons (s : Option Char × Int) (c : Char) (t : Text) :
    past s (c :: t) = past (pastComma s.1 s.2 c) t := rfl

theorem past_append (s : Option Char × Int) (t t' : Text) :
    past s (t ++ t') = past (past s t) t' := List.foldl_append

/-- The splitter stops at the first comma that it comes to outside, with no bracket open. -/
theorem splitComma_eq_some_iff {s : Option Char × Int} {t a b : Text} :
    splitComma s.1 s.2 t = some (a, b) ↔ t = a ++ ',' :: b ∧ past s a = (none, 0) ∧
      ∀ front back, a = front ++ ',' :: back → past s front ≠ (none, 0) := by
  induction t generalizing s a with
  | nil =>
    refine iff_of_false (by cases s.1 <;> nofun) ?_
    rintro ⟨whole, -, -⟩
    simp at whole
  | cons c rest ih =>
    rw [splitComma_cons]
    by_cases comma : s.1 = none ∧ c = ',' ∧ s.2 = 0
    · rw [if_pos comma]
      have start : s = (none, 0) := Prod.ext comma.1 comma.2.2
      constructor
      · intro found
        cases found
        exact ⟨by rw [comma.2.1]; rfl, start, fun front back parts => by simp at parts⟩
      · rintro ⟨whole, -, first⟩
        cases a with
        | nil =>
          cases whole
          rfl
        | cons d a =>
          obtain ⟨rfl, -⟩ := List.cons.inj whole
          exact absurd start (first [] a (by rw [comma.2.1]; rfl))
    · rw [if_neg comma, Option.map_eq_some_iff]
      constructor
      · rintro ⟨⟨a', b'⟩, found, same⟩
        cases same
        obtain ⟨rfl, ends, first⟩ := ih.mp found
        refine ⟨rfl, ends, ?_⟩
        rintro (_ | ⟨d, front⟩) back parts outside
        · obtain ⟨rfl, -⟩ := List.cons.inj parts
          exact comma ⟨congrArg Prod.fst outside, rfl, congrArg Prod.snd outside⟩
        · obtain ⟨rfl, split⟩ := List.cons.inj parts
          exact first front back split outside
      · rintro ⟨whole, ends, first⟩
        cases a with
        | nil =>
          obtain ⟨rfl, -⟩ := List.cons.inj whole
          exact absurd ⟨congrArg Prod.fst ends, rfl, congrArg Prod.snd ends⟩ comma
        | cons d a =>
          obtain ⟨rfl, split⟩ := List.cons.inj whole
          refine ⟨(a, b), ih.mpr ⟨split, ends, ?_⟩, rfl⟩
          intro front back parts
          exact first (c :: front) back (by rw [parts]; rfl)

theorem splitComma_eq_none_iff {s : Option Char × Int} {t : Text} :
    splitComma s.1 s.2 t = none ↔ ∀ a b, t = a ++ ',' :: b → past s a ≠ (none, 0) := by
  constructor
  · rintro missing a b rfl outside
    induction a generalizing s with
    | nil =>
      obtain rfl : s = (none, 0) := outside
      cases missing
    | cons c a ih =>
      rw [List.cons_append, splitComma_cons] at missing
      split at missing
      · cases missing
      · exact ih (Option.map_eq_none_iff.mp missing) outside
  · intro inside
    rw [Option.eq_none_iff_forall_ne_some]
    rintro ⟨a, b⟩ found
    obtain ⟨whole, outside, -⟩ := splitComma_eq_some_iff.mp found
    exact inside a b whole outside

inductive Alike : Option Char → Quote → Prop where
  | outside : Alike none .outside
  | within {mark : Char} {q : Quote} (quote : isQuoteMark mark = true) (within : q.Within mark) :
      Alike (some mark) q

theorem Alike.outside_iff {quote : Option Char} {q : Quote} (h : Alike quote q) :
    quote = none ↔ q = .outside := by
  cases h with
  | outside => exact iff_of_true rfl rfl
  | within _ within => rcases within with rfl | rfl <;> exact iff_of_false nofun nofun

theorem Alike.step {quote : Option Char} {q : Quote} {c : Char} (h : Alike quote q)
    (shown : q ≠ .escaped c) (depth : Int) : Alike (pastComma quote depth c).1 (q.step c) := by
  cases h with
  | outside =>
    by_cases opens : isQuoteMark c = true
    · simpa [pastComma, Quote.step, opens] using Alike.within opens (.inl rfl)
    · simpa [pastComma, Quote.step, opens] using Alike.outside
  | @within mark _ marked within =>
    rcases within.step c with ⟨rfl, rfl, ends⟩ | ⟨other, within'⟩
    · rw [ends]
      simpa [pastComma] using Alike.outside
    · have stays : c ≠ mark := by
        rintro rfl
        rcases within with rfl | rfl
        · rcases other rfl with rfl | ne
          · cases marked
          · exact ne rfl
        · exact shown rfl
      simpa [pastComma, stays] using Alike.within marked within'

/-- At a hidden mark the splitter leaves the literal, and the scanner of expressions does not. -/
theorem Alike.parts {quote : Option Char} {c : Char} (h : Alike quote (.escaped c)) (depth : Int) :
    (pastComma quote depth c).1 = none ∧ (Quote.escaped c).step c ≠ .outside := by
  cases h with
  | within _ within =>
    rcases within with same | same <;> cases same
    exact ⟨by simp [pastComma], nofun⟩

theorem alike_everywhere {s : Option Char × Int} {q : Quote} (h : Alike s.1 q) (t : Text) :
    (∀ front back, t = front ++ back →
      ((past s front).1 = none ↔ front.foldl Quote.step q = .outside)) ↔
      Quote.hidesMark q t = false := by
  induction t generalizing s q with
  | nil =>
    refine iff_of_true ?_ rfl
    intro front back parts
    obtain ⟨rfl, -⟩ := List.nil_eq_append_iff.mp parts
    exact h.outside_iff
  | cons c t ih =>
    rw [Quote.hidesMark_cons_eq_false]
    by_cases hidden : q = .escaped c
    · subst hidden
      obtain ⟨leaves, stays⟩ := h.parts s.2
      refine iff_of_false ?_ (fun shows => shows.1 rfl)
      exact fun same => stays ((same [c] t rfl).mp leaves)
    · rw [← ih (s := pastComma s.1 s.2 c) (h.step hidden s.2)]
      constructor
      · intro same
        refine ⟨hidden, fun front back parts => same (c :: front) back ?_⟩
        rw [parts, List.cons_append]
      · rintro ⟨-, same⟩ front back parts
        rcases List.cons_eq_append_iff.mp parts with ⟨rfl, -⟩ | ⟨front, rfl, split⟩
        · exact h.outside_iff
        · exact same front back split

def isOpening (c : Char) : Bool := c == '(' || c == '[' || c == '{'

def isClosing (c : Char) : Bool := c == ')' || c == ']' || c == '}'

inductive Balanced : Text → Prop where
  | nil : Balanced []
  | literal {mark : Char} {body rest : Text} (quote : isQuoteMark mark = true)
      (closed : Quote.Literal mark body) (more : Balanced rest) :
      Balanced (mark :: (body ++ rest))
  | group {c d : Char} {inside rest : Text} (opens : isOpening c = true)
      (closes : isClosing d = true) (nested : Balanced inside) (more : Balanced rest) :
      Balanced (c :: (inside ++ d :: rest))
  | plain {c : Char} {rest : Text} (quote : isQuoteMark c = false) (opening : isOpening c = false)
      (closing : isClosing c = false) (more : Balanced rest) : Balanced (c :: rest)

/-- The text is balanced, and not in front of a comma in it. -/
def Unsplit (t : Text) : Prop :=
  Balanced t ∧ ∀ front back, t = front ++ ',' :: back → ¬ Balanced front

section Steps

variable {c mark : Char} {depth : Int}

theorem not_quote_of_isOpening (h : isOpening c = true) : isQuoteMark c = false := by
  simp only [isOpening, Bool.or_eq_true, beq_iff_eq] at h
  rcases h with (rfl | rfl) | rfl <;> rfl

theorem not_quote_of_isClosing (h : isClosing c = true) : isQuoteMark c = false := by
  simp only [isClosing, Bool.or_eq_true, beq_iff_eq] at h
  rcases h with (rfl | rfl) | rfl <;> rfl

theorem pastComma_quote (h : isQuoteMark mark = true) :
    pastComma none depth mark = (some mark, depth) := by
  rcases isQuoteMark_cases h with rfl | rfl <;> rfl

theorem pastComma_opening (h : isOpening c = true) :
    pastComma none depth c = (none, depth + 1) := by
  simp only [isOpening, Bool.or_eq_true, beq_iff_eq] at h
  rcases h with (rfl | rfl) | rfl <;> rfl

theorem pastComma_closing (h : isClosing c = true) :
    pastComma none depth c = (none, depth - 1) := by
  simp only [isClosing, Bool.or_eq_true, beq_iff_eq] at h
  rcases h with (rfl | rfl) | rfl <;> rfl

theorem pastComma_plain (quote : isQuoteMark c = false) (opening : isOpening c = false)
    (closing : isClosing c = false) : pastComma none depth c = (none, depth) := by
  rw [isOpening] at opening
  rw [isClosing] at closing
  simp [pastComma, quote, opening, closing]

theorem pastComma_other (h : c ≠ mark) : pastComma (some mark) depth c = (some mark, depth) := by
  simp [pastComma, h]

theorem pastComma_mark : pastComma (some mark) depth mark = (none, depth) := by
  simp [pastComma]

end Steps

section Literals

variable {mark : Char} {body : Text} (quote : isQuoteMark mark = true)
include quote

/-- A literal that hides no mark ends for the splitter where it ends for expressions. -/
theorem past_literal (closed : Quote.Literal mark body)
    (shows : Quote.hidesMark (.inside mark) body = false) (depth : Int) :
    past (some mark, depth) body = (none, depth) := by
  induction closed with
  | close => exact pastComma_mark
  | hidden c _ ih =>
    obtain ⟨other, shows⟩ := Quote.hidesMark_hidden_eq_false.mp shows
    rw [past_cons, pastComma_other (Quote.ne_backslash_of_isQuoteMark quote).symm, past_cons,
      pastComma_other other]
    exact ih shows
  | plain backslash other _ ih =>
    rw [Quote.hidesMark_inside backslash other] at shows
    rw [past_cons, pastComma_other other]
    exact ih shows

theorem past_within {front back : Text} (closed : Quote.Literal mark body)
    (shows : Quote.hidesMark (.inside mark) body = false) (parts : body = front ++ back)
    (unread : back ≠ []) (depth : Int) : past (some mark, depth) front = (some mark, depth) := by
  induction closed generalizing front with
  | close =>
    rcases List.cons_eq_append_iff.mp parts with ⟨rfl, -⟩ | ⟨front, rfl, split⟩
    · rfl
    · exact absurd (List.nil_eq_append_iff.mp split).2 unread
  | hidden c _ ih =>
    obtain ⟨other, shows⟩ := Quote.hidesMark_hidden_eq_false.mp shows
    have backslash := (Quote.ne_backslash_of_isQuoteMark quote).symm
    rcases List.cons_eq_append_iff.mp parts with ⟨rfl, -⟩ | ⟨front, rfl, split⟩
    · rfl
    rw [past_cons, pastComma_other backslash]
    rcases List.cons_eq_append_iff.mp split with ⟨rfl, -⟩ | ⟨front, rfl, split'⟩
    · rfl
    rw [past_cons, pastComma_other other]
    exact ih shows split'
  | plain backslash other _ ih =>
    rw [Quote.hidesMark_inside backslash other] at shows
    rcases List.cons_eq_append_iff.mp parts with ⟨rfl, -⟩ | ⟨front, rfl, split⟩
    · rfl
    rw [past_cons, pastComma_other other]
    exact ih shows split

end Literals

theorem Balanced.fold {t : Text} (h : Balanced t) :
    t.foldl Quote.step .outside = .outside := by
  induction h with
  | nil => rfl
  | literal quote closed _ ih =>
    rw [List.foldl_cons, Quote.step_opening quote, List.foldl_append, closed.fold quote, ih]
  | group opens closes _ _ nested more =>
    rw [List.foldl_cons, Quote.step_outside (not_quote_of_isOpening opens), List.foldl_append,
      nested, List.foldl_cons, Quote.step_outside (not_quote_of_isClosing closes), more]
  | plain quote _ _ _ ih => rw [List.foldl_cons, Quote.step_outside quote, ih]

/-- In a group and the text behind it, the marks are hidden that are in one of them. -/
theorem hidesMark_group_eq_false {c d : Char} {inside rest : Text} (opens : isOpening c = true)
    (closes : isClosing d = true) (nested : Balanced inside) :
    Quote.hidesMark .outside (c :: (inside ++ d :: rest)) = false ↔
      Quote.hidesMark .outside inside = false ∧ Quote.hidesMark .outside rest = false := by
  rw [Quote.hidesMark_outside (not_quote_of_isOpening opens), Quote.hidesMark_append_eq_false,
    nested.fold, Quote.hidesMark_outside (not_quote_of_isClosing closes)]

/-- A balanced text that hides no mark leaves the splitter as it was. -/
theorem Balanced.past {t : Text} (h : Balanced t) (shows : Quote.hidesMark .outside t = false)
    (depth : Int) : past (none, depth) t = (none, depth) := by
  induction h generalizing depth with
  | nil => rfl
  | literal quote closed _ ih =>
    obtain ⟨within, later⟩ := (Quote.hidesMark_literal_eq_false quote closed).mp shows
    rw [past_cons, pastComma_quote quote, past_append, past_literal quote closed within]
    exact ih later depth
  | group opens closes nested _ ihNested ih =>
    obtain ⟨within, later⟩ := (hidesMark_group_eq_false opens closes nested).mp shows
    rw [past_cons, pastComma_opening opens, past_append, ihNested within, past_cons,
      pastComma_closing closes, Int.add_sub_cancel]
    exact ih later depth
  | plain quote opening closing _ ih =>
    rw [Quote.hidesMark_outside quote] at shows
    rw [past_cons, pastComma_plain quote opening closing]
    exact ih shows depth

/-- Within a balanced text the count does not fall below its start, and it is back there, outside
literals, only behind balanced texts. -/
theorem Balanced.past_front {t front back : Text} (h : Balanced t)
    (shows : Quote.hidesMark .outside t = false) (parts : t = front ++ back) (depth : Int) :
    depth ≤ (Operand.past (none, depth) front).2 ∧
      (Operand.past (none, depth) front = (none, depth) → Balanced front) := by
  induction h generalizing front back depth with
  | nil =>
    obtain ⟨rfl, -⟩ := List.nil_eq_append_iff.mp parts
    exact ⟨le_rfl, fun _ => .nil⟩
  | @literal mark body rest quote closed _ ih =>
    rcases List.cons_eq_append_iff.mp parts with ⟨rfl, -⟩ | ⟨front, rfl, split⟩
    · exact ⟨le_rfl, fun _ => .nil⟩
    obtain ⟨within, later⟩ := (Quote.hidesMark_literal_eq_false quote closed).mp shows
    rw [past_cons, pastComma_quote quote]
    by_cases whole : body.length ≤ front.length
    · -- The literal is read whole.
      obtain ⟨more, rfl⟩ : body <+: front :=
        List.prefix_of_prefix_length_le ⟨_, split⟩ ⟨_, rfl⟩ whole
      rw [List.append_assoc, List.append_cancel_left_eq] at split
      rw [past_append, past_literal quote closed within]
      obtain ⟨low, balanced⟩ := ih later split depth
      exact ⟨low, fun outside => .literal quote closed (balanced outside)⟩
    · obtain ⟨unread, rfl⟩ : front <+: body :=
        List.prefix_of_prefix_length_le ⟨_, rfl⟩ ⟨_, split⟩ (by omega)
      have inside := past_within quote closed within rfl (by rintro rfl; simp at whole) depth
      rw [inside]
      exact ⟨le_rfl, nofun⟩
  | @group c d inside rest opens closes nested _ ihNested ih =>
    rcases List.cons_eq_append_iff.mp parts with ⟨rfl, -⟩ | ⟨front, rfl, split⟩
    · exact ⟨le_rfl, fun _ => .nil⟩
    obtain ⟨within, later⟩ := (hidesMark_group_eq_false opens closes nested).mp shows
    rw [past_cons, pastComma_opening opens]
    by_cases whole : inside.length < front.length
    · -- The group is read whole.
      rw [← List.singleton_append, ← List.append_assoc] at split
      obtain ⟨more, rfl⟩ : inside ++ [d] <+: front :=
        List.prefix_of_prefix_length_le ⟨_, split⟩ ⟨_, rfl⟩ (by simpa using whole)
      rw [List.append_assoc (inside ++ [d]), List.append_cancel_left_eq] at split
      have closed : Operand.past (none, depth + 1) (inside ++ [d]) = (none, depth) := by
        rw [past_append, nested.past within, past_cons, pastComma_closing closes,
          Int.add_sub_cancel]
        rfl
      rw [past_append, closed]
      obtain ⟨low, balanced⟩ := ih later split depth
      refine ⟨low, fun outside => ?_⟩
      rw [List.append_assoc, List.singleton_append]
      exact .group opens closes nested (balanced outside)
    · obtain ⟨unread, rfl⟩ : front <+: inside :=
        List.prefix_of_prefix_length_le ⟨_, rfl⟩ ⟨_, split⟩ (by omega)
      obtain ⟨low, -⟩ := ihNested within rfl (depth + 1)
      have inner : depth < (Operand.past (none, depth + 1) front).2 := low
      refine ⟨inner.le, fun outside => ?_⟩
      rw [outside] at inner
      exact absurd inner (lt_irrefl depth)
  | @plain c rest quote opening closing _ ih =>
    rcases List.cons_eq_append_iff.mp parts with ⟨rfl, -⟩ | ⟨front, rfl, split⟩
    · exact ⟨le_rfl, fun _ => .nil⟩
    rw [Quote.hidesMark_outside quote] at shows
    rw [past_cons, pastComma_plain quote opening closing]
    obtain ⟨low, balanced⟩ := ih shows split depth
    exact ⟨low, fun outside => .plain quote opening closing (balanced outside)⟩

theorem Balanced.past_front_iff {t front back : Text} (h : Balanced t)
    (shows : Quote.hidesMark .outside t = false) (parts : t = front ++ back) :
    Operand.past (none, 0) front = (none, 0) ↔ Balanced front := by
  refine ⟨(h.past_front shows parts 0).2, fun balanced => balanced.past ?_ 0⟩
  rw [parts] at shows
  exact (Quote.hidesMark_append_eq_false.mp shows).1

section Splitting

variable {t a b : Text}

theorem Balanced.splitComma_eq_some_iff (h : Balanced t)
    (shows : Quote.hidesMark .outside t = false) :
    splitComma none 0 t = some (a, b) ↔ t = a ++ ',' :: b ∧ Unsplit a := by
  rw [Operand.splitComma_eq_some_iff (s := (none, 0))]
  refine and_congr_right fun whole => ?_
  refine and_congr (h.past_front_iff shows whole) ?_
  refine forall_congr' fun front => forall_congr' fun back => imp_congr_right fun parts => ?_
  have parts' : t = front ++ ',' :: (back ++ ',' :: b) := by
    rw [whole, parts, List.append_assoc, List.cons_append]
  exact not_congr (h.past_front_iff shows parts')

theorem Balanced.splitComma_eq_none_iff (h : Balanced t)
    (shows : Quote.hidesMark .outside t = false) : splitComma none 0 t = none ↔ Unsplit t := by
  rw [Operand.splitComma_eq_none_iff (s := (none, 0)), Unsplit, and_iff_right h]
  refine forall_congr' fun front => forall_congr' fun back => imp_congr_right fun parts => ?_
  exact not_congr (h.past_front_iff shows parts)

theorem Unsplit.splitComma (h : Unsplit a) (shows : Quote.hidesMark .outside a = false) :
    splitComma none 0 (a ++ ',' :: b) = some (a, b) := by
  refine (Operand.splitComma_eq_some_iff (s := (none, 0))).mpr ⟨rfl, h.1.past shows 0, ?_⟩
  intro front back parts outside
  exact h.2 front back parts ((h.1.past_front_iff shows parts).mp outside)

end Splitting

section Blanks

variable {c : Char} {a b before : Text}

theorem plain_of_isBlank (h : isBlank c = true) :
    isQuoteMark c = false ∧ isOpening c = false ∧ isClosing c = false := by
  have apart {d : Char} (solid : isBlank d = false) : (c == d) = false := by
    rw [beq_eq_false_iff_ne]
    rintro rfl
    rw [h] at solid
    cases solid
  refine ⟨isQuoteMark_of_isBlank h, ?_, ?_⟩
  · rw [isOpening, apart rfl, apart rfl, apart rfl]
    rfl
  · rw [isClosing, apart rfl, apart rfl, apart rfl]
    rfl

theorem balanced_cons_blank (h : isBlank c = true) : Balanced (c :: a) ↔ Balanced a := by
  obtain ⟨quote, opening, closing⟩ := plain_of_isBlank h
  constructor
  · intro balanced
    cases balanced with
    | literal quote' =>
      rw [quote] at quote'
      cases quote'
    | group opens =>
      rw [opening] at opens
      cases opens
    | plain _ _ _ more => exact more
  · exact .plain quote opening closing

theorem balanced_blank_append (h : before.Blank) : Balanced (before ++ a) ↔ Balanced a := by
  induction before with
  | nil => rfl
  | cons c before ih =>
    rw [List.cons_append, balanced_cons_blank (h c (by simp))]
    exact ih fun d mem => h d (by simp [mem])

theorem hidesMark_blank_append (h : before.Blank) :
    Quote.hidesMark .outside (before ++ a) = Quote.hidesMark .outside a := by
  induction before with
  | nil => rfl
  | cons c before ih =>
    obtain ⟨quote, -, -⟩ := plain_of_isBlank (h c (by simp))
    rw [List.cons_append, Quote.hidesMark_outside quote]
    exact ih fun d mem => h d (by simp [mem])

theorem Unsplit.of_blank_append (blank : before.Blank) (h : Unsplit (before ++ a)) : Unsplit a := by
  refine ⟨(balanced_blank_append blank).mp h.1, fun front back parts balanced => ?_⟩
  apply h.2 (before ++ front) back (by rw [parts, List.append_assoc])
  exact (balanced_blank_append blank).mpr balanced

theorem dropWhile_blank_comma (a b : Text) :
    (a ++ ',' :: b).dropWhile isBlank = a.dropWhile isBlank ++ ',' :: b := by
  rw [List.dropWhile_append]
  cases left : a.dropWhile isBlank with
  | nil => rfl
  | cons c rest => rfl

theorem trim_comma (a b : Text) : trim (a ++ ',' :: b) = trimStart a ++ ',' :: trimEnd b := by
  rw [trim, trimStart, dropWhile_blank_comma, trimEnd]
  have back : (a.dropWhile isBlank ++ ',' :: b).reverse =
      b.reverse ++ ',' :: (a.dropWhile isBlank).reverse := by simp
  rw [back, dropWhile_blank_comma, trimEnd, trimStart]
  simp

theorem trim_trimStart (a : Text) : trim (trimStart a) = trim a := by
  rw [trim, trim, trimStart, trimStart, List.dropWhile_idempotent]

theorem trim_trimEnd (b : Text) : trim (trimEnd b) = trim b := by
  have split : b = trimEnd b ++ (b.reverse.takeWhile isBlank).reverse := by
    rw [trimEnd, ← List.reverse_append, List.takeWhile_append_dropWhile, List.reverse_reverse]
  have blank : Blank (b.reverse.takeWhile isBlank).reverse :=
    fun c mem => List.mem_takeWhile_imp (List.mem_reverse.mp mem)
  conv_rhs => rw [split]
  have nothing : Blank [] := fun _ mem => absurd mem List.not_mem_nil
  exact (trim_pad nothing blank (trimEnd b)).symm

/-- The two banks around a comma are the two sides of the operand, but for blanks. -/
theorem Unsplit.classifyDirect (h : Unsplit a) (shows : Quote.hidesMark .outside a = false)
    (apart : ∀ ending ∈ [[',', 'y'], [',', 'x'], [',', 's']],
      ¬ EndsIn (trim (a ++ ',' :: b)) ending) :
    classifyDirect (trim (a ++ ',' :: b)) = .blockMove (trim a) (trim b) := by
  have split : a.takeWhile isBlank ++ trimStart a = a := List.takeWhile_append_dropWhile
  have blank : Blank (a.takeWhile isBlank) := fun c mem => List.mem_takeWhile_imp mem
  have shows' : Quote.hidesMark .outside (trimStart a) = false := by
    rwa [← hidesMark_blank_append blank, split]
  have h' : Unsplit (trimStart a) := .of_blank_append blank (by rwa [split])
  rw [Operand.classifyDirect, byEnding_index_eq_none.mpr apart, trim_comma,
    h'.splitComma shows', ← trim_trimStart a, ← trim_trimEnd b]

end Blanks

/-- The splitter and expressions see literals in the same places of a text exactly if no backslash
in it hides the mark of a literal. Where none does, the splitter takes a balanced operand apart at
the first comma in front of which it is balanced, and the two sides of that comma are the banks. -/
theorem banks_apart (t : Text) :
    ((∀ front back, t = front ++ back →
      ((past (none, 0) front).1 = none ↔ front.foldl Quote.step .outside = .outside)) ↔
      Quote.hidesMark .outside t = false) ∧
    (Balanced t → Quote.hidesMark .outside t = false →
      (∀ a b, splitComma none 0 t = some (a, b) ↔ t = a ++ ',' :: b ∧ Unsplit a) ∧
      (splitComma none 0 t = none ↔ Unsplit t)) ∧
    (∀ a b, t = a ++ ',' :: b → Unsplit a → Quote.hidesMark .outside a = false →
      (∀ ending ∈ [[',', 'y'], [',', 'x'], [',', 's']], ¬ EndsIn (trim t) ending) →
      (Unmarked t → classify t = .blockMove (trim a) (trim b)) ∧
      (∀ text, classify t = .openIndirect text →
        classifyDirect text = .blockMove (trim a) (trim b))) := by
  refine ⟨alike_everywhere (s := (none, 0)) .outside t, ?_, ?_⟩
  · intro balanced shows
    exact ⟨fun a b => balanced.splitComma_eq_some_iff shows, balanced.splitComma_eq_none_iff shows⟩
  · rintro a b rfl unsplit shows apart
    have direct := unsplit.classifyDirect shows apart
    constructor
    · intro unmarked
      rw [classify_of_unmarked (by rw [trim_comma]; simp) unmarked, direct]
    · intro text opened
      rwa [Bytewise.eq_trim_of_openIndirect opened]

/-- A comma in a literal, behind a character that a backslash hides, and one in a group. -/
theorem banks_apart_nested :
    let source := "\"\\n,\" + (1,2) ".toList
    Balanced source ∧ Quote.hidesMark .outside source = false ∧ Unsplit source ∧
      classify (source ++ ",$7e".toList) = .blockMove "\"\\n,\" + (1,2)".toList "$7e".toList := by
  intro source
  have literal : Quote.Literal '"' ['\\', 'n', ',', '"'] :=
    .hidden 'n' (.plain (by decide) (by decide) .close)
  have numbers : Balanced ['1', ',', '2'] :=
    .plain rfl rfl rfl (.plain rfl rfl rfl (.plain rfl rfl rfl .nil))
  have group : Balanced ['(', '1', ',', '2', ')', ' '] :=
    .group rfl rfl numbers (.plain rfl rfl rfl .nil)
  have balanced : Balanced source :=
    .literal rfl literal (.plain rfl rfl rfl (.plain rfl rfl rfl (.plain rfl rfl rfl group)))
  have shows : Quote.hidesMark .outside source = false := by decide
  have unsplit : Unsplit source := ((banks_apart source).2.1 balanced shows).2.mp (by decide)
  refine ⟨balanced, shows, unsplit, ?_⟩
  apply ((banks_apart (source ++ ",$7e".toList)).2.2 source _ rfl unsplit shows _).1
  · exact fun c mem => by cases mem; decide
  · rw [← byEnding_index_eq_none]
    decide

/-- The literal of a quote mark is balanced and has no comma in it, and yet the comma behind it does
not split: the splitter takes the mark behind the backslash for the end of the literal. -/
theorem banks_joined :
    let operand := "'\\'',1".toList
    operand = "'\\''".toList ++ ',' :: "1".toList ∧ Balanced operand ∧ Unsplit "'\\''".toList ∧
      Unmarked operand ∧
      (∀ ending ∈ [[',', 'y'], [',', 'x'], [',', 's']], ¬ EndsIn (trim operand) ending) ∧
      splitComma none 0 operand = none ∧ classify operand = .address .plain operand ∧
      classify operand ≠ .blockMove "'\\''".toList "1".toList := by
  intro operand
  have literal : Quote.Literal '\'' ['\\', '\'', '\''] := .hidden '\'' .close
  have source : Balanced ['\'', '\\', '\'', '\''] := .literal rfl literal .nil
  have balanced : Balanced operand :=
    .literal rfl literal (.plain rfl rfl rfl (.plain rfl rfl rfl .nil))
  refine ⟨rfl, balanced, ⟨source, fun front back parts => ?_⟩, ?_, ?_, by decide, by decide,
    by decide⟩
  · have comma : ',' ∈ "'\\''".toList := by simp [parts]
    simp at comma
  · exact fun c mem => by cases mem; decide
  · rw [← byEnding_index_eq_none]
    decide

end Operand

end Assembler65816
