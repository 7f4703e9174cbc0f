import Assembler65816.Proofs.ByteLines
import Assembler65816.Proofs.ByteStores
import Assembler65816.Proofs.OperandForms

/-! # Lines with code

A line is read by two scanners, one after the other, and inside block comments by none. Together
they cut the line at the first comment that stands outside its literals, whichever mark it has. What
is left of the lines of a file has no comment in it and opens no block comment, so that reading it
again leaves all of it.
-/
namespace Assembler65816

open Text

/-- Which part of a text stands before the first place outside literals where `stop` accepts. -/
theorem Quote.cut_eq_iff {stop : Text → Bool} {q : Quote} {t front back : Text} :
    q.cut stop t = (front, back) ↔ t = front ++ back ∧
      (back = [] ∨ front.foldl Quote.step q = .outside ∧ stop back = true) ∧
      ∀ f b, front = f ++ b → b ≠ [] → f.foldl Quote.step q = .outside →
        stop (b ++ back) = false := by
  induction t generalizing q front with
  | nil =>
    constructor
    · intro same
      cases same
      refine ⟨rfl, .inl rfl, fun f b parts unread => ?_⟩
      exact absurd (List.nil_eq_append_iff.mp parts).2 unread
    · rintro ⟨whole, -, -⟩
      obtain ⟨rfl, rfl⟩ := List.nil_eq_append_iff.mp whole
      rfl
  | cons c rest ih =>
    by_cases here : q = .outside ∧ stop (c :: rest) = true
    · obtain ⟨rfl, stops⟩ := here
      have cuts : Quote.outside.cut stop (c :: rest) = ([], c :: rest) := by
        simp [Quote.cut, stops]
      rw [cuts, Prod.mk.injEq]
      constructor
      · rintro ⟨rfl, rfl⟩
        refine ⟨rfl, .inr ⟨rfl, stops⟩, fun f b parts unread => ?_⟩
        exact absurd (List.nil_eq_append_iff.mp parts).2 unread
      · rintro ⟨whole, -, first⟩
        cases front with
        | nil => exact ⟨rfl, whole⟩
        | cons d front =>
          have missed := first [] (d :: front) rfl (by simp) rfl
          rw [← whole, stops] at missed
          cases missed
    · have passes : (decide (q = .outside) && stop (c :: rest)) = false := by simpa using here
      have cuts : q.cut stop (c :: rest) =
          (c :: ((q.step c).cut stop rest).1, ((q.step c).cut stop rest).2) := by
        simp [Quote.cut, passes]
      rw [cuts, Prod.mk.injEq]
      constructor
      · rintro ⟨rfl, rfl⟩
        obtain ⟨whole, ends, first⟩ := (ih (q := q.step c)).mp rfl
        refine ⟨by rw [List.cons_append, ← whole], ends, ?_⟩
        rintro (_ | ⟨d, f⟩) b parts unread outside
        · rw [List.nil_append] at parts
          rw [← parts, List.cons_append, ← whole]
          simpa [show q = .outside from outside] using passes
        · obtain ⟨rfl, split⟩ := List.cons.inj parts
          exact first f b split unread outside
      · rintro ⟨whole, ends, first⟩
        cases front with
        | nil =>
          rcases ends with rfl | ⟨outside, stops⟩
          · cases whole
          · rw [List.nil_append] at whole
            rw [← whole] at stops
            exact absurd ⟨outside, stops⟩ here
        | cons d front =>
          obtain ⟨rfl, split⟩ := List.cons.inj whole
          have later : (q.step c).cut stop rest = (front, back) := by
            refine ih.mpr ⟨split, ends, fun f b parts unread outside => ?_⟩
            exact first (c :: f) b (by rw [parts, List.cons_append]) unread outside
          rw [later]
          exact ⟨rfl, rfl⟩

namespace Comment

def Starts (front back : Text) : Prop :=
  front.foldl Quote.step .outside = .outside ∧ (back.head? = some ';' ∨ ['/', '/'] <+: back)

def Before (raw front : Text) : Prop :=
  ∃ back, raw = front ++ back ∧ (back = [] ∨ Starts front back) ∧
    ∀ f b, front = f ++ b → b ≠ [] → ¬ Starts f (b ++ back)

def startsEither (t : Text) : Bool := startsSemicolon t || startsSlashes t

theorem startsEither_iff {t : Text} :
    startsEither t = true ↔ t.head? = some ';' ∨ ['/', '/'] <+: t := by
  rw [startsEither, Bool.or_eq_true, startsSemicolon, beq_iff_eq, startsSlashes, startsWith,
    List.isPrefixOf_iff_prefix]

/-- Whether two slashes come next does not depend on what a semicolon cuts off. -/
theorem startsSlashes_cut (c : Char) (rest : Text) (q : Quote) :
    startsSlashes (c :: ((q.step c).cut startsSemicolon rest).1) = startsSlashes (c :: rest) := by
  rw [startsSlashes, startsSlashes, startsWith, startsWith, List.isPrefixOf, List.isPrefixOf]
  congr 1
  cases rest with
  | nil => rfl
  | cons d rest =>
    rw [Quote.cut]
    split
    · next stops =>
      have semicolon : d = ';' := by
        simp only [Bool.and_eq_true, startsSemicolon, List.head?_cons, beq_iff_eq] at stops
        exact Option.some.inj stops.2
      rw [semicolon]
      rfl
    · rfl

/-- The two scanners cut a line where one scanner for both marks does. -/
theorem cut_cut (q : Quote) (t : Text) :
    (q.cut startsSlashes (q.cut startsSemicolon t).1).1 = (q.cut startsEither t).1 := by
  induction t generalizing q with
  | nil => rfl
  | cons c rest ih =>
    by_cases semicolon : q = .outside ∧ startsSemicolon (c :: rest) = true
    · obtain ⟨rfl, starts⟩ := semicolon
      simp [Quote.cut, starts, startsEither]
    · have passes : (decide (q = .outside) && startsSemicolon (c :: rest)) = false := by
        simpa using semicolon
      have cuts : (q.cut startsSemicolon (c :: rest)).1 =
          c :: ((q.step c).cut startsSemicolon rest).1 := by simp [Quote.cut, passes]
      have both : (decide (q = .outside) && startsEither (c :: rest)) =
          (decide (q = .outside) && startsSlashes (c :: rest)) := by
        rw [startsEither, Bool.and_or_distrib_left, passes, Bool.false_or]
      rw [cuts, Quote.cut, startsSlashes_cut, Quote.cut, both]
      split
      · rfl
      · exact congrArg (c :: ·) (ih (q.step c))

theorem before_iff {raw front : Text} :
    Before raw front ↔ (Quote.outside.cut startsEither raw).1 = front := by
  have starts (f b : Text) : Starts f b ↔
      f.foldl Quote.step .outside = .outside ∧ startsEither b = true := by
    rw [Starts, startsEither_iff]
  constructor
  · rintro ⟨back, whole, ends, first⟩
    have cuts : Quote.outside.cut startsEither raw = (front, back) := by
      refine Quote.cut_eq_iff.mpr ⟨whole, ends.imp_right (starts front back).mp, ?_⟩
      intro f b parts unread outside
      rw [← Bool.not_eq_true]
      exact fun stops => first f b parts unread ((starts f (b ++ back)).mpr ⟨outside, stops⟩)
    rw [cuts]
  · rintro rfl
    obtain ⟨whole, ends, first⟩ :=
      Quote.cut_eq_iff.mp (rfl : Quote.outside.cut startsEither raw = _)
    refine ⟨_, whole, ends.imp_right (starts _ _).mpr, fun f b parts unread stops => ?_⟩
    have outside := (starts _ _).mp stops
    rw [first f b parts unread outside.1] at outside
    cases outside.2

/-- The code of a line is what stands in front of its first comment, but for blanks. -/
theorem code_eq_iff {raw text : Text} :
    code raw = text ↔ ∃ front, Before raw front ∧ text = trim front := by
  simp only [before_iff]
  rw [code, stripSlashes, splitSemicolon, cut_cut]
  constructor
  · rintro rfl
    exact ⟨_, rfl, rfl⟩
  · rintro ⟨_, rfl, rfl⟩
    rfl

theorem foldl_blank {t : Text} (blank : t.Blank) : t.foldl Quote.step .outside = .outside := by
  induction t with
  | nil => rfl
  | cons c t ih =>
    have plain := isQuoteMark_of_isBlank (blank c (by simp))
    rw [List.foldl_cons, Quote.step_outside plain]
    exact ih fun d mem => blank d (by simp [mem])

theorem Starts.widen {front back before after : Text} (h : Starts front back)
    (blank : before.Blank) : Starts (before ++ front) (back ++ after) := by
  obtain ⟨outside, mark⟩ := h
  refine ⟨by rw [List.foldl_append, foldl_blank blank, outside], ?_⟩
  rcases mark with semicolon | slashes
  · exact .inl (by rw [List.head?_append, semicolon]; rfl)
  · exact .inr (slashes.trans (List.prefix_append back after))

theorem Before.trimmed {raw front : Text} (h : Before raw front) :
    Before (trim front) (trim front) := by
  obtain ⟨back, rfl, -, first⟩ := h
  obtain ⟨before, after, whole, blank, -⟩ := trim_frame front
  refine ⟨[], by simp, .inl rfl, fun f b parts unread starts => ?_⟩
  rw [List.append_nil] at starts
  refine first (before ++ f) (b ++ after) ?_ (by simp [unread]) ?_
  · rw [whole, parts]
    simp only [List.append_assoc]
  · rw [List.append_assoc]
    exact starts.widen blank

theorem trim_idem (t : Text) : trim (trim t) = trim t :=
  Expression.trim_eq_self (trimmed_trim t).head (trimmed_trim t).last

theorem code_code (raw : Text) : code (code raw) = code raw := by
  obtain ⟨front, before, same⟩ := code_eq_iff.mp (rfl : code raw = code raw)
  rw [same]
  exact code_eq_iff.mpr ⟨_, before.trimmed, (trim_idem front).symm⟩

end Comment

namespace SourceLine

def Opens (raw : Text) : Prop := ['/', '*'] <+: trim raw

def Closes (raw : Text) : Prop := ['*', '/'] <+: trim raw ∨ ['*', '/'] <:+ trim raw

def ClosesItself (raw : Text) : Prop := ['*', '/'] <:+ trim raw ∧ 4 ≤ size (trim raw)

inductive Outside (raws : List Text) : Nat → Prop where
  | start : Outside raws 0
  | plain {k : Nat} {raw : Text} (before : Outside raws k) (here : raws[k]? = some raw)
      (plain : ¬ Opens raw) : Outside raws (k + 1)
  | line {k : Nat} {raw : Text} (before : Outside raws k) (here : raws[k]? = some raw)
      (opens : Opens raw) (closes : ClosesItself raw) : Outside raws (k + 1)
  | block {k m : Nat} {first last : Text} (before : Outside raws k) (here : raws[k]? = some first)
      (opens : Opens first) (stays : ¬ ClosesItself first) (later : k < m)
      (inside : ∀ j raw, k < j → j < m → raws[j]? = some raw → ¬ Closes raw)
      (there : raws[m]? = some last) (closes : Closes last) : Outside raws (m + 1)

section Block

variable {raw : Text}

theorem opensBlock_iff : opensBlock (trim raw) = true ↔ Opens raw := by
  rw [opensBlock, startsWith, List.isPrefixOf_iff_prefix]
  rfl

theorem closesBlock_iff : closesBlock (trim raw) = true ↔ Closes raw := by
  rw [closesBlock, Bool.or_eq_true, startsWith, endsWith, List.isPrefixOf_iff_prefix,
    List.isSuffixOf_iff_suffix]
  rfl

/-- A text with both marks that is too short to hold them apart has characters of one byte only. -/
theorem closesOwnBlock_iff (opens : Opens raw) :
    closesOwnBlock (trim raw) = true ↔ ClosesItself raw := by
  rw [closesOwnBlock, Bool.and_eq_true, endsWith, List.isSuffixOf_iff_suffix, decide_eq_true_iff,
    ClosesItself]
  refine and_congr_right fun ends => ⟨fun long => long.trans (length_le_size _), fun large => ?_⟩
  by_contra short
  obtain ⟨after, whole⟩ : ['/', '*'] <+: trim raw := opens
  obtain ⟨before, whole'⟩ := ends
  rw [← whole] at large short whole'
  match after with
  | [] =>
    have last := congrArg List.getLast? whole'
    simp at last
  | [c] =>
    have last := congrArg List.getLast? whole'
    obtain rfl : '/' = c := by simpa using last
    exact absurd large (by decide)
  | _ :: _ :: _ => simp at short

theorem blockAfter_outside : blockAfter false raw = true ↔ Opens raw ∧ ¬ ClosesItself raw := by
  simp only [blockAfter, Bool.false_eq_true, if_false, Bool.and_eq_true, Bool.not_eq_true',
    ← Bool.not_eq_true, opensBlock_iff]
  exact and_congr_right fun opens => not_congr (closesOwnBlock_iff opens)

theorem blockAfter_inside : blockAfter true raw = true ↔ ¬ Closes raw := by
  simp only [blockAfter, if_true, Bool.not_eq_true', ← Bool.not_eq_true, closesBlock_iff]

end Block

section Kept

variable {raws : List Text} {k : Nat}

def openAt (raws : List Text) (k : Nat) : Bool := (raws.take k).foldl blockAfter false

theorem openAt_succ {raw : Text} (here : raws[k]? = some raw) :
    openAt raws (k + 1) = blockAfter (openAt raws k) raw := by
  rw [openAt, List.take_add_one, here, Option.toList_some, List.foldl_append]
  rfl

/-- An open block comment was opened outside all others, by a line that does not close it, and no
line has closed it since. -/
def OpenSince (raws : List Text) (k : Nat) : Prop :=
  ∃ i first, i < k ∧ Outside raws i ∧ raws[i]? = some first ∧ Opens first ∧ ¬ ClosesItself first ∧
    ∀ j raw, i < j → j < k → raws[j]? = some raw → ¬ Closes raw

theorem outside_or_openSince (inside : k ≤ raws.length) :
    (openAt raws k = true → OpenSince raws k) ∧ (openAt raws k = false → Outside raws k) := by
  induction k with
  | zero => exact ⟨nofun, fun _ => .start⟩
  | succ k ih =>
    have here : raws[k]? = some raws[k] := List.getElem?_eq_getElem inside
    obtain ⟨since, outside⟩ := ih (by omega)
    rw [openAt_succ here, ← Bool.not_eq_true]
    generalize raws[k] = raw at here
    cases state : openAt raws k with
    | false =>
      rw [blockAfter_outside]
      constructor
      · rintro ⟨opens, stays⟩
        exact ⟨k, raw, by omega, outside state, here, opens, stays, by omega⟩
      · intro shut
        by_cases opens : Opens raw
        · exact .line (outside state) here opens (not_not.mp fun stays => shut ⟨opens, stays⟩)
        · exact .plain (outside state) here opens
    | true =>
      obtain ⟨i, first, earlier, outside, there, opens, stays, inside⟩ := since state
      rw [blockAfter_inside]
      constructor
      · intro goes
        refine ⟨i, first, by omega, outside, there, opens, stays, fun j raw' after upTo at_ => ?_⟩
        rcases Nat.lt_succ_iff_lt_or_eq.mp upTo with lt | rfl
        · exact inside j raw' after lt at_
        · rw [here] at at_
          cases at_
          exact goes
      · intro closes
        exact .block outside there opens stays earlier inside here (not_not.mp closes)

theorem Outside.shut (h : Outside raws k) : openAt raws k = false := by
  induction h with
  | start => rfl
  | plain _ here plain ih =>
    rw [openAt_succ here, ih, ← Bool.not_eq_true, blockAfter_outside]
    exact fun block => plain block.1
  | line _ here opens closes ih =>
    rw [openAt_succ here, ih, ← Bool.not_eq_true, blockAfter_outside]
    exact fun block => block.2 closes
  | @block k m first last _ here opens stays later inside there closes ih =>
    have bound : m < raws.length := (List.getElem?_eq_some_iff.mp there).1
    -- The comment stays open up to the line that closes it.
    have goes (j : Nat) (after : k < j) : j ≤ m → openAt raws j = true := by
      induction j, after using Nat.le_induction with
      | base =>
        intro _
        rw [openAt_succ here, ih, blockAfter_outside]
        exact ⟨opens, stays⟩
      | succ j after ihj =>
        intro upTo
        have here' : raws[j]? = some raws[j] := List.getElem?_eq_getElem (by omega)
        rw [openAt_succ here', ihj (by omega), blockAfter_inside]
        exact inside j _ after (by omega) here'
    rw [openAt_succ there, goes m later le_rfl, ← Bool.not_eq_true, blockAfter_inside, not_not]
    exact closes

theorem openAt_eq_false_iff (inside : k ≤ raws.length) :
    openAt raws k = false ↔ Outside raws k :=
  ⟨(outside_or_openSince inside).2, Outside.shut⟩

/-- A line with code outside block comments stands at an index, its text being the code. -/
structure KeptAt (inBlock : Bool) (raws : List Text) (k : Nat) (line : SourceLine) : Prop where
  here : raws[k]? = some line.raw
  outside : (raws.take k).foldl blockAfter inBlock = false
  shut : opensBlock (trim line.raw) = false
  code : Comment.code line.raw = line.text
  nonempty : line.text ≠ []

/-- The first line is kept or not; the others are kept as lines of the tail are. -/
theorem exists_keptAt_cons {inBlock : Bool} {number : Nat} {raw : Text} {rest : List Text}
    {line : SourceLine} :
    (∃ k, line.number = number + k ∧ KeptAt inBlock (raw :: rest) k line) ↔
      (line.number = number ∧ KeptAt inBlock (raw :: rest) 0 line) ∨
        ∃ k, line.number = number + 1 + k ∧ KeptAt (blockAfter inBlock raw) rest k line := by
  constructor
  · rintro ⟨_ | k, place, kept⟩
    · exact .inl ⟨place, kept⟩
    · exact .inr ⟨k, by omega, kept.here, kept.outside, kept.shut, kept.code, kept.nonempty⟩
  · rintro (⟨place, kept⟩ | ⟨k, place, kept⟩)
    · exact ⟨0, place, kept⟩
    · exact ⟨k + 1, by omega, kept.here, kept.outside, kept.shut, kept.code, kept.nonempty⟩

theorem mem_collect {file : String} {inBlock : Bool} {number : Nat} {line : SourceLine} :
    line ∈ collect file inBlock number raws ↔
      line.file = file ∧ ∃ k, line.number = number + k ∧ KeptAt inBlock raws k line := by
  induction raws generalizing inBlock number with
  | nil =>
    have none : collect file inBlock number [] = [] := by cases inBlock <;> rfl
    rw [none]
    refine iff_of_false List.not_mem_nil ?_
    rintro ⟨-, k, -, here, -⟩
    cases here
  | cons raw rest ih =>
    rw [exists_keptAt_cons, and_or_left, ← ih]
    cases inBlock with
    | true =>
      rw [collect, or_iff_right]
      · rfl
      · exact fun kept => Bool.noConfusion kept.2.2.outside
    | false =>
      by_cases opens : opensBlock (trim raw) = true
      · have after : blockAfter false raw = !closesOwnBlock (trim raw) := by
          simp [blockAfter, opens]
        rw [collect, if_pos opens, after, or_iff_right]
        rintro ⟨-, -, kept⟩
        have shut := kept.shut
        rw [← Option.some.inj kept.here, opens] at shut
        cases shut
      · have shut : opensBlock (trim raw) = false := by simpa using opens
        have after : blockAfter false raw = false := by simp [blockAfter, shut]
        rw [after]
        by_cases empty : Comment.code raw = []
        · rw [collect, if_neg opens, empty, or_iff_right]
          rintro ⟨-, -, kept⟩
          have code := kept.code
          rw [← Option.some.inj kept.here, empty] at code
          exact kept.nonempty code.symm
        · rw [collect_code file number rest shut empty, List.mem_cons]
          refine or_congr ⟨?_, ?_⟩ Iff.rfl
          · rintro rfl
            exact ⟨rfl, rfl, rfl, rfl, shut, rfl, empty⟩
          · rintro ⟨rfl, rfl, kept⟩
            rw [Option.some.inj kept.here, kept.code]

theorem collect_ascending (file : String) (inBlock : Bool) (number : Nat) (raws : List Text) :
    (collect file inBlock number raws).Pairwise (·.number < ·.number) := by
  fun_induction collect file inBlock number raws with
  | case1 => exact .nil
  | case2 _ _ _ ih | case3 _ _ _ _ ih | case4 _ _ _ _ _ ih => exact ih
  | case5 number raw rest _ _ ih =>
    refine List.pairwise_cons.mpr ⟨fun line mem => ?_, ih⟩
    obtain ⟨-, k, place, -⟩ := mem_collect.mp mem
    change number < line.number
    omega

end Kept

structure Clean (t : Text) : Prop where
  nonempty : t ≠ []
  code : Comment.code t = t
  shut : opensBlock (trim t) = false
  feed : '\n' ∉ t
  carriage : t.getLast? ≠ some '\r'

theorem lines_intercalate {texts : List Text} (clean : ∀ t ∈ texts, Clean t) :
    lines (List.intercalate ['\n'] texts) = texts := by
  induction texts with
  | nil => rfl
  | cons t rest ih =>
    obtain ⟨nonempty, -, -, feed, carriage⟩ := clean t (by simp)
    cases rest with
    | nil => simpa using lines_single nonempty feed
    | cons t' rest =>
      rw [List.intercalate_cons_cons, List.append_assoc, List.singleton_append,
        lines_feed feed carriage, ih fun t mem => clean t (by simp [mem])]

theorem map_text_collect (file : String) {number : Nat} {texts : List Text}
    (clean : ∀ t ∈ texts, Clean t) : (collect file false number texts).map text = texts := by
  induction texts generalizing number with
  | nil => rfl
  | cons t rest ih =>
    have first := clean t (by simp)
    rw [collect_code file number rest first.shut (by rw [first.code]; exact first.nonempty),
      List.map_cons, first.code, ih fun t mem => clean t (by simp [mem])]

theorem trimEnd_cons {c : Char} (solid : isBlank c = false) (t : Text) :
    trimEnd (c :: t) = c :: trimEnd t := by
  rw [trimEnd, List.reverse_cons, List.dropWhile_append]
  split
  · next blank =>
    rw [List.isEmpty_iff] at blank
    simp [trimEnd, blank, solid]
  · simp [trimEnd]

/-- A mark that opens a block comment in the code of a line opens one in the line as well. -/
theorem opensBlock_code {raw : Text} (h : opensBlock (trim raw) = false) :
    opensBlock (trim (Comment.code raw)) = false := by
  obtain ⟨front, ⟨back, whole, -⟩, same⟩ := Comment.code_eq_iff.mp (rfl : Comment.code raw = _)
  rw [← Bool.not_eq_true, opensBlock_iff, Opens] at h ⊢
  rw [same, Comment.trim_idem]
  rintro ⟨more, parts⟩
  apply h
  obtain ⟨before, after, split, blank, -⟩ := trim_frame front
  have start : trimStart raw = '/' :: '*' :: (more ++ (after ++ back)) := by
    rw [whole, split, ← parts, trimStart, List.append_assoc, dropWhile_append_blank blank]
    simp [isBlank]
  rw [trim, start, trimEnd_cons rfl, trimEnd_cons rfl]
  exact ⟨_, rfl⟩

theorem clean_of_mem {file : String} {text : Text} {line : SourceLine}
    (h : line ∈ ofText file text) : Clean line.text := by
  obtain ⟨-, k, -, kept⟩ := mem_collect.mp h
  have mem : line.raw ∈ lines text := List.mem_of_getElem? kept.here
  have sub : line.text.Sublist line.raw := kept.code ▸ Bytewise.code_sublist line.raw
  refine ⟨kept.nonempty, ?_, ?_, ?_, ?_⟩
  · rw [← kept.code, Comment.code_code]
  · rw [← kept.code]
    exact opensBlock_code kept.shut
  · exact fun feed => not_mem_lines mem (sub.subset feed)
  · intro last
    obtain ⟨front, -, same⟩ := Comment.code_eq_iff.mp kept.code
    have solid := (trimmed_trim front).last '\r' (by rw [← same]; exact last)
    cases solid

/-- The lines of code of a file are, in order, the lines that stand outside block comments and have
text in front of their first comment. Read again, the code of all of them is kept as it is; and the
loops over bytes read the same lines as long as line numbers fit into 32 bits. -/
theorem ofText_exact (file : String) (source : Text) :
    (∀ line, line ∈ ofText file source ↔ line.file = file ∧ ∃ k, line.number = k + 1 ∧
      (lines source)[k]? = some line.raw ∧ Outside (lines source) k ∧ ¬ Opens line.raw ∧
      (∃ front, Comment.Before line.raw front ∧ line.text = trim front) ∧ line.text ≠ []) ∧
    (ofText file source).Pairwise (·.number < ·.number) ∧
    (∀ other, (ofText other (List.intercalate ['\n'] ((ofText file source).map text))).map text =
      (ofText file source).map text) ∧
    ((lines source).length < UInt32.size →
      Bytewise.sourceLines? file false 0 (lines source) = some (ofText file source)) := by
  refine ⟨fun line => ?_, collect_ascending file false 1 _, fun other => ?_, fun few => ?_⟩
  · rw [ofText, mem_collect]
    refine and_congr_right fun _ => exists_congr fun k => ?_
    rw [Nat.add_comm 1 k]
    refine and_congr_right fun _ => ?_
    constructor
    · rintro ⟨here, outside, shut, code, nonempty⟩
      have bound := (List.getElem?_eq_some_iff.mp here).1
      refine ⟨here, (openAt_eq_false_iff bound.le).mp outside, ?_, Comment.code_eq_iff.mp code,
        nonempty⟩
      rwa [← opensBlock_iff, Bool.not_eq_true]
    · rintro ⟨here, outside, shut, code, nonempty⟩
      refine ⟨here, outside.shut, ?_, Comment.code_eq_iff.mpr code, nonempty⟩
      rwa [← Bool.not_eq_true, opensBlock_iff]
  · have clean : ∀ t ∈ (ofText file source).map text, Clean t := by
      intro t mem
      obtain ⟨line, kept, rfl⟩ := List.mem_map.mp mem
      exact clean_of_mem kept
    rw [ofText, lines_intercalate clean, map_text_collect other clean]
  · exact Bytewise.sourceLines?_eq file (by omega) false

end SourceLine

end Assembler65816
