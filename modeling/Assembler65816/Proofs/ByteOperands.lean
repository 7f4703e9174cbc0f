import Assembler65816.Cpu.Operand
import Assembler65816.Proofs.ByteScanners

/-! # Classifying operands by offsets

The ending of an operand is matched backwards, byte by byte, and cut off where the match began. Two
banks are told apart at the first comma outside brackets, whose count is kept in 31 bits and a sign;
a text that is shorter than that never makes it overflow.
-/
namespace Assembler65816.Bytewise

open Text

def skipBack? (bytes : List Char) : Nat → Option Nat
  | 0 => some 0
  | stop + 1 => do
    if isAsciiBlank (← bytes[stop]?) then skipBack? bytes stop else return stop + 1

def stripFrom? (t : Text) : Text → Nat → Option (Option Text)
  | [], stop => (upTo? t stop).map some
  | want :: more, stop => do
    match ← skipBack? t.bytes stop with
    | 0 => return none
    | stop + 1 =>
      if (← t.bytes[stop]?).toLower == want.toLower then stripFrom? t more stop else return none

def stripEnding? (t ending : Text) : Option (Option Text) := stripFrom? t ending.reverse (size t)

section Endings

variable {t back : Text} {reversed : Text}

theorem skipBack?_eq (h : t = reversed.reverse ++ back) :
    skipBack? t.bytes (size reversed.reverse) =
      some (size (reversed.dropWhile isAsciiBlank).reverse) := by
  induction reversed generalizing back with
  | nil => rfl
  | cons c reversed ih =>
    rw [List.reverse_cons, List.append_assoc, List.singleton_append] at h
    obtain ⟨k, d, place, found, same⟩ := getElem?_bytes_last h
    rw [List.reverse_cons, place, skipBack?, found]
    by_cases blank : isAsciiBlank c = true
    · obtain rfl : d = c := by
        rcases same with rfl | ⟨-, wide⟩
        · rfl
        · rw [isAsciiBlank_of_isWide wide] at blank
          cases blank
      rw [size_append, size_narrow (isWide_of_isAsciiBlank blank)] at place
      obtain rfl : size reversed.reverse = k := by omega
      rw [List.dropWhile_cons_of_pos blank, ← ih h]
      simp [blank]
    · have other : isAsciiBlank d = false := by
        rcases same with rfl | ⟨wide, -⟩
        · simpa using blank
        · exact isAsciiBlank_of_isWide wide
      rw [List.dropWhile_cons_of_neg blank, List.reverse_cons, place]
      simp [other]

theorem toLower_of_isWide {c : Char} (h : isWide c = true) : c.toLower = c := by
  have top : ¬ c.val ≤ 'Z'.val := by
    have := of_decide_eq_true h
    rw [UInt32.le_iff_toNat_le]
    change ¬ c.toNat ≤ 90
    omega
  apply dif_neg
  intro upper
  exact top upper.2

theorem stripFrom?_eq {wants : Text} (narrow : ∀ want ∈ wants, isWide want.toLower = false)
    (h : t = reversed.reverse ++ back) :
    stripFrom? t wants (size reversed.reverse) =
      some ((Operand.stripBackwards reversed wants).map List.reverse) := by
  induction wants generalizing reversed back with
  | nil =>
    rw [stripFrom?, upTo?_eq h rfl]
    rfl
  | cons want more ih =>
    have split : reversed = reversed.takeWhile isAsciiBlank ++ reversed.dropWhile isAsciiBlank :=
      List.takeWhile_append_dropWhile.symm
    rw [stripFrom?, skipBack?_eq h, Operand.stripBackwards]
    cases left : reversed.dropWhile isAsciiBlank with
    | nil => rfl
    | cons c rest =>
      rw [left] at split
      have whole : t = rest.reverse ++ c :: ((reversed.takeWhile isAsciiBlank).reverse ++ back) := by
        rw [h, congrArg List.reverse split]
        simp
      obtain ⟨k, d, place, found, same⟩ := getElem?_bytes_last whole
      rw [List.reverse_cons, place]
      simp only [Option.bind_eq_bind, Option.bind_some, found]
      by_cases wide : isWide c = true
      · have wide' : isWide d = true := by
          rcases same with rfl | ⟨wide', -⟩
          · exact wide
          · exact wide'
        have narrow' := narrow want (by simp)
        rw [toLower_of_isWide wide, toLower_of_isWide wide', ne_of_isWide wide narrow',
          ne_of_isWide wide' narrow']
        rfl
      · obtain rfl : d = c := by
          rcases same with rfl | ⟨-, wide'⟩
          · rfl
          · exact absurd wide' wide
        have narrow' : isWide d = false := by simpa using wide
        rw [size_append, size_narrow narrow'] at place
        obtain rfl : size rest.reverse = k := by omega
        by_cases matches_ : d.toLower == want.toLower
        · rw [if_pos matches_, if_pos matches_]
          exact ih (fun w mem => narrow w (by simp [mem])) whole
        · rw [if_neg matches_, if_neg matches_]
          rfl

theorem stripEnding?_eq {ending : Text} (narrow : ∀ want ∈ ending, isWide want.toLower = false)
    (t : Text) : stripEnding? t ending = some (Operand.stripEnding t ending) := by
  have stripped := stripFrom?_eq (fun want mem => narrow want (List.mem_reverse.mp mem))
    (show t = t.reverse.reverse ++ [] by simp)
  rw [List.reverse_reverse] at stripped
  exact stripped

end Endings

def counted? (depth : Int) : Option Int :=
  if -0x80000000 ≤ depth ∧ depth < 0x80000000 then some depth else none

def splitCommaTurn (t : Text) (s : Option Char × Int) (i : Nat) (c : Char) :
    Option (Turn (Option Char × Int) (Option (Text × Text))) :=
  match s.1 with
  | some mark => some (.next (if c == mark then none else some mark, s.2) (i + 1))
  | none =>
    if isQuoteMark c then some (.next (some c, s.2) (i + 1))
    else if c == '(' || c == '[' || c == '{' then do
      return .next (none, ← counted? (s.2 + 1)) (i + 1)
    else if c == ')' || c == ']' || c == '}' then do
      return .next (none, ← counted? (s.2 - 1)) (i + 1)
    else if c == ',' && s.2 == 0 then do
      return .stop (some (← upTo? t i, ← from? t (i + 1)))
    else some (.next s (i + 1))

def splitComma? (t : Text) : Option (Option (Text × Text)) :=
  scan t.bytes (splitCommaTurn t) (fun _ _ => some none) (none, 0) 0

def pastComma (quote : Option Char) (depth : Int) (c : Char) : Option Char × Int :=
  match quote with
  | some mark => (if c == mark then none else some mark, depth)
  | none =>
    (if isQuoteMark c then some c else none,
      if c == '(' || c == '[' || c == '{' then depth + 1
      else if c == ')' || c == ']' || c == '}' then depth - 1
      else depth)

theorem splitComma_cons (quote : Option Char) (depth : Int) (c : Char) (rest : Text) :
    Operand.splitComma quote depth (c :: rest) =
      if quote = none ∧ c = ',' ∧ depth = 0 then some ([], rest)
      else (Operand.splitComma (pastComma quote depth c).1 (pastComma quote depth c).2 rest).map
        fun (front, back) => (c :: front, back) := by
  cases quote with
  | some mark => rfl
  | none =>
    by_cases comma : c = ',' ∧ depth = 0
    · obtain ⟨rfl, rfl⟩ := comma
      rfl
    · have comma' : ¬ (c == ',' && depth == 0) = true := by simpa using comma
      have comma'' : ¬ (none = (none : Option Char) ∧ c = ',' ∧ depth = 0) := by simpa using comma
      rw [Operand.splitComma, if_neg comma', if_neg comma'']
      rfl

theorem natAbs_pastComma (quote : Option Char) (depth : Int) (c : Char) :
    (pastComma quote depth c).2.natAbs ≤ depth.natAbs + 1 := by
  cases quote with
  | some mark => exact Nat.le_succ _
  | none =>
    simp only [pastComma]
    split
    · omega
    · split <;> omega

theorem splitCommaTurn_eq {t : Text} {quote : Option Char} {depth : Int} {i : Nat} {c : Char}
    (other : ¬ (quote = none ∧ c = ',' ∧ depth = 0)) (small : depth.natAbs + 1 < 2 ^ 31) :
    splitCommaTurn t (quote, depth) i c = some (.next (pastComma quote depth c) (i + 1)) := by
  have up : counted? (depth + 1) = some (depth + 1) := if_pos (by omega)
  have down : counted? (depth - 1) = some (depth - 1) := if_pos (by omega)
  cases quote with
  | some mark => rfl
  | none =>
    have comma : (c == ',' && depth == 0) = false := by simpa using other
    simp only [splitCommaTurn, pastComma, up, down, comma]
    by_cases quote : isQuoteMark c = true
    · rcases isQuoteMark_cases quote with rfl | rfl <;> rfl
    · rw [if_neg quote, if_neg quote]
      by_cases opening : (c == '(' || c == '[' || c == '{') = true
      · rw [if_pos opening, if_pos opening]
        rfl
      · rw [if_neg opening, if_neg opening]
        by_cases closing : (c == ')' || c == ']' || c == '}') = true
        · rw [if_pos closing, if_pos closing]
          rfl
        · rw [if_neg closing, if_neg closing]
          rfl

theorem pastComma_wide {quote : Option Char} (marked : ∀ mark ∈ quote, isQuoteMark mark = true)
    (depth : Int) {c : Char} (wide : isWide c = true) : pastComma quote depth c = (quote, depth) := by
  cases quote with
  | some mark =>
    rw [pastComma, ne_of_isWide wide (isWide_of_isQuoteMark (marked mark rfl))]
    rfl
  | none =>
    have ne (d : Char) (narrow : isWide d = false) : (c == d) = false := ne_of_isWide wide narrow
    rw [pastComma, isQuoteMark_of_isWide wide, ne '(' rfl, ne '[' rfl, ne '{' rfl, ne ')' rfl,
      ne ']' rfl, ne '}' rfl]
    rfl

theorem marked_pastComma {quote : Option Char} (marked : ∀ mark ∈ quote, isQuoteMark mark = true)
    (depth : Int) (c : Char) : ∀ mark ∈ (pastComma quote depth c).1, isQuoteMark mark = true := by
  intro mark mem
  cases quote with
  | some other =>
    simp only [pastComma] at mem
    split at mem
    · cases mem
    · exact marked mark mem
  | none =>
    simp only [pastComma] at mem
    split at mem
    · next quote =>
      cases mem
      exact quote
    · cases mem

theorem scan_splitComma {t front rest : Text} (h : t = front ++ rest) (short : size t < 2 ^ 31)
    {quote : Option Char} (marked : ∀ mark ∈ quote, isQuoteMark mark = true) {depth : Int}
    (few : depth.natAbs ≤ size front) :
    scan t.bytes (splitCommaTurn t) (fun _ _ => some none) (quote, depth) (size front) =
      some ((Operand.splitComma quote depth rest).map fun (a, b) => (front ++ a, b)) := by
  induction rest generalizing front quote depth with
  | nil =>
    rw [List.append_nil] at h
    rw [scan_end (getElem?_bytes_end (Nat.le_of_eq (by rw [h])))]
    cases quote <;> rfl
  | cons c rest ih =>
    rw [splitComma_cons]
    by_cases comma : quote = none ∧ c = ',' ∧ depth = 0
    · obtain ⟨rfl, rfl, rfl⟩ := comma
      have after : from? t (size front + 1) = some rest :=
        from?_eq (show t = front ++ [','] ++ rest by simp [h]) (by rw [size_append, size_narrow rfl])
      have stop : splitCommaTurn t (none, 0) (size front) ',' = some (.stop (some (front, rest))) := by
        simp [splitCommaTurn, isQuoteMark, upTo?_eq h rfl, after]
      rw [scan_stop (getElem?_bytes_narrow h rfl) stop]
      simp
    · have longer := size_ne_zero c []
      have whole : t = front ++ [c] ++ rest := by simp [h]
      have small : depth.natAbs + 1 < 2 ^ 31 := by
        rw [whole, size_append, size_append] at short
        omega
      have later := ih whole (marked_pastComma marked depth c)
        (Nat.le_trans (natAbs_pastComma quote depth c) (by rw [size_append]; omega))
      rw [if_neg comma, Option.map_map]
      refine Eq.trans (scan_char h ?_ ?_) (later.trans ?_)
      · intro _
        exact splitCommaTurn_eq comma small
      · intro wide i d wide'
        have other : ¬ (quote = none ∧ d = ',' ∧ depth = 0) := by
          rintro ⟨-, rfl, -⟩
          cases wide'
        have inert : splitCommaTurn t (quote, depth) i d = some (.next (quote, depth) (i + 1)) := by
          rw [splitCommaTurn_eq other small, pastComma_wide marked depth wide']
        rw [pastComma_wide marked depth wide]
        exact ⟨inert, inert⟩
      · congr 2
        funext parts
        simp

theorem splitComma?_eq {t : Text} (short : size t < 2 ^ 31) :
    splitComma? t = some (Operand.splitComma none 0 t) := by
  rw [splitComma?, ← size_nil,
    scan_splitComma (show t = [] ++ t from rfl) short (by rintro _ ⟨⟩) (Nat.zero_le _)]
  simp

def byEnding? (t : Text) : List (Text × Shape) → Option (Option Operand)
  | [] => some none
  | (ending, shape) :: more => do
    match ← stripEnding? t ending with
    | some front => return some (.address shape (trim front))
    | none => byEnding? t more

def classifyDirect? (t : Text) : Option Operand := do
  match ← byEnding? t Operand.indexEndings with
  | some operand => return operand
  | none =>
    match ← splitComma? t with
    | some (source, destination) => return .blockMove (trim source) (trim destination)
    | none => return .address .plain t

def classify? (t : Text) : Option Operand :=
  match trim t with
  | [] => some .empty
  | '#' :: rest => some (.immediate (trim rest))
  | '(' :: rest => do
    return (← byEnding? rest Operand.indirectEndings).getD (.openIndirect ('(' :: rest))
  | '[' :: rest => do
    return (← byEnding? rest Operand.indirectLongEndings).getD (.openIndirectLong ('[' :: rest))
  | text => classifyDirect? text

def isPlain (endings : List (Text × Shape)) : Bool :=
  endings.all fun entry => entry.1.all fun want => !isWide want.toLower

theorem byEnding?_eq {endings : List (Text × Shape)} (plain : isPlain endings = true) (t : Text) :
    byEnding? t endings = some (Operand.byEnding t endings) := by
  induction endings with
  | nil => rfl
  | cons entry more ih =>
    obtain ⟨ending, shape⟩ := entry
    rw [isPlain, List.all_cons, Bool.and_eq_true] at plain
    have narrow : ∀ want ∈ ending, isWide want.toLower = false := by
      intro want mem
      simpa using List.all_eq_true.mp plain.1 want mem
    rw [byEnding?, stripEnding?_eq narrow, Operand.byEnding]
    cases Operand.stripEnding t ending with
    | some front => rfl
    | none => exact ih plain.2

theorem classifyDirect?_eq {t : Text} (short : size t < 2 ^ 31) :
    classifyDirect? t = some (Operand.classifyDirect t) := by
  rw [classifyDirect?, byEnding?_eq rfl, splitComma?_eq short, Operand.classifyDirect]
  cases Operand.byEnding t Operand.indexEndings with
  | some operand => rfl
  | none =>
    simp only [Option.bind_eq_bind, Option.bind_some]
    cases Operand.splitComma none 0 t <;> rfl

theorem size_le_of_sublist {s t : Text} (h : s.Sublist t) : size s ≤ size t := by
  induction h with
  | slnil => exact Nat.le_refl 0
  | cons c _ ih =>
    rw [size_cons]
    omega
  | cons_cons c _ ih =>
    rw [size_cons, size_cons]
    omega

theorem trim_sublist (t : Text) : (trim t).Sublist t := by
  have front : (trimStart t).Sublist t := List.dropWhile_sublist _
  have back := (List.dropWhile_sublist isBlank (l := (trimStart t).reverse)).reverse
  rw [List.reverse_reverse] at back
  exact back.trans front

def isMarked : Text → Bool
  | c :: _ => c == '#' || c == '(' || c == '['
  | [] => true

theorem classify?_direct {t : Text} (h : isMarked (trim t) = false) :
    classify? t = classifyDirect? (trim t) := by
  rw [classify?]
  split
  · next found => cases found ▸ h
  · next found => cases found ▸ h
  · next found => cases found ▸ h
  · next found => cases found ▸ h
  · rfl

theorem classify_direct {t : Text} (h : isMarked (trim t) = false) :
    Operand.classify t = Operand.classifyDirect (trim t) := by
  rw [Operand.classify]
  split
  · next found => cases found ▸ h
  · next found => cases found ▸ h
  · next found => cases found ▸ h
  · next found => cases found ▸ h
  · rfl

theorem classify?_eq {t : Text} (short : size t < 2 ^ 31) :
    classify? t = some (Operand.classify t) := by
  have short' := Nat.lt_of_le_of_lt (size_le_of_sublist (trim_sublist t)) short
  by_cases marked : isMarked (trim t) = true
  · cases found : trim t with
    | nil => simp only [classify?, Operand.classify, found]
    | cons c rest =>
      simp only [found, isMarked, Bool.or_eq_true, beq_iff_eq] at marked
      rcases marked with (rfl | rfl) | rfl
      · simp only [classify?, Operand.classify, found]
      · simp only [classify?, Operand.classify, found]
        rw [byEnding?_eq rfl]
        rfl
      · simp only [classify?, Operand.classify, found]
        rw [byEnding?_eq rfl]
        rfl
  · have direct : isMarked (trim t) = false := by simpa using marked
    rw [classify?_direct direct, classify_direct direct]
    exact classifyDirect?_eq short'

theorem byEnding_address {t : Text} {endings : List (Text × Shape)} {form : Operand}
    (h : Operand.byEnding t endings = some form) :
    ∃ shape expression, form = .address shape expression := by
  induction endings with
  | nil => cases h
  | cons entry more ih =>
    rw [Operand.byEnding] at h
    split at h
    · cases h
      exact ⟨_, _, rfl⟩
    · exact ih h

theorem classifyDirect_ne_openIndirect (t text : Text) :
    Operand.classifyDirect t ≠ .openIndirect text := by
  rw [Operand.classifyDirect]
  split
  · next form found =>
    obtain ⟨shape, expression, rfl⟩ := byEnding_address found
    exact Operand.noConfusion
  · split <;> exact Operand.noConfusion

/-- An operand that is read again as a direct one is the whole operand. -/
theorem eq_trim_of_openIndirect {t text : Text} (h : Operand.classify t = .openIndirect text) :
    text = trim t := by
  rw [Operand.classify] at h
  split at h
  · cases h
  · cases h
  · next rest found =>
    cases ending : Operand.byEnding rest Operand.indirectEndings with
    | none =>
      rw [ending] at h
      cases h
      exact found.symm
    | some form =>
      obtain ⟨shape, expression, rfl⟩ := byEnding_address ending
      rw [ending] at h
      cases h
  · next rest found =>
    cases ending : Operand.byEnding rest Operand.indirectLongEndings with
    | none =>
      rw [ending] at h
      cases h
    | some form =>
      obtain ⟨shape, expression, rfl⟩ := byEnding_address ending
      rw [ending] at h
      cases h
  · exact absurd h (classifyDirect_ne_openIndirect _ _)

end Assembler65816.Bytewise
