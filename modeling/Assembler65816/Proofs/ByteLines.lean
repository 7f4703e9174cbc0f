import Assembler65816.Proofs.ByteScanners
import Assembler65816.Source.Line
import Assembler65816.Source.Statement

/-! # Reading lines by offsets

A line is read with a cursor, the offset of the next character. The cursor moves by the size of the
character it passes, and words are cut out of the line between two of its places. The lines of a
file are counted in words of 32 bits, which the count of a text below that size never leaves.
-/
namespace Assembler65816.Bytewise

open Text

theorem lt_of_from?_eq_cons {t rest : Text} {pos : Nat} {c : Char}
    (h : from? t pos = some (c :: rest)) : pos < size t := by
  obtain ⟨⟨front, back⟩, split, rfl⟩ := Option.map_eq_some_iff.mp h
  obtain ⟨rfl, rfl⟩ := splitAt?_eq_some.mp split
  have := size_ne_zero c rest
  rw [size_append]
  omega

def peek? (t : Text) (pos : Nat) : Option (Option Char) := (from? t pos).map List.head?

def skipWhile? (p : Char → Bool) (t : Text) (pos : Nat) : Option Nat :=
  match _h : from? t pos with
  | none => none
  | some [] => some pos
  | some (c :: _) => if p c then skipWhile? p t (pos + c.utf8Size) else some pos
termination_by size t - pos
decreasing_by
  have := lt_of_from?_eq_cons _h
  have := c.utf8Size_pos
  omega

def takeWord? (t : Text) (pos : Nat) : Option (Option (Text × Nat)) := do
  match ← peek? t pos with
  | none => return none
  | some c =>
    if isNameChar c then
      let stop ← skipWhile? isNameChar t pos
      let word ← slice? t pos stop
      return some (word, stop)
    else return none

section Cursor

variable {t front rest : Text} (h : t = front ++ rest)
include h

theorem peek?_eq : peek? t (size front) = some rest.head? := by
  rw [peek?, from?_eq h rfl]
  rfl

theorem skipWhile?_unfold (p : Char → Bool) :
    skipWhile? p t (size front) =
      match rest.head? with
      | none => some (size front)
      | some c => if p c then skipWhile? p t (size front + c.utf8Size) else some (size front) := by
  have found := from?_eq h rfl
  rw [skipWhile?]
  split
  · next failed => cases found.symm.trans failed
  · next nil =>
    cases found.symm.trans nil
    rfl
  · next cons =>
    cases found.symm.trans cons
    rfl

theorem skipWhile?_eq (p : Char → Bool) :
    skipWhile? p t (size front) = some (size (front ++ rest.takeWhile p)) := by
  induction rest generalizing front with
  | nil => rw [skipWhile?_unfold h, List.head?_nil, List.takeWhile_nil, List.append_nil]
  | cons c rest ih =>
    rw [skipWhile?_unfold h, List.head?_cons]
    by_cases hc : p c = true
    · have later := ih (show t = front ++ [c] ++ rest by simp [h])
      rw [size_append, size_cons, size_nil, Nat.add_zero, List.append_assoc] at later
      rw [List.takeWhile_cons_of_pos hc]
      exact (if_pos hc).trans later
    · rw [List.takeWhile_cons_of_neg hc, List.append_nil]
      exact if_neg hc

theorem takeWord?_none (wordless : Text.takeWord rest = none) :
    takeWord? t (size front) = some none := by
  rw [takeWord?, peek?_eq h]
  cases rest with
  | nil => rfl
  | cons c rest =>
    have other : ¬ isNameChar c = true := by
      intro hc
      rw [Text.takeWord, List.takeWhile_cons_of_pos hc] at wordless
      cases wordless
    exact if_neg other

theorem takeWord?_some {word after : Text} (worded : Text.takeWord rest = some (word, after)) :
    takeWord? t (size front) = some (some (word, size (front ++ word))) := by
  have found : word = rest.takeWhile isNameChar := by
    rw [Text.takeWord] at worded
    split at worded
    · cases worded
    · cases worded
      rfl
  have parts := Text.takeWord_append worded
  have whole : t = front ++ word ++ after := by rw [List.append_assoc, parts, h]
  cases rest with
  | nil => exact absurd (List.append_eq_nil_iff.mp parts).1 (Text.takeWord_ne_nil worded)
  | cons c rest =>
    have name : isNameChar c = true := by
      apply Decidable.byContradiction
      intro other
      rw [List.takeWhile_cons_of_neg other] at found
      exact Text.takeWord_ne_nil worded found
    have cut := slice?_eq whole rfl (size_append front word)
    rw [takeWord?, peek?_eq h]
    simp only [List.head?_cons, Option.bind_eq_bind, Option.bind_some, if_pos name,
      skipWhile?_eq h, ← found, cut, Option.pure_def]

end Cursor

def equateExpression? (rest : Text) : Option (Option Text) := do
  let pos ← skipWhile? isSigil rest 0
  match ← takeWord? rest pos with
  | none => return none
  | some (word, pos) =>
    if sameLetters word ['e', 'q', 'u'] && (← peek? rest pos).all isBlank then
      return some (trim (← from? rest pos))
    else return none

theorem equateExpression?_eq (rest : Text) :
    equateExpression? rest = some (Statement.equateExpression? rest) := by
  have sigils : rest = [] ++ rest.takeWhile isSigil ++ skipSigils rest := by
    rw [skipSigils, List.nil_append, List.takeWhile_append_dropWhile]
  have start := skipWhile?_eq (show rest = [] ++ rest from rfl) isSigil
  rw [size_nil] at start
  rw [equateExpression?, start, Statement.equateExpression?]
  cases found : Text.takeWord (skipSigils rest) with
  | none =>
    simp only [Option.bind_eq_bind, Option.bind_some, takeWord?_none sigils found]
    rfl
  | some found' =>
    obtain ⟨word, after⟩ := found'
    have whole : rest = [] ++ rest.takeWhile isSigil ++ word ++ after := by
      rw [List.append_assoc, Text.takeWord_append found, ← sigils]
    simp only [Option.bind_eq_bind, Option.bind_some, takeWord?_some sigils found, peek?_eq whole,
      from?_eq whole rfl]
    split <;> rfl

/-- Reads a line from the cursor on, after the labels before it, in at most `limit` rounds. -/
def lineFrom? (t : Text) : Nat → Nat → List Text → Option ParsedLine
  | 0, _, _ => none
  | limit + 1, pos, labels => do
    let pos ← skipWhile? isBlank t pos
    let pos ← skipWhile? isSigil t pos
    match ← takeWord? t pos with
    | none =>
      match ← peek? t pos with
      | none => return ⟨labels, .nothing⟩
      | some _ => return ⟨labels, .faulty (.unexpectedText (← from? t pos))⟩
    | some (word, pos) =>
      if (← peek? t pos) == some ':' then
        lineFrom? t limit (pos + Char.utf8Size ':') (labels ++ [word])
      else
        let rest := trim (← from? t pos)
        let _ ← equateExpression? rest
        return ⟨labels, Statement.ofWord word rest⟩

def line? (t : Text) : Option ParsedLine := lineFrom? t (t.length + 1) 0 []

def lead (t : Text) : Text := t.takeWhile isBlank ++ (skipBlanks t).takeWhile isSigil

theorem lead_append (t : Text) : lead t ++ skipSigils (skipBlanks t) = t := by
  rw [lead, List.append_assoc, skipSigils, List.takeWhile_append_dropWhile, skipBlanks,
    List.takeWhile_append_dropWhile]

theorem peelLabels_of_none {t : Text} (h : ParsedLine.label? t = none) (limit : Nat) :
    ParsedLine.peelLabels limit t = ([], t) := by
  cases limit with
  | zero => rfl
  | succ limit => rw [ParsedLine.peelLabels, h]

/-- The loop over the labels reads what is left of the line as the two parts of it. -/
theorem lineFrom?_eq {t front rest : Text} {limit bound : Nat} (h : t = front ++ rest)
    (lt : rest.length < limit) (le : rest.length ≤ bound) (labels : List Text) :
    lineFrom? t limit (size front) labels =
      some ⟨labels ++ (ParsedLine.peelLabels bound rest).1,
        Statement.ofText (ParsedLine.peelLabels bound rest).2⟩ := by
  induction limit generalizing front rest bound labels with
  | zero => omega
  | succ limit ih =>
    have blanks : t = front ++ rest.takeWhile isBlank ++ skipBlanks rest := by
      rw [List.append_assoc, skipBlanks, List.takeWhile_append_dropWhile, h]
    have start : t = front ++ lead rest ++ skipSigils (skipBlanks rest) := by
      rw [List.append_assoc, lead_append, h]
    have passed : skipWhile? isSigil t (size (front ++ rest.takeWhile isBlank)) =
        some (size (front ++ lead rest)) := by
      rw [skipWhile?_eq blanks, lead, List.append_assoc]
    rw [lineFrom?, skipWhile?_eq h]
    simp only [Option.bind_eq_bind, Option.bind_some, passed]
    cases found : Text.takeWord (skipSigils (skipBlanks rest)) with
    | none =>
      have unlabelled : ParsedLine.label? rest = none := by rw [ParsedLine.label?, found]
      rw [takeWord?_none start found, peelLabels_of_none unlabelled]
      simp only [Option.bind_some, peek?_eq start, from?_eq start rfl, Statement.ofText, found,
        List.append_nil]
      cases skipSigils (skipBlanks rest) <;> rfl
    | some found' =>
      obtain ⟨word, after⟩ := found'
      have whole : t = front ++ lead rest ++ word ++ after := by
        rw [List.append_assoc, Text.takeWord_append found, ← start]
      rw [takeWord?_some start found]
      simp only [Option.bind_some, peek?_eq whole, from?_eq whole rfl, equateExpression?_eq]
      by_cases colon : after.head? = some ':'
      · obtain ⟨more, rfl⟩ : ∃ more, after = ':' :: more := by
          cases after with
          | nil => cases colon
          | cons c more =>
            cases colon
            exact ⟨more, rfl⟩
        have labelled : ParsedLine.label? rest = some (word, more) := by
          rw [ParsedLine.label?, found]
          rfl
        have shorter : more.length < rest.length := by
          have total : rest = lead rest ++ word ++ ':' :: more := by
            rw [List.append_assoc, Text.takeWord_append found, lead_append]
          have := congrArg List.length total
          simp only [List.length_append, List.length_cons] at this
          omega
        obtain ⟨bound, rfl⟩ := Nat.exists_eq_add_one_of_ne_zero (n := bound) (by omega)
        have later := @ih _ _ bound
          (show t = front ++ lead rest ++ word ++ [':'] ++ more by simp [whole])
          (by omega) (by omega) (labels ++ [word])
        rw [size_append, size_cons, size_nil, Nat.add_zero] at later
        rw [if_pos (beq_iff_eq.mpr colon), later, ParsedLine.peelLabels, labelled,
          List.append_assoc]
        rfl
      · have unlabelled : ParsedLine.label? rest = none := by
          rw [ParsedLine.label?, found]
          cases after with
          | nil => rfl
          | cons c more =>
            split
            · next eq =>
              cases eq
              exact absurd rfl colon
            · rfl
        rw [if_neg (by simpa using colon), peelLabels_of_none unlabelled]
        simp only [Statement.ofText, found, List.append_nil]
        rfl

theorem line?_eq (t : Text) : line? t = some (ParsedLine.ofText t) :=
  lineFrom?_eq (show t = [] ++ t from rfl) (Nat.lt_succ_self _) (Nat.le_refl _) []

def sourceLines? (file : String) : Bool → Nat → List Text → Option (List SourceLine)
  | _, _, [] => some []
  | inBlock, index, raw :: rest =>
    let number := index % UInt32.size + 1
    if number < UInt32.size then
      if inBlock then
        sourceLines? file (!SourceLine.closesBlock (trim raw)) (index + 1) rest
      else if SourceLine.opensBlock (trim raw) then
        sourceLines? file (!SourceLine.closesOwnBlock (trim raw)) (index + 1) rest
      else do
        let (code, _) ← splitSemicolon? raw
        let code ← stripSlashes? code
        let more ← sourceLines? file false (index + 1) rest
        match trim code with
        | [] => return more
        | code => return ⟨file, number, raw, code⟩ :: more
    else none

theorem sourceLines?_eq (file : String) {index : Nat} {lines : List Text}
    (h : index + lines.length < UInt32.size) (inBlock : Bool) :
    sourceLines? file inBlock index lines =
      some (SourceLine.collect file inBlock (index + 1) lines) := by
  induction lines generalizing index inBlock with
  | nil => cases inBlock <;> rfl
  | cons raw rest ih =>
    rw [List.length_cons] at h
    have number : index % UInt32.size = index := Nat.mod_eq_of_lt (by omega)
    have later : ∀ inBlock, sourceLines? file inBlock (index + 1) rest =
        some (SourceLine.collect file inBlock (index + 1 + 1) rest) := ih (by omega)
    rw [sourceLines?, number]
    simp only [if_pos (show index + 1 < UInt32.size by omega), later]
    cases inBlock with
    | true => rfl
    | false =>
      rw [SourceLine.collect]
      by_cases opens : SourceLine.opensBlock (trim raw) = true
      · simp [opens]
      · rw [if_neg opens, if_neg opens, splitSemicolon?_eq, Comment.code]
        simp only [Bool.false_eq_true, if_false, Option.bind_eq_bind, Option.bind_some,
          stripSlashes?_eq]
        cases trim (Comment.stripSlashes (Comment.splitSemicolon raw).1) <;> rfl

theorem length_lines_le (t : Text) : (lines t).length ≤ t.length := by
  fun_induction lines t with
  | case1 => exact Nat.le_refl 0
  | case2 rest ih | case3 rest ih =>
    simp only [List.length_cons]
    omega
  | case4 c rest _ _ _ ih => simp
  | case5 c rest _ _ line more found ih =>
    rw [found] at ih
    simp only [List.length_cons] at ih ⊢
    omega

theorem sourceLines?_ofText (file : String) {text : Text} (h : size text < UInt32.size) :
    sourceLines? file false 0 (lines text) = some (SourceLine.ofText file text) := by
  have := length_lines_le text
  have := length_le_size text
  exact sourceLines?_eq file (by omega) false

end Assembler65816.Bytewise
