import Assembler65816.Text.Quote
import Mathlib.Algebra.Group.Nat.Defs
import Mathlib.Tactic.SplitIfs

/-! # Texts in bytes

A text is stored as its bytes in UTF-8, and a scanner that runs over the bytes knows a place in the
text by its offset. An offset between two characters splits the text; one inside a character does
not. The characters below `0x80` are single bytes, and every byte of another character is `0x80` or
more, so a byte that looks like a mark is that mark.
-/
namespace Assembler65816

namespace Text

def utf8 (t : Text) : List UInt8 := t.flatMap String.utf8EncodeChar

def size (t : Text) : Nat := t.utf8.length

def bytes (t : Text) : List Char := t.utf8.map Char.ofUInt8

@[simp] theorem size_nil : size [] = 0 := rfl

theorem size_cons (c : Char) (t : Text) : size (c :: t) = c.utf8Size + size t := by
  rw [size, utf8, List.flatMap_cons, List.length_append, String.length_utf8EncodeChar]
  rfl

@[simp] theorem size_append (s t : Text) : size (s ++ t) = size s + size t := by
  simp [size, utf8]

theorem length_le_size (t : Text) : t.length ≤ size t := by
  induction t with
  | nil => exact Nat.le_refl 0
  | cons c rest ih =>
    have := c.utf8Size_pos
    rw [List.length_cons, size_cons]
    omega

theorem size_ne_zero (c : Char) (t : Text) : size (c :: t) ≠ 0 := by
  have := c.utf8Size_pos
  rw [size_cons]
  omega

@[simp] theorem length_bytes (t : Text) : (bytes t).length = size t := by
  rw [bytes, List.length_map, size]

theorem bytes_append (s t : Text) : bytes (s ++ t) = bytes s ++ bytes t := by
  simp [bytes, utf8]

theorem utf8EncodeChar_lt {c d : Char} (h : c < d) (x y : List UInt8) :
    String.utf8EncodeChar c ++ x < String.utf8EncodeChar d ++ y := by
  have less : c.val.toNat < d.val.toNat := UInt32.lt_iff_toNat_lt.mp h
  have top : d.val.toNat < 0x110000 := by
    rcases d.valid with h | h <;> omega
  unfold String.utf8EncodeChar
  generalize c.val.toNat = m at *
  generalize d.val.toNat = n at *
  have sextets (k : Nat) : k / 4096 = k / 64 / 64 ∧ k / 262144 = k / 64 / 64 / 64 := by omega
  simp only [(sextets _).1, (sextets _).2]
  -- The first byte tells the lengths apart; within a length the sextets compare one by one.
  split_ifs <;> simp only [List.cons_append, List.nil_append, List.cons_lt_cons_iff,
    UInt8.lt_iff_toNat_lt, ← UInt8.toNat_inj, UInt8.toNat_ofNat'] <;> omega

theorem utf8_lt {a b : Text} (h : a < b) : a.utf8 < b.utf8 := by
  induction h with
  | @nil c rest =>
    rw [utf8, utf8, List.flatMap_cons]
    cases bytes : String.utf8EncodeChar c with
    | nil => exact absurd bytes String.utf8EncodeChar_ne_nil
    | cons byte more => exact List.Lex.nil
  | @rel c rest d more less => exact utf8EncodeChar_lt less _ _
  | @cons c rest more _ ih =>
    rw [utf8, utf8, List.flatMap_cons, List.flatMap_cons]
    exact List.append_left_lt ih

def isWide (c : Char) : Bool := 0x80 ≤ c.toNat

theorem ne_of_isWide {c d : Char} (wide : isWide c = true) (narrow : isWide d = false) :
    (c == d) = false := by
  apply beq_eq_false_iff_ne.mpr
  rintro rfl
  rw [wide] at narrow
  cases narrow

theorem size_narrow {c : Char} (h : isWide c = false) : size [c] = 1 := by
  have small : c.val.toNat < 0x80 := Nat.lt_of_not_le (of_decide_eq_false h)
  rw [size_cons, size_nil, Nat.add_zero, Char.utf8Size_eq_one_iff, UInt32.le_iff_toNat_le]
  exact Nat.le_of_lt_succ small

theorem bytes_narrow {c : Char} (h : isWide c = false) : bytes [c] = [c] := by
  have small : c.val.toNat < 0x80 := Nat.lt_of_not_le (of_decide_eq_false h)
  have byte : Char.ofUInt8 (UInt8.ofNat c.val.toNat) = c := by
    apply Char.ext
    apply UInt32.toNat_inj.mp
    change (UInt8.ofNat c.val.toNat).toUInt32.toNat = _
    rw [UInt8.toNat_toUInt32, UInt8.toNat_ofNat']
    omega
  rw [bytes, utf8, List.flatMap_cons, String.utf8EncodeChar, if_pos (Nat.le_of_lt_succ small)]
  simp only [List.flatMap_nil, List.append_nil, List.map_cons, List.map_nil, byte]

theorem le_of_mem_utf8EncodeChar {c : Char} (h : isWide c = true) :
    ∀ byte ∈ String.utf8EncodeChar c, 0x80 ≤ byte.toNat := by
  have wide : ¬ c.val.toNat ≤ 127 := Nat.not_le.mpr (of_decide_eq_true h)
  rw [String.utf8EncodeChar]
  generalize c.val.toNat = n at *
  rw [if_neg wide]
  split_ifs <;> simp only [List.forall_mem_cons, UInt8.toNat_ofNat', List.not_mem_nil,
    false_implies, implies_true, and_true] <;> omega

theorem isWide_of_mem_bytes {c d : Char} (h : isWide c = true) (mem : d ∈ bytes [c]) :
    isWide d = true := by
  obtain ⟨byte, part, rfl⟩ := List.mem_map.mp mem
  rw [utf8, List.flatMap_cons, List.flatMap_nil, List.append_nil] at part
  have top := le_of_mem_utf8EncodeChar h byte part
  apply decide_eq_true
  change 0x80 ≤ byte.toUInt32.toNat
  rw [UInt8.toNat_toUInt32]
  exact top

section Offsets

variable {t front rest : Text} {c : Char}

theorem getElem?_bytes_narrow (h : t = front ++ c :: rest) (narrow : isWide c = false) :
    (bytes t)[size front]? = some c := by
  rw [h, bytes_append, ← length_bytes front, List.getElem?_append_right (Nat.le_refl _),
    Nat.sub_self, show c :: rest = [c] ++ rest from rfl, bytes_append, bytes_narrow narrow]
  rfl

theorem getElem?_bytes_wide (h : t = front ++ c :: rest) (wide : isWide c = true) {j : Nat}
    (lt : j < size [c]) : ∃ d, (bytes t)[size front + j]? = some d ∧ isWide d = true := by
  have inside : j < (bytes [c]).length := by rwa [length_bytes]
  refine ⟨(bytes [c])[j], ?_, isWide_of_mem_bytes wide (List.getElem_mem inside)⟩
  rw [h, bytes_append, ← length_bytes front, List.getElem?_append_right (by omega),
    Nat.add_sub_cancel_left, show c :: rest = [c] ++ rest from rfl, bytes_append,
    List.getElem?_append_left inside, List.getElem?_eq_getElem inside]

/-- The byte after a narrow character is the first one of what follows. -/
theorem getElem?_bytes_next (h : t = front ++ c :: rest) (narrow : isWide c = false) :
    (bytes t)[size front + 1]? = (bytes rest).head? := by
  rw [h, bytes_append, ← length_bytes front, List.getElem?_append_right (by omega),
    Nat.add_sub_cancel_left, show c :: rest = [c] ++ rest from rfl, bytes_append,
    bytes_narrow narrow, List.head?_eq_getElem?]
  rfl

/-- The last byte of a character is the character itself, unless both are wide. -/
theorem getElem?_bytes_last (h : t = front ++ c :: rest) :
    ∃ k d, size (front ++ [c]) = k + 1 ∧ (bytes t)[k]? = some d ∧
      (d = c ∨ isWide d = true ∧ isWide c = true) := by
  by_cases wide : isWide c = true
  · have pos := Nat.pos_of_ne_zero (size_ne_zero c [])
    obtain ⟨d, found, wide'⟩ := getElem?_bytes_wide h wide (show size [c] - 1 < size [c] by omega)
    refine ⟨size front + (size [c] - 1), d, ?_, found, .inr ⟨wide', wide⟩⟩
    rw [size_append]
    omega
  · have narrow : isWide c = false := by simpa using wide
    refine ⟨size front, c, ?_, getElem?_bytes_narrow h narrow, .inl rfl⟩
    rw [size_append, size_narrow narrow]

theorem getElem?_bytes_end {i : Nat} (h : size t ≤ i) : (bytes t)[i]? = none := by
  apply List.getElem?_eq_none
  rwa [length_bytes]

theorem head?_bytes (t : Text) : (bytes t).head? = t.head? ∨
    ∃ c d, t.head? = some c ∧ (bytes t).head? = some d ∧ isWide c = true ∧ isWide d = true := by
  cases t with
  | nil => exact .inl rfl
  | cons c rest =>
    rw [show c :: rest = [c] ++ rest from rfl, bytes_append]
    by_cases wide : isWide c = true
    · cases parts : bytes [c] with
      | nil => exact absurd (congrArg List.length parts) (by simp [size_ne_zero])
      | cons d more =>
        exact .inr ⟨c, d, rfl, rfl, wide, isWide_of_mem_bytes wide (by simp [parts])⟩
    · rw [bytes_narrow (by simpa using wide)]
      exact .inl rfl

/-- A test that no wide character passes sees the same in the first byte and the first character. -/
theorem head?_bytes_any {p : Char → Bool} (narrow : ∀ d, isWide d = true → p d = false) :
    (bytes t).head?.any p = t.head?.any p := by
  rcases head?_bytes t with same | ⟨c, d, char, byte, wide, wide'⟩
  · rw [same]
  · rw [char, byte, Option.any_some, Option.any_some, narrow c wide, narrow d wide']

theorem head?_bytes_all {p : Char → Bool} (narrow : ∀ d, isWide d = true → p d = false) :
    (bytes t).head?.all p = t.head?.all p := by
  rcases head?_bytes t with same | ⟨c, d, char, byte, wide, wide'⟩
  · rw [same]
  · rw [char, byte, Option.all_some, Option.all_some, narrow c wide, narrow d wide']

end Offsets

def splitAt? : Text → Nat → Option (Text × Text)
  | t, 0 => some ([], t)
  | [], _ + 1 => none
  | c :: rest, i + 1 =>
    if c.utf8Size ≤ i + 1 then
      (splitAt? rest (i + 1 - c.utf8Size)).map fun (front, back) => (c :: front, back)
    else none

theorem splitAt?_eq_some {t front back : Text} {i : Nat} :
    splitAt? t i = some (front, back) ↔ t = front ++ back ∧ size front = i := by
  fun_induction splitAt? t i generalizing front with
  | case1 t =>
    constructor
    · rintro ⟨⟩
      exact ⟨rfl, rfl⟩
    · rintro ⟨rfl, none⟩
      cases front with
      | nil => rfl
      | cons c more => exact absurd none (size_ne_zero c more)
  | case2 i =>
    refine ⟨nofun, ?_⟩
    rintro ⟨nil, some⟩
    obtain ⟨rfl, rfl⟩ := List.append_eq_nil_iff.mp nil.symm
    cases some
  | case3 c rest i le ih =>
    rw [Option.map_eq_some_iff]
    constructor
    · rintro ⟨⟨front', back'⟩, found, ⟨⟩⟩
      obtain ⟨rfl, some⟩ := ih.mp found
      rw [size_cons]
      exact ⟨rfl, by omega⟩
    · rintro ⟨whole, some⟩
      cases front with
      | nil => cases some
      | cons d more =>
        rw [List.cons_append, List.cons.injEq] at whole
        obtain ⟨rfl, rfl⟩ := whole
        rw [size_cons] at some
        exact ⟨(more, back), ih.mpr ⟨rfl, by omega⟩, rfl⟩
  | case4 c rest i gt =>
    refine ⟨nofun, ?_⟩
    rintro ⟨whole, some⟩
    cases front with
    | nil => cases some
    | cons d more =>
      rw [List.cons_append, List.cons.injEq] at whole
      obtain ⟨rfl, rfl⟩ := whole
      rw [size_cons] at some
      omega

-- Between the two bytes of a character there is no such place.
example : splitAt? ['é', ';'] 1 = none := by decide

def upTo? (t : Text) (i : Nat) : Option Text := (splitAt? t i).map Prod.fst

def from? (t : Text) (i : Nat) : Option Text := (splitAt? t i).map Prod.snd

def slice? (t : Text) (i j : Nat) : Option Text := (upTo? t j).bind (from? · i)

section Parts

variable {t front middle back : Text} {i j : Nat}

theorem upTo?_eq (h : t = front ++ back) (hi : i = size front) : upTo? t i = some front := by
  rw [upTo?, splitAt?_eq_some.mpr ⟨h, hi.symm⟩]
  rfl

theorem from?_eq (h : t = front ++ back) (hi : i = size front) : from? t i = some back := by
  rw [from?, splitAt?_eq_some.mpr ⟨h, hi.symm⟩]
  rfl

theorem slice?_eq (h : t = front ++ middle ++ back) (hi : i = size front)
    (hj : j = size front + size middle) : slice? t i j = some middle := by
  rw [slice?, upTo?_eq h (by rw [hj, size_append])]
  exact from?_eq rfl hi

end Parts

end Text

inductive Turn (σ ρ : Type) where
  | next (state : σ) (offset : Nat)
  | stop (answer : ρ)

/-- A loop that reads the byte at its offset as long as there is one. There is no answer when a turn
has none, or when it does not move on. -/
def scan {σ ρ : Type} (bytes : List Char) (turn : σ → Nat → Char → Option (Turn σ ρ))
    (finish : σ → Nat → Option ρ) (state : σ) (i : Nat) : Option ρ :=
  if inside : i < bytes.length then
    match turn state i bytes[i] with
    | none => none
    | some (.stop answer) => some answer
    | some (.next state j) => if i < j then scan bytes turn finish state j else none
  else finish state i
termination_by bytes.length - i

section Scan

variable {σ ρ : Type} {bytes : List Char} {turn : σ → Nat → Char → Option (Turn σ ρ)}
  {finish : σ → Nat → Option ρ} {state state' : σ} {i j : Nat} {c : Char}

theorem scan_end (h : bytes[i]? = none) : scan bytes turn finish state i = finish state i := by
  rw [scan, dif_neg (Nat.not_lt.mpr (List.getElem?_eq_none_iff.mp h))]

theorem scan_next (h : bytes[i]? = some c) (moves : turn state i c = some (.next state' j))
    (lt : i < j) : scan bytes turn finish state i = scan bytes turn finish state' j := by
  obtain ⟨inside, rfl⟩ := List.getElem?_eq_some_iff.mp h
  rw [scan, dif_pos inside, moves]
  exact if_pos lt

theorem scan_stop {answer : ρ} (h : bytes[i]? = some c)
    (stops : turn state i c = some (.stop answer)) :
    scan bytes turn finish state i = some answer := by
  obtain ⟨inside, rfl⟩ := List.getElem?_eq_some_iff.mp h
  rw [scan, dif_pos inside, stops]

/-- A loop that takes no notice of wide bytes leaves a wide character from any place in it. -/
theorem scan_wide {t front rest : Text} (h : t = front ++ c :: rest)
    (wide : Text.isWide c = true)
    (inert : ∀ i d, Text.isWide d = true → turn state i d = some (.next state (i + 1)))
    (le : j ≤ Text.size [c]) :
    scan t.bytes turn finish state (Text.size front + j) =
      scan t.bytes turn finish state (Text.size (front ++ [c])) := by
  obtain ⟨left, total⟩ := Nat.exists_eq_add_of_le le
  rw [Text.size_append, total]
  induction left generalizing j with
  | zero => rfl
  | succ left ih =>
    obtain ⟨d, found, wide'⟩ := Text.getElem?_bytes_wide h wide (j := j) (by omega)
    rw [scan_next found (inert _ d wide') (Nat.lt_succ_self _), Nat.add_assoc,
      ih (by omega) (by omega), show j + 1 + left = j + (left + 1) by omega]

/-- A loop that moves by one byte passes one character: on a narrow one it takes one turn, and on a
wide one it takes notice of the first byte at most. -/
theorem scan_char {t front rest : Text} (h : t = front ++ c :: rest)
    (narrow : Text.isWide c = false →
      turn state (Text.size front) c = some (.next state' (Text.size front + 1)))
    (wide : Text.isWide c = true → ∀ i d, Text.isWide d = true →
      turn state i d = some (.next state' (i + 1)) ∧
      turn state' i d = some (.next state' (i + 1))) :
    scan t.bytes turn finish state (Text.size front) =
      scan t.bytes turn finish state' (Text.size (front ++ [c])) := by
  have pos := Nat.pos_of_ne_zero (Text.size_ne_zero c [])
  by_cases hc : Text.isWide c = true
  · obtain ⟨d, found, wide'⟩ := Text.getElem?_bytes_wide h hc pos
    rw [Nat.add_zero] at found
    rw [scan_next found (wide hc _ d wide').1 (Nat.lt_succ_self _)]
    exact scan_wide h hc (fun i d hd => (wide hc i d hd).2) pos
  · have hc : Text.isWide c = false := by simpa using hc
    rw [scan_next (Text.getElem?_bytes_narrow h hc) (narrow hc) (Nat.lt_succ_self _),
      Text.size_append, Text.size_narrow hc]

end Scan

end Assembler65816
