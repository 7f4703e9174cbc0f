import Assembler65816.Text.Basic

/-! # Regular expressions

A search marks places of a text: place `i` lies before character `i`, and the last place after
all of them. A set of places is the number with these bits, so an expression carries a whole set of
places, where it may start, to the set where it may end. These modules stand in for the library that
the log filter takes its expressions from; only the outermost layer of the program uses them.
-/

namespace Assembler65816

abbrev CharSet := Char → Bool

namespace CharSet

def none : CharSet := fun _ => false

def single (c : Char) : CharSet := fun d => d == c

def range (low high : Char) : CharSet := fun c => low ≤ c && c ≤ high

def union (s t : CharSet) : CharSet := fun c => s c || t c

def inter (s t : CharSet) : CharSet := fun c => s c && t c

def diff (s t : CharSet) : CharSet := fun c => s c && !t c

def symmDiff (s t : CharSet) : CharSet := fun c => s c != t c

def compl (s : CharSet) : CharSet := fun c => !s c

def foldCase (s : CharSet) : CharSet := fun c => s c || s c.toUpper || s c.toLower

def word : CharSet := fun c => c.isAlphanum || c == '_'

end CharSet

/-- Conditions on a place of a text. Words are those of `CharSet.word`. -/
inductive Look where
  | textStart
  | textEnd
  | lineStart
  | lineEnd
  /-- The start of a line, where a carriage return may end the one before. -/
  | crlfStart
  | crlfEnd
  | wordBoundary
  | noWordBoundary
  | wordStart
  | wordEnd
  | noWordBefore
  | noWordAfter
  deriving DecidableEq, Repr

def Look.isAboutWords : Look → Bool
  | .wordBoundary | .noWordBoundary | .wordStart | .wordEnd | .noWordBefore | .noWordAfter => true
  | _ => false

/-- Whether a condition holds between two characters; a text has none before and after it. -/
def Look.holds (before after : Option Char) : Look → Bool
  | .textStart => before.isNone
  | .textEnd => after.isNone
  | .lineStart => before.all (· == '\n')
  | .lineEnd => after.all (· == '\n')
  | .crlfStart => before.all fun c => c == '\n' || (c == '\r' && after != some '\n')
  | .crlfEnd => after.all fun c => c == '\r' || (c == '\n' && before != some '\r')
  | .wordBoundary => before.any CharSet.word != after.any CharSet.word
  | .noWordBoundary => before.any CharSet.word == after.any CharSet.word
  | .wordStart => !before.any CharSet.word && after.any CharSet.word
  | .wordEnd => before.any CharSet.word && !after.any CharSet.word
  | .noWordBefore => !before.any CharSet.word
  | .noWordAfter => !after.any CharSet.word

inductive Regex where
  | empty
  | one (set : CharSet)
  | look (condition : Look)
  | seq (first second : Regex)
  | alt (first second : Regex)
  /-- At least `least` times, and at most `most` times if there is a bound. -/
  | repeated (body : Regex) (least : Nat) (most : Option Nat)

abbrev Places := Nat

namespace Places

def upTo (last : Nat) (test : Nat → Bool) : Places :=
  (List.range (last + 1)).foldl (fun places i => if test i then places + 1 <<< i else places) 0

def iterate (step : Places → Places) : Nat → Places → Places
  | 0, places => places
  | rounds + 1, places => iterate step rounds (step places)

def closure (step : Places → Places) : Nat → Places → Places
  | 0, places => places
  | rounds + 1, places =>
    let more := places ||| step places
    if more = places then places else closure step rounds more

end Places

namespace Regex

/-- The places where an expression may end when it starts at one of the given places. More rounds
of a repetition than places add nothing: each round either moves on or stays where it is. -/
def flow (text : Array Char) : Regex → Places → Places
  | empty, places => places
  | one set, places => (places &&& Places.upTo text.size fun i => text[i]?.any set) <<< 1
  | look condition, places =>
    places &&& Places.upTo text.size fun i =>
      condition.holds (if i = 0 then none else text[i - 1]?) text[i]?
  | seq first second, places => second.flow text (first.flow text places)
  | alt first second, places => first.flow text places ||| second.flow text places
  | repeated body least most, places =>
    let start := Places.iterate (body.flow text) (min least (text.size + 1)) places
    let rounds := most.elim (text.size + 1) fun bound => min (bound - least) (text.size + 1)
    Places.closure (body.flow text) rounds start

def occursIn (r : Regex) (text : Text) : Bool :=
  r.flow text.toArray (Places.upTo text.length fun _ => true) != 0

def concat : List Regex → Regex
  | [] => empty
  | [r] => r
  | r :: more => seq r (concat more)

def oneOf (first : Regex) : List Regex → Regex
  | [] => first
  | second :: more => alt first (oneOf second more)

end Regex

end Assembler65816
