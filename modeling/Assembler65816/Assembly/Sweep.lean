import Assembler65816.Assembly.Work

/-! # Sweeps over unresolved symbols

A sweep tries the unresolved symbols again against the table alone, in order of name and in
rounds, until none is left, a round brings no progress or the rounds are used up. It settles
chains of equates without another pass over the lines.
-/

namespace Assembler65816.Work

def retry (w : Work) (name : Text) : Attempt × Work :=
  match w.symbols.retry name with
  | (.waiting (some missing), symbols) =>
    (.waiting (some missing), { w with symbols }.report (.waits name missing))
  | (attempt, symbols) => (attempt, { w with symbols })

/-- One round: tries the names in order and counts those that got a value. -/
def sweepRound (round : Nat) : List Text → Nat → Work → Except Fault Nat × Work
  | [], advanced, w => (.ok advanced, w)
  | name :: rest, advanced, w =>
    match w.retry name with
    | (.refused cause, w) => (.error cause, w)
    | (.advanced, w) => sweepRound round rest (advanced + 1) (w.report (.resolved name round))
    | (_, w) => sweepRound round rest advanced w

def sweep : Nat → Nat → Work → Option Fault × Work
  | 0, _, w => (none, w)
  | left + 1, round, w =>
    if w.symbols.unresolvedCount = 0 then (none, w)
    else
      match sweepRound round w.symbols.unresolvedNames 0 w with
      | (.error cause, w) => (some cause, w)
      | (.ok advanced, w) =>
        let w := w.report (.sweepRound round advanced w.symbols.unresolvedCount)
        if advanced = 0 then (none, w) else sweep left (round + 1) w

def retryAll (w : Work) : Work :=
  w.symbols.unresolvedNames.foldl (fun w name => (w.retry name).2) w

end Assembler65816.Work
