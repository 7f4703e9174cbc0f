import Assembler65816.Assembly.Notice
import Assembler65816.Regex.Read

/-! # Log filters

A filter is a list of directives between commas, and perhaps a regular expression behind a slash
that messages must match. A directive is a level for everything, or a target with an optional
level. A later directive for a target takes the place of an earlier one; of the directives that
apply to a message the one with the longest target counts, and of equally long ones the last. The
filter stands in for that of the logging library.
-/

namespace Assembler65816.Log

structure Directive where
  /-- The start of the targets it is about; without one it is about all of them. -/
  target : Option Text
  /-- The least grave level that is shown; nothing is shown when there is none. -/
  threshold : Option Level
  deriving DecidableEq, Repr

inductive FilterFault where
  | directive (text : Text)
  | slashes (text : Text)
  | pattern (text : Text) (fault : Regex.Fault)
  deriving DecidableEq, Repr

def FilterFault.message : FilterFault → String
  | .directive text => "invalid logging spec '" ++ String.ofList text ++ "'"
  | .slashes text => "invalid logging spec '" ++ String.ofList text ++ "' (too many '/'s)"
  | .pattern text fault => "invalid regex filter - " ++ fault.report text

def FilterFault.warning (f : FilterFault) : String := "warning: " ++ f.message ++ ", ignoring it\n"

def fields (mark : Char) : Text → List Text
  | [] => [[]]
  | c :: rest =>
    if c == mark then [] :: fields mark rest
    else
      match fields mark rest with
      | [] => [[c]]
      | field :: more => (c :: field) :: more

namespace Directive

def threshold? (t : Text) : Option (Option Level) :=
  match String.ofList (Text.lower t) with
  | "off" => some none
  | "error" => some (some .error)
  | "warn" => some (some .warn)
  | "info" => some (some .info)
  | "debug" | "trace" => some (some .debug)
  | _ => none

def read (t : Text) : Except FilterFault Directive :=
  match fields '=' t with
  | [word] =>
    match threshold? word with
    | some threshold => .ok ⟨none, threshold⟩
    | none => .ok ⟨some word, some .debug⟩
  | [target, level] =>
    if (Text.trim level).isEmpty then .ok ⟨some target, some .debug⟩
    else
      match threshold? (Text.trim level) with
      | some threshold => .ok ⟨some target, threshold⟩
      | none => .error (.directive (Text.trim level))
  | _ => .error (.directive t)

def targetLength (d : Directive) : Nat := d.target.elim 0 List.length

def applies (d : Directive) (target : Text) : Bool := d.target.all (Text.startsWith target)

def stronger (earlier later : Directive) : Directive :=
  if earlier.targetLength ≤ later.targetLength then later else earlier

/-- Directives with one more, in the place of the one for the same target if there is one. -/
def insert (new : Directive) : List Directive → List Directive
  | [] => [new]
  | d :: more => if d.target = new.target then new :: more else d :: insert new more

end Directive

structure Filter where
  directives : List Directive := []
  pattern : Option Regex := none

namespace Filter

def directivesOrDefault (f : Filter) : List Directive :=
  if f.directives.isEmpty then [⟨none, some .error⟩] else f.directives

def threshold (f : Filter) (target : Text) : Option Level :=
  match f.directivesOrDefault.filter (·.applies target) with
  | [] => none
  | first :: more => (more.foldl Directive.stronger first).threshold

def shows (f : Filter) (target : Text) (level : Level) (message : Text) : Bool :=
  (f.threshold target).any (·.rank ≤ level.rank) && f.pattern.all (·.occursIn message)

def addDirective (found : List Directive × List FilterFault) (t : Text) :
    List Directive × List FilterFault :=
  match Directive.read t with
  | .ok directive => (directive.insert found.1, found.2)
  | .error fault => (found.1, found.2 ++ [fault])

def readDirectives (t : Text) : List Directive × List FilterFault :=
  (((fields ',' t).map Text.trim).filter (!·.isEmpty)).foldl addDirective ([], [])

/-- The filter that a text writes, and the faults of the parts that are ignored. -/
def read (t : Text) : Filter × List FilterFault :=
  match fields '/' t with
  | [] => ({}, [])
  | [directives] => let (ds, faults) := readDirectives directives; ({ directives := ds }, faults)
  | [directives, pattern] =>
    let (ds, faults) := readDirectives directives
    match Regex.read pattern with
    | .ok r => ({ directives := ds, pattern := some r }, faults)
    | .error fault => ({ directives := ds }, faults ++ [.pattern pattern fault])
  | _ => ({}, [.slashes t])

/-- The filter of an environment; where none is set, informational messages are shown. -/
def ofEnvironment (value : Option String) : Filter × List FilterFault :=
  read (value.getD "info").toList

end Filter

end Assembler65816.Log
