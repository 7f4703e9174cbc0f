import Assembler65816.Assembly.Run
import Assembler65816.CommandLine.Options
import Assembler65816.Log.Record
import Assembler65816.Program.Machine

/-! # The program

Reads a source file, assembles it and writes the image, then writes the symbol table or logs it.
On its way it reports to the error stream what the log filter shows.
-/

namespace Assembler65816.Program

open CommandLine

def ioFailure (message path reason : String) : Failure :=
  { problem := Problem.about .io message (some (path ++ ": " ++ reason)) }

def decodeSource (path : String) : Except String Bytes → Except Failure Text
  | .error reason => .error (ioFailure "Unable to read source file" path reason)
  | .ok bytes =>
    match String.fromUTF8? ⟨bytes⟩ with
    | some text => .ok text.toList
    | none =>
      .error (ioFailure "Unable to read source file" path "stream did not contain valid UTF-8")

/-- Reads and assembles a source file. Without its text there is no assembly. -/
def assembleFile {m : Type → Type} [Monad m] (machine : Machine m) (path : String)
    (config : Config) : m (Ending × Option Assembly) := do
  match decodeSource path (← machine.read path) with
  | .error failure => return (.failed failure, none)
  | .ok text =>
    let (ending, a) := assemble config path text
    return (ending, some a)

def writeFile {m : Type → Type} [Monad m] (machine : Machine m) (what path : String)
    (content : Bytes) : m Ending := do
  match ← machine.write path content with
  | .ok () => return .done
  | .error (.create reason) => return .failed (ioFailure ("Unable to create " ++ what) path reason)
  | .error (.write reason) => return .failed (ioFailure ("Unable to write " ++ what) path reason)

def writeImage {m : Type → Type} [Monad m] (machine : Machine m) (a : Assembly) (path : String)
    (format : Format) : m Ending :=
  writeFile machine "output file" path (format.encode a.work.image)

/-- Assembles a file and writes its image. Answers the number of passes with the ending. -/
def buildFile {m : Type → Type} [Monad m] (machine : Machine m) (input output : String)
    (format : Format) (config : Config) : m (Ending × Nat) := do
  match ← assembleFile machine input config with
  | (.done, some a) => return (← writeImage machine a output format, a.work.pass)
  | (ending, _) => return (ending, 0)

def log {m : Type → Type} (machine : Machine m) (filter : Log.Filter) (notices : List Notice) :
    m Unit :=
  machine.report (Log.records filter notices)

def deliverSymbols {m : Type → Type} [Monad m] (machine : Machine m) (filter : Log.Filter)
    (a : Assembly) : Option String → m Ending
  | none => do
    log machine filter (Notice.ofTable a.work.symbols)
    return .done
  | some path =>
    writeFile machine "symbol file" path (unlines a.work.symbols.listing).toUTF8.data

def deliver {m : Type → Type} [Monad m] (machine : Machine m) (filter : Log.Filter)
    (options : Options) (a : Assembly) : m Ending := do
  match ← writeImage machine a options.output options.format with
  | .done =>
    log machine filter [.wrote a.work.image.size.toNat options.output a.work.pass]
    deliverSymbols machine filter a options.symbols
  | ending => return ending

def runOptions {m : Type → Type} [Monad m] (machine : Machine m) (filter : Log.Filter)
    (options : Options) : m Ending := do
  match ← assembleFile machine options.input options.config with
  | (ending, none) => return ending
  | (ending, some a) =>
    log machine filter a.work.log.toList
    match ending with
    | .done => deliver machine filter options a
    | ending => return ending

def versionText : String := "asm816 0.1.0"

def usageText : String := "Usage: asm816 [OPTIONS] [FILE]"

def helpText : List String :=
  ["Multi-pass 65816 assembler.",
   "",
   "Assembles one source file into a fixed-size ROM image. Output is a raw",
   "binary by default; --o64 prefixes the 16-bit load address and --hex writes",
   "Intel HEX. ROM size and base accept assembler expressions such as $8000.",
   "Set ASM816_LOG=debug to trace passes and symbol resolution.",
   "",
   usageText,
   "",
   "Options:",
   "  -a, --asm <FILE>      Assembly source file, instead of FILE",
   "  -o, --out <FILE>      Output image file [default: output.bin]",
   "  -r, --rom <EXPR>      ROM size in bytes [default: $8000]",
   "      --base <EXPR>     Fixed ROM base address; without it the first ORG sets the base",
   "  -f, --fill <hh>       Fill byte for unused ROM space [default: 00]",
   "      --o64             Write the load address before the image",
   "      --hex             Write Intel HEX",
   "  -s, --symbols <FILE>  Write the symbol table to FILE; without it the table is logged",
   "  -i, --ignore-info     No informational messages during the first pass",
   "  -w, --ignore-warn     No warnings during the first pass",
   "      --max-passes <N>  Greatest number of passes [default: 7]",
   "  -h, --help            Print help",
   "  -V, --version         Print version"]

def refusalText : Refusal → String
  | .unknownArgument => "error: unexpected argument"
  | .conflict => "error: an argument cannot be used twice or with another one"
  | .missingValue => "error: a value is required but none was supplied"
  | .badValue => "error: invalid value for '--max-passes <N>'"
  | .needlessValue => "error: unexpected value for an option"
  | .help | .version => ""

/-- The lines that a failure prints: its diagnostics, then the problem. -/
def failureLines (f : Failure) : List String :=
  f.diagnostics.map Diagnostic.inContext ++ [f.problem.render]

def conclude {m : Type → Type} [Monad m] (machine : Machine m) : Ending → m UInt32
  | .done => return 0
  | .failed failure => do
    machine.report (unlines (failureLines failure))
    return 1
  | .crashed => return 101

/-- Reports why the arguments are refused, or prints what they ask for instead of a run. -/
def refuse {m : Type → Type} [Monad m] (machine : Machine m) : Refusal → m UInt32
  | .help => do
    machine.print (unlines helpText)
    return 0
  | .version => do
    machine.print (unlines [versionText])
    return 0
  | refusal => do
    machine.report (unlines [refusalText refusal, "", usageText])
    return 2

/-- Runs the program on its arguments, with the log filter of its environment. Answers the exit
code. -/
def run {m : Type → Type} [Monad m] (machine : Machine m) (environment : Option String)
    (args : List String) : m UInt32 := do
  let (filter, faults) := Log.Filter.ofEnvironment environment
  machine.report (String.join (faults.map (·.warning)))
  match Arguments.read (args.map String.toList) with
  | .error refusal => refuse machine refusal
  | .ok arguments =>
    match Options.ofArguments arguments with
    | .error e => conclude machine (.failed { problem := e.problem })
    | .ok options => conclude machine (← runOptions machine filter options)

end Assembler65816.Program
