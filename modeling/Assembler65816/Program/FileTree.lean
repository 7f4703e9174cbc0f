import Assembler65816.Program.Machine

/-! # File trees

Files, folders and devices in memory. A path is followed name by name, from the root or from the
working folder; every name but the last must lead to a folder. Conditions carry the text of the
operating system.
-/

namespace Assembler65816

inductive OsError where
  | noEntry
  | notDirectory
  | isDirectory
  | noSpace
  | nameTooLong
  | nulInName
  deriving DecidableEq, Repr

def OsError.text : OsError → String
  | .noEntry => "No such file or directory (os error 2)"
  | .notDirectory => "Not a directory (os error 20)"
  | .isDirectory => "Is a directory (os error 21)"
  | .noSpace => "No space left on device (os error 28)"
  | .nameTooLong => "File name too long (os error 36)"
  | .nulInName => "file name contained an unexpected NUL byte"

inductive Device where
  | null
  | full
  | outputStream
  | errorStream
  deriving DecidableEq, Repr

inductive Node where
  | file (content : Bytes)
  | folder
  | device (kind : Device)
  deriving DecidableEq, Repr

abbrev Place := List String

structure FileTree where
  nodes : List (Place × Node) := []
  deriving DecidableEq, Repr

structure Path where
  rooted : Bool
  names : List String
  /-- Whether a slash ends it, so that it can only name a folder. -/
  slashed : Bool
  deriving DecidableEq, Repr

namespace Path

def nameLimit : Nat := 255

def pathLimit : Nat := 4096

def read (path : String) : Except OsError Path :=
  if path.contains (Char.ofNat 0) then .error .nulInName
  else if path.isEmpty then .error .noEntry
  else if pathLimit ≤ path.utf8ByteSize then .error .nameTooLong
  else
    .ok {
      rooted := path.startsWith "/"
      names := (path.splitOn "/").filter (!·.isEmpty)
      slashed := path.endsWith "/" }

end Path

namespace FileTree

def get? (t : FileTree) (place : Place) : Option Node :=
  if place.isEmpty then some .folder else t.nodes.lookup place

def put (t : FileTree) (place : Place) (node : Node) : FileTree :=
  ⟨(place, node) :: t.nodes.filter (fun (p, _) => p != place)⟩

/-- The place of a name in a folder. The root is above itself. -/
def step (t : FileTree) (here : Place) (name : String) : Except OsError Place :=
  match t.get? here with
  | none => .error .noEntry
  | some .folder =>
    if name == "." then .ok here
    else if name == ".." then .ok here.dropLast
    else if Path.nameLimit < name.utf8ByteSize then .error .nameTooLong
    else .ok (here ++ [name])
  | some _ => .error .notDirectory

/-- The place where names lead; the last need not exist. -/
def walk (t : FileTree) (start : Place) (names : List String) : Except OsError Place :=
  names.foldlM t.step start

def find (t : FileTree) (working : Place) (path : Path) : Except OsError Node := do
  let place ← t.walk (if path.rooted then [] else working) path.names
  match t.get? place with
  | none => throw .noEntry
  | some .folder => throw .isDirectory
  | some node => if path.slashed then throw .notDirectory else return node

def target (t : FileTree) (working : Place) (path : Path) : Except OsError Place := do
  let here ← t.walk (if path.rooted then [] else working) path.names.dropLast
  match path.names.getLast? with
  | none => throw .isDirectory
  | some name =>
    let place ← t.step here (if path.slashed then "." else name)
    if path.slashed || t.get? place = some .folder then throw .isDirectory else return place

def rootFolders : List String :=
  ["bin", "boot", "dev", "etc", "home", "lib", "media", "mnt", "opt", "proc", "root", "run", "sbin",
    "srv", "sys", "tmp", "usr", "var"]

def devices : List (String × Device) :=
  [("null", .null), ("full", .full), ("stdin", .null), ("stdout", .outputStream),
    ("stderr", .errorStream)]

def workingFolder : Place := ["tmp", "work"]

def standard : FileTree :=
  ⟨(workingFolder, .folder) :: rootFolders.map (fun name => ([name], .folder)) ++
    devices.map (fun (name, kind) => (["dev", name], .device kind))⟩

end FileTree

/-- A file tree with the working folder in it, and what the streams have taken. -/
structure Desk where
  tree : FileTree := .standard
  output : Bytes := #[]
  errors : Bytes := #[]
  deriving DecidableEq, Repr

namespace Desk

def read (d : Desk) (path : String) : Except OsError Bytes := do
  match ← d.tree.find FileTree.workingFolder (← Path.read path) with
  | .file content => return content
  | _ => return #[]

def writeAt (d : Desk) (place : Place) (content : Bytes) : Except OsError Desk :=
  match d.tree.get? place with
  | some (.device .null) => .ok d
  | some (.device .full) => if content.isEmpty then .ok d else .error .noSpace
  | some (.device .outputStream) => .ok { d with output := d.output ++ content }
  | some (.device .errorStream) => .ok { d with errors := d.errors ++ content }
  | _ => .ok { d with tree := d.tree.put place (.file content) }

def write (d : Desk) (path : String) (content : Bytes) : Except WriteError Desk :=
  match Path.read path >>= d.tree.target FileTree.workingFolder with
  | .error e => .error (.create e.text)
  | .ok place => (d.writeAt place content).mapError fun e => .write e.text

def machine : Machine (StateM Desk) where
  read path := do return ((← get).read path).mapError OsError.text
  write path content := do
    match (← get).write path content with
    | .error e => return .error e
    | .ok d => set d; return .ok ()
  print text := modify fun d => { d with output := d.output ++ text.toUTF8.data }
  report text := modify fun d => { d with errors := d.errors ++ text.toUTF8.data }

end Desk

end Assembler65816
