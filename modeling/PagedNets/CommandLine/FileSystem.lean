import PagedNets.CommandLine.Run

/-!
A file system as a value. The parts of a path are followed one by one; each but the last must be a
folder. Writing makes the folders that are missing.
-/

set_option autoImplicit false

namespace PagedNets.CommandLine

abbrev Place := List String

/-- Where the program runs. The folder has no name, so no path leads into it from outside. -/
def home : Place := ["tmp", ""]

def commonFolders : List Place :=
  ["bin", "boot", "dev", "etc", "home", "lib", "media", "mnt", "opt", "proc", "root", "run", "sbin",
    "srv", "sys", "tmp", "usr", "var"].map fun name => [name]

/-- Can nothing be made at a place, because it belongs to the system itself? -/
def isSealed (p : Place) : Bool := p.head? == some "proc" || p.head? == some "sys"

/-- A file without a text of its own, by what becomes of a text that is written to it. -/
inductive Device where
  | sink
  /-- It is refused. -/
  | full
  | screen
  deriving DecidableEq, Repr

def devices : List (Place × Device) :=
  [(["dev", "null"], .sink), (["dev", "zero"], .sink), (["dev", "stderr"], .sink),
    (["dev", "full"], .full), (["dev", "stdout"], .screen)]

structure FileSystem where
  folders : List Place := commonFolders ++ [home]
  files : List (Place × String) := []
  deriving DecidableEq, Repr

namespace FileSystem

def maxPathBytes : Nat := 4095

def maxNameBytes : Nat := 255

def isPassable (path : String) : Bool :=
  path != "" && path.utf8ByteSize ≤ maxPathBytes &&
    (path.splitOn "/").all fun name => name.utf8ByteSize ≤ maxNameBytes

def start (path : String) : Place := if path.front == '/' then [] else home

/-- The steps of a path. A slash at its end asks for a folder, like a dot. -/
def steps (path : String) : List String :=
  let parts := path.splitOn "/"
  parts.filter (· != "") ++ (if parts.getLast? == some "" then ["."] else [])

/-- The place that one step leads to. There is nothing above the top. -/
def step (p : Place) (name : String) : Place :=
  if name = "." then p else if name = ".." then p.dropLast else p ++ [name]

def isFolder (s : FileSystem) (p : Place) : Bool := p.isEmpty || s.folders.contains p

def isFile (s : FileSystem) (p : Place) : Bool :=
  (devices.lookup p).isSome || (s.files.lookup p).isSome

def follow? (s : FileSystem) (p : Place) : List String → Option Place
  | [] => some p
  | name :: names => if s.isFolder p then s.follow? (step p name) names else none

def place? (s : FileSystem) (path : String) : Option Place :=
  if isPassable path then s.follow? (start path) (steps path) else none

/-- A device is read as an empty text. -/
def contentAt (s : FileSystem) (p : Place) : Content :=
  if s.isFolder p then .unreadable
  else if (devices.lookup p).isSome then .text ""
  else
    match s.files.lookup p with
    | some text => .text text
    | none => .absent

def read (s : FileSystem) (path : String) : Content :=
  match s.place? path with
  | some p => s.contentAt p
  | none => .absent

/-- Makes every folder on the way that is missing; none if a file is in the way. -/
def makeFolders? (s : FileSystem) (p : Place) : List String → Option FileSystem
  | [] => some s
  | name :: names =>
    let next := step p name
    if s.isFolder next then s.makeFolders? next names
    else if s.isFile next || isSealed next then none
    else makeFolders? { s with folders := s.folders ++ [next] } next names

/-- The file system after a text has been written, and what the screen has shown of it. -/
structure Written where
  system : FileSystem
  shown : String := ""
  deriving DecidableEq, Repr

def put? (s : FileSystem) (p : Place) (text : String) : Option Written :=
  match devices.lookup p with
  | some .sink => some { system := s }
  | some .full => none
  | some .screen => some { system := s, shown := text }
  | none =>
    if isSealed p then none
    else some { system := { s with files := s.files.filter (·.1 != p) ++ [(p, text)] } }

def write? (s : FileSystem) (path text : String) : Option Written :=
  (s.makeFolders? (start path) ((steps path).filter (· != ".")).dropLast).bind fun s =>
    (s.place? path).bind fun p => if s.isFolder p then none else s.put? p text

def ofFiles (files : List (String × String)) : FileSystem :=
  files.foldl
    (fun s file =>
      match s.write? file.1 file.2 with
      | some w => w.system
      | none => s)
    {}

def text? (s : FileSystem) (path : String) : Option String :=
  match s.read path with
  | .text text => some text
  | .absent | .unreadable => none

end FileSystem

end PagedNets.CommandLine
