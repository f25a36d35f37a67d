import PagedNets.CommandLine.Session

set_option autoImplicit false

namespace PagedNets.CommandLine.Disk

def read (path : String) : IO Content := do
  try discard (IO.FS.realPath path) catch _ => return .absent
  try
    match String.fromUTF8? (← IO.FS.readBinFile path) with
    | some text => return .text text
    | none => return .unreadable
  catch _ => return .unreadable

def write (path text : String) : IO Bool := do
  try
    let parts := (path.splitOn "/").reverse.dropWhile String.isEmpty
    let folder := String.intercalate "/" (parts.drop 1).reverse
    if folder != "" then IO.FS.createDirAll folder
    IO.FS.writeFile path text
    return true
  catch _ => return false

def deliver : Delivery → IO Ending
  | .screen text => return { status := .success, screen := text }
  | .file path text refused => do
    if ← write path text then return { status := .success } else return refused.ending

def run (words : List String) : IO Ending := do
  match Options.parse words with
  | .error r => return r.ending
  | .ok o =>
    match o.run (← read o.settings) (← read o.command.input) with
    | .ok delivery => deliver delivery
    | .error f => return f.ending

end PagedNets.CommandLine.Disk

def main (words : List String) : IO UInt32 := do
  let e ← PagedNets.CommandLine.Disk.run words
  IO.print e.screen
  IO.eprint e.complaint
  return e.status.code.toUInt32
