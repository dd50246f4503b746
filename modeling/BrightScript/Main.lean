import BrightScript.CommandLine
import BrightScript.Text.Lines

/-! The command as a program. The files of the project are listed on standard input, one path a
line; they are read before the command runs, and what it writes goes to disk after it has run. -/
namespace BrightScript.Main

partial def readLines (input : IO.FS.Stream) (done : List String) : IO (List String) := do
  let line ← input.getLine
  if line.isEmpty then return done.reverse
  let line := String.ofList (line.toList.filter fun c => c ≠ '\n' && c ≠ '\r')
  readLines input (if line.isEmpty then done else line :: done)

def names (path : String) : Location := (Path.parts path).filter (!Path.isIdle ·)

def readTree (current : Location) (paths : List String) : IO FileTree :=
  paths.foldlM (fun t (path : String) => do
    let bytes ← IO.FS.readBinFile path
    return t.put (t.base path ++ names path) (.file bytes)) (FileTree.empty current)

def writeChanges (before after : FileTree) : IO Unit := do
  for (at_, bytes) in before.changes after do
    IO.FS.createDirAll ("/" ++ "/".intercalate at_.dropLast)
    IO.FS.writeBinFile ("/" ++ "/".intercalate at_) bytes

def tell : CommandLine.Outcome → IO Unit
  | .usage => IO.eprintln CommandLine.usageText
  | .failed failure => IO.eprintln ("error: " ++ failure.message)
  | .finished _ out err => do
    IO.print (Text.unlines out)
    IO.eprint (Text.unlines err)

end BrightScript.Main

open BrightScript in
def main (args : List String) : IO UInt32 := do
  let current := Main.names (toString (← IO.currentDir))
  let before ← Main.readTree current (← Main.readLines (← IO.getStdin) [])
  let (after, outcome) := CommandLine.run before args
  Main.writeChanges before after
  Main.tell outcome
  return outcome.exitCode.toUInt32
