import Lunify.Command.Run

namespace Lunify

/-! ### The command line

The files below the working directory are read, the command is run on them, and what it printed
and changed is written. Paths from the root on are not known to a command. -/

def Text.toBytes (s : Text) : ByteArray :=
  ⟨s.toArray⟩

def Text.toName (s : Text) : String :=
  (String.fromUTF8? s.toBytes).getD ""

/-- The files and directories of an entry, with paths that start with `parents`. -/
partial def entriesOf (parents : String) (entry : IO.FS.DirEntry) :
    IO (List (Text × Option Text)) := do
  let path := parents ++ entry.fileName
  if ← entry.path.isDir then
    let inner ← (← entry.path.readDir).toList.mapM (entriesOf (path ++ "/"))
    return (utf8 path, none) :: inner.flatten
  else
    return [(utf8 path, some (← IO.FS.readBinFile entry.path).toList)]

def workingFiles : IO Files := do
  let entries ← (← (← IO.currentDir).readDir).toList.mapM (entriesOf "")
  return .ofList entries.flatten

/-- Reads an input to its end. -/
partial def readInput (input : IO.FS.Stream) : IO Text := do
  let piece ← input.read 65536
  if piece.isEmpty then return []
  return piece.toList ++ (← readInput input)

/-- Writes what is new in `later`. -/
def writeFiles (before later : Files) : IO Unit :=
  later.nodes.forM fun (place, node) => do
    let path := Text.toName (Text.join (utf8 "/") place)
    if before.node? place != some node then
      match node with
      | .directory => IO.FS.createDirAll path
      | .file content => IO.FS.writeBinFile path content.toBytes

end Lunify

open Lunify in
/-- Runs the program. The input is read for the console only. -/
def main (args : List String) : IO UInt32 := do
  let files ← workingFiles
  let stdin ← IO.getStdin
  let input ← if args.contains "console" then readInput stdin else pure []
  let historyPath? := (← IO.getEnv "HOME").map fun home =>
    Text.toName (Path.join (utf8 home) Console.historyName)
  let history? ← historyPath?.mapM fun path =>
    try return (← IO.FS.readBinFile path).toList catch _ => return []
  let outcome := Command.Invocation.outcome ⟨args.map utf8, files, input, history?⟩
  (← IO.getStdout).write outcome.out.toBytes
  (← IO.getStderr).write outcome.err.toBytes
  writeFiles files outcome.files
  match historyPath?, outcome.history? with
  | some path, some history => IO.FS.writeBinFile path history.toBytes
  | _, _ => pure ()
  return outcome.status.toUInt32
