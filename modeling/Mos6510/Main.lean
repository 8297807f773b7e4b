import Mos6510.Command

/-!
# The program

The outer layer: it fetches the files that a call looks at, writes those that
the call has made, and prints the report.  What a call does is said by
`Command.prepare` and `Command.Stage.finish`.
-/

namespace Mos6510.Main

/-- Fetch a file or folder of the host, if it is there. -/
def fetch (disk : Disk) (place : List String) : IO Disk := do
  let name := (← IO.currentDir) / Path.ofElements true place
  if ← name.isDir then return disk.put place .folder
  else if ← name.pathExists then
    return disk.put place (.file (← IO.FS.readBinFile name).toList)
  else return disk

/-- Prepare the call until every file that it looks at has been fetched. -/
partial def settle (cmd : Command) (fetched : List (List String)) (disk : Disk) :
    IO (Disk × Command.Stage) := do
  let stage := cmd.prepare disk
  let wanted := stage.progress.looked.flatMap fun name =>
    Disk.upward (Path.cleanElements name)
  match wanted.eraseDups.filter fun place => !fetched.contains place with
  | [] => return (disk, stage)
  | places => settle cmd (places ++ fetched) (← places.foldlM fetch disk)

/-- Write what differs from what was fetched. -/
def store (before after : Disk) : IO Unit := do
  for (place, entry) in after.walk do
    if before.at? place != some entry then
      let name := (← IO.currentDir) / Path.ofElements true place
      match entry with
      | .folder => IO.FS.createDirAll name
      | .file bytes => IO.FS.writeBinFile name (ByteArray.mk bytes.toArray)

end Mos6510.Main

open Mos6510 in
def main (args : List String) : IO UInt32 := do
  let cmd : Command :=
    { program := ((← IO.appPath).fileName).getD ""
      work := (← IO.currentDir).toString
      args := args }
  let (disk, stage) ← Main.settle cmd [] {}
  Main.store disk stage.progress.disk
  let stdin ← match stage with
    | .done _ => pure ByteArray.empty
    | .pending _ _ => (← IO.getStdin).readBinToEnd
  let r := stage.finish stdin.toList
  (← IO.getStdout).write (ByteArray.mk r.stdout.toArray)
  (← IO.getStderr).putStr r.stderr
  return r.exit.toUInt32
