import ChipEight.CommandLine.Program

/-!
# The command line

The program on the real file system. Everything that it decides is decided in
`CommandLine.answer`; here files are read and the reply is written.
-/

namespace ChipEight

/-- The failure that an error of the file system stands for. -/
def StorageError.ofError : IO.Error → StorageError
  | .noFileOrDirectory .. => .notFound
  | e => .other (toString e)

/-- The result of an action, with its errors as values. -/
def attempt {α : Type} (action : IO α) : IO (Except StorageError α) := do
  try return .ok (← action) catch e => return .error (.ofError e)

/-- The real file system. -/
def fileSystem : Storage IO where
  readFile path := attempt do
    return (← IO.FS.readBinFile path).toList.map (·.toBitVec)
  listFolder path := attempt do
    let entries ← (← IO.currentDir) / path |>.readDir
    entries.toList.mapM fun entry => do
      match ← attempt entry.path.metadata with
      | .ok data => return ⟨entry.fileName, data.type == .file⟩
      | .error _ => return ⟨entry.fileName, false⟩

end ChipEight

/-- Replies to the arguments on the standard streams. -/
def main (arguments : List String) : IO UInt32 := do
  let reply ← ChipEight.CommandLine.answer ChipEight.fileSystem arguments
  IO.print reply.text
  if let some complaint := reply.complaint then
    IO.eprintln ("error: " ++ complaint)
  return reply.status.toUInt32
