import MmixCompiler.Command.Run

/-! The command line. -/

namespace MmixCompiler.Command

/-- The system's number for a path that goes through something that is not a directory. -/
def notDirectoryCode : UInt32 := 20

def faultOf : IO.Error → FileFault
  | .noFileOrDirectory .. => .notFound
  | .inappropriateType _ code _ =>
    if code = notDirectoryCode then .notDirectory else .isDirectory
  | .resourceExhausted .. => .storageFull
  | e => .other (toString e)

def attempt {α : Type} (x : IO α) : IO (Except FileFault α) := do
  match ← x.toBaseIO with
  | .ok a => return .ok a
  | .error e => return .error (faultOf e)

partial def readAll (stream : IO.FS.Stream) (bytes : ByteArray) : IO ByteArray := do
  let more ← stream.read 65536
  if more.isEmpty then return bytes else readAll stream (bytes ++ more)

def systemFiles : Files IO where
  input := attempt do readAll (← IO.getStdin) .empty
  read path := attempt (IO.FS.readBinFile path)
  create path := attempt do
    let _ ← IO.FS.Handle.mk path .write
  append path text := attempt do
    let handle ← IO.FS.Handle.mk path .append
    handle.putStr text
    handle.flush

end MmixCompiler.Command

def main (args : List String) : IO UInt32 := do
  match ← (MmixCompiler.Command.run MmixCompiler.Command.systemFiles args).run with
  | .ok text =>
    IO.print text
    return 0
  | .error e =>
    IO.eprintln e.message
    return 1
