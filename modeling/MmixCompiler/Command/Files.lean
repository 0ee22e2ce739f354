/-! Files as the command needs them. -/

namespace MmixCompiler

inductive FileFault where
  | notFound
  | isDirectory
  | notDirectory
  | nameTooLong
  | zeroInName
  | notText
  | storageFull
  | other (message : String)
deriving DecidableEq

def FileFault.message : FileFault → String
  | .notFound => "No such file or directory"
  | .isDirectory => "Is a directory"
  | .notDirectory => "Not a directory"
  | .nameTooLong => "File name too long"
  | .zeroInName => "file name contained an unexpected NUL byte"
  | .notText => "stream did not contain valid UTF-8"
  | .storageFull => "No space left on device"
  | .other message => message

structure Files (m : Type → Type) where
  input : m (Except FileFault ByteArray)
  read : String → m (Except FileFault ByteArray)
  /-- Makes a file empty, and makes it if there is none. -/
  create : String → m (Except FileFault Unit)
  append : String → String → m (Except FileFault Unit)

end MmixCompiler
