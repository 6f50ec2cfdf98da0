import InlineVariants.Command.Run

/-!
# The command line program

Reads the sources from disk, runs the command, and prints and writes what the run comes to. An
environment variable asks for the log.
-/

open InlineVariants.Command

namespace InlineVariants.Command

/-- The fault with a number of the operating system, which may come with its sign reversed. -/
def FileFault.ofCode (code : UInt32) (reason : String) : FileFault :=
  match if code < 0x80000000 then code.toNat else (0 - code).toNat with
  | 2 => .missing
  | 17 => .taken
  | 20 => .notDirectory
  | 21 => .isDirectory
  | 36 => .nameTooLong
  | n => .other n reason

/-- The reason that the operating system has for refusing a file. -/
def FileFault.ofError : IO.Error → FileFault
  | .noFileOrDirectory _ _ _ => .missing
  | .alreadyExists _ code reason => .ofCode code reason
  | .inappropriateType _ code reason => .ofCode code reason
  | .permissionDenied _ code reason => .ofCode code reason
  | .invalidArgument _ code reason => .ofCode code reason
  | .otherError code reason => .ofCode code reason
  | e => .other 0 (toString e)

/-- The bytes of a file on disk. -/
def readFromDisk (path : Path) : IO (Path × Except FileFault (List UInt8)) := do
  match ← (IO.FS.readBinFile path.text).toBaseIO with
  | .ok bytes => return (path, .ok bytes.toList)
  | .error e => return (path, .error (.ofError e))

/-- How the command is called. -/
def usageText : String :=
  "usage: inlinevariants [-h] [-o OUTPUT] [--attribute NAME] [--check] [--json] source [source ...]"

/-- Runs the command on disk and gives its exit code. -/
def runOnDisk (words : List String) : IO UInt32 := do
  let log ← IO.getEnv "ERRGO_LOG"
  let sources := (Arguments.parse words).toOption.elim [] Arguments.sources
  let contents ← sources.mapM fun name => readFromDisk (Path.ofText name)
  match run words log fun path => (contents.lookup path).getD (.error .missing) with
  | .error (.stopped stop) =>
    if stop = .help then IO.println usageText else IO.eprintln usageText
    return stop.exitCode.toUInt32
  | .error .nul =>
    IO.eprintln "a path holds the character NUL"
    return 1
  | .error .unnamedOutput =>
    IO.eprintln "the output file has no name"
    return 1
  | .ok report =>
    if let some (path, text) := report.output then
      IO.FS.createDirAll path.parent.text
      IO.FS.writeFile path.text (String.ofList text)
    IO.print (String.ofList report.stdout)
    IO.eprint (String.ofList report.stderr)
    return report.exitCode.toUInt32

end InlineVariants.Command

/-- The entry point. -/
def main (words : List String) : IO UInt32 := runOnDisk words
