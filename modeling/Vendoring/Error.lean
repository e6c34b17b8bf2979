import Vendoring.Path
/-!
# What can go wrong

Each way a run can fail is a constructor that holds what the message needs; the wording is in
`Error.message` alone.  An operating system's refusal is a value of `OsError`, a document that
cannot be read one of the reader's own reasons, already in words.

`Fault` adds the one failure that is no error of the program's: a text cut inside a character.  It
is kept apart so that "never cut inside a character" can be said of a result.
-/
namespace Vendoring

/-- Why the operating system refuses. -/
inductive OsError where
  | notFound
  | notDirectory
  | isDirectory
  | exists
  | notEmpty
  | invalidArgument
  | tooManyLinks
  /-- A path that ends in no name. -/
  | busy
  | notPermitted
  | notExecutable
  | notText
  /-- A path with a zero octet. -/
  | zeroInPath
  /-- A command line with a zero octet. -/
  | zeroInCommand
deriving DecidableEq, Repr

def OsError.message : OsError → String
  | .notFound => "No such file or directory (os error 2)"
  | .notDirectory => "Not a directory (os error 20)"
  | .isDirectory => "Is a directory (os error 21)"
  | .exists => "File exists (os error 17)"
  | .notEmpty => "Directory not empty (os error 39)"
  | .invalidArgument => "Invalid argument (os error 22)"
  | .tooManyLinks => "Too many levels of symbolic links (os error 40)"
  | .busy => "Device or resource busy (os error 16)"
  | .notPermitted => "Permission denied (os error 13)"
  | .notExecutable => "Exec format error (os error 8)"
  | .notText => "stream did not contain valid UTF-8"
  | .zeroInPath => "file name contained an unexpected NUL byte"
  | .zeroInCommand => "nul byte found in provided data"

inductive Error where
  | parse (path : Path) (reason : String)
  | io (cause : OsError)
  | vendorRootMissing (path : Path)
  | config (detail : String)
  | rename (detail : String)
  | installer (detail : String)
  | hook (detail : String)
  | serialization (detail : String)
  | walk (path : Path) (cause : OsError)
  | other (detail : String)
deriving DecidableEq, Repr

/-- What is said of a directory that cannot be walked. -/
def walkReason (path : Path) (cause : OsError) : String :=
  s!"IO error for operation on {path.display}: {cause.message}"

def Error.message : Error → String
  | .parse path reason => s!"Parse error in {path.display}: {reason}"
  | .io cause => "IO error: " ++ cause.message
  | .vendorRootMissing path => "Vendor directory not found: " ++ path.display
  | .config detail => "Configuration error: " ++ detail
  | .rename detail => "Rename error: " ++ detail
  | .installer detail => "Installer error: " ++ detail
  | .hook detail => "Hook error: " ++ detail
  | .serialization detail => "Serialization error: " ++ detail
  | .walk path cause => "Directory walk error: " ++ walkReason path cause
  | .other detail => detail

/-- The errors below an error, each the reason for the one before. -/
def Error.causes : Error → List String
  | .io cause => [cause.message]
  | .serialization detail => [detail]
  | .walk path cause => [walkReason path cause, cause.message]
  | _ => []

/-- An error, or a cut inside a character. -/
inductive Fault where
  | error (e : Error)
  | badCut
deriving DecidableEq, Repr

instance : Coe Error Fault := ⟨.error⟩

end Vendoring
