import SslFrontend.Source.Path

/-! # File systems

What the front end asks of a file system: the text of a file, whether a path is
a plain file, and one name for each file whatever the path that leads to it.
-/

namespace SslFrontend

inductive FileError where
  | notFound
  | notDirectory
  | isDirectory
  | nameTooLong
  | nulInPath
  /-- The contents are not UTF-8. -/
  | notText
  | other (message : String)
deriving DecidableEq, Repr

def FileError.message : FileError → String
  | .notFound => "No such file or directory (os error 2)"
  | .notDirectory => "Not a directory (os error 20)"
  | .isDirectory => "Is a directory (os error 21)"
  | .nameTooLong => "File name too long (os error 36)"
  | .nulInPath => "file name contained an unexpected NUL byte"
  | .notText => "stream did not contain valid UTF-8"
  | .other message => message

structure FileSystem where
  read : Path → Except FileError String
  isFile : Path → Bool
  /-- The one name of the file behind a path; the path itself if there is
  none. -/
  canonical : Path → Path

/-- A file system without files. -/
def FileSystem.none : FileSystem := ⟨fun _ => .error .notFound, fun _ => false, id⟩

end SslFrontend
