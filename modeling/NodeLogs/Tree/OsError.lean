/-! Why the operating system refuses an operation. -/

namespace NodeLogs

inductive OsError where
  | notFound
  | notADirectory
  | isADirectory
  | alreadyExists
  | permissionDenied
  | nameTooLong
  | tooManyLinks
  | noSpace
  | inputOutput
  /-- A path holds a zero byte, so that it names nothing. -/
  | zeroByte
  deriving DecidableEq, Repr

namespace OsError

/-- The error as diagnostics show it. -/
def message : OsError → String
  | notFound => "No such file or directory (os error 2)"
  | notADirectory => "Not a directory (os error 20)"
  | isADirectory => "Is a directory (os error 21)"
  | alreadyExists => "File exists (os error 17)"
  | permissionDenied => "Permission denied (os error 13)"
  | nameTooLong => "File name too long (os error 36)"
  | tooManyLinks => "Too many levels of symbolic links (os error 40)"
  | noSpace => "No space left on device (os error 28)"
  | inputOutput => "Input/output error (os error 5)"
  | zeroByte => "file name contained an unexpected NUL byte"

end OsError

end NodeLogs
