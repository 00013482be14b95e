/-!
# Failures of the system

What the system answers when a file or a stream cannot be used, with the text
under which the failure is shown.
-/

namespace Torrent

/-- A failure of a file or a stream. -/
inductive IoError
  | notFound
  | exists_
  | notDirectory
  | isDirectory
  | nameTooLong
  | zeroInName
  | notText
  /-- The content ended early. -/
  | ended
  /-- A write was accepted with no byte of it taken. -/
  | writeZero
  | reset
  | brokenPipe
  | other (text : String)
deriving DecidableEq

/-- The text of a failure. -/
def IoError.message : IoError → String
  | .notFound => "No such file or directory (os error 2)"
  | .exists_ => "File exists (os error 17)"
  | .notDirectory => "Not a directory (os error 20)"
  | .isDirectory => "Is a directory (os error 21)"
  | .nameTooLong => "File name too long (os error 36)"
  | .zeroInName => "file name contained an unexpected NUL byte"
  | .notText => "stream did not contain valid UTF-8"
  | .ended => "early eof"
  | .writeZero => "write zero"
  | .reset => "Connection reset by peer (os error 104)"
  | .brokenPipe => "Broken pipe (os error 32)"
  | .other text => text

end Torrent
