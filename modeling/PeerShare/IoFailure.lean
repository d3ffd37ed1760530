/-
  How reading and writing can fail.

  Key definitions include:
    * `IoFailure`
    * `IoFailure.name`
-/

namespace PeerShare

/- The causes of failed input and output. -/
inductive IoFailure where
  | notFound
  | alreadyExists
  | notADirectory
  | isADirectory
  | invalidInput
  | invalidData
  | invalidFilename
  | unexpectedEof
  | writeZero
  | brokenPipe
  | connectionReset
  deriving DecidableEq

/- The name of a cause. -/
def IoFailure.name : IoFailure → String
  | notFound => "NotFound"
  | alreadyExists => "AlreadyExists"
  | notADirectory => "NotADirectory"
  | isADirectory => "IsADirectory"
  | invalidInput => "InvalidInput"
  | invalidData => "InvalidData"
  | invalidFilename => "InvalidFilename"
  | unexpectedEof => "UnexpectedEof"
  | writeZero => "WriteZero"
  | brokenPipe => "BrokenPipe"
  | connectionReset => "ConnectionReset"

end PeerShare
