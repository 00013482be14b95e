import Torrent.Descriptor.Basic
import Torrent.IoError

/-!
# Why a download ends

What ends a whole download, as opposed to what ends the session with one peer.
-/

namespace Torrent

/-- Why the store could not do something. -/
inductive StorageError
  | outOfRange (index : PieceIndex)
  /-- The content does not have the length of its piece. -/
  | wrongLength (index : PieceIndex) (got expected : Nat)
  | described (words : String)
  | io (error : IoError)
deriving DecidableEq

/-- The text of the error. -/
def StorageError.message : StorageError → String
  | .outOfRange index => "Piece " ++ toString index.toNat ++ " is out of range"
  | .wrongLength index got expected =>
    "File system error: piece " ++ toString index.toNat ++ " is " ++ toString got ++
      " bytes, expected " ++ toString expected
  | .described words => "File system error: " ++ words
  | .io error => "I/O error: " ++ error.message

/-- Why a download ended. -/
inductive TorrentError
  | invalidDescriptor (fault : DescriptorFault)
  | noPeers
  | storage (error : StorageError)
deriving DecidableEq

/-- The text of the error. -/
def TorrentError.message : TorrentError → String
  | .invalidDescriptor fault => "Invalid torrent descriptor: " ++ fault.message
  | .noPeers => "No peers available for torrent"
  | .storage error => "Storage error: " ++ error.message

/-- Why a command failed. -/
inductive Failure
  | torrent (error : TorrentError)
  | configuration (words : String)
  | io (error : IoError)
deriving DecidableEq

namespace Failure

/-- The text of the failure. -/
def message : Failure → String
  | .torrent error => "Torrent error: " ++ error.message
  | .configuration words => "Configuration error: " ++ words
  | .io error => "I/O error: " ++ error.message

/-- The text of the failure for whoever started the command. -/
def userMessage : Failure → String
  | .torrent (.invalidDescriptor fault) => "Invalid torrent descriptor: " ++ fault.message
  | .torrent .noPeers => "No peers available for download"
  | .torrent (.storage _) => "Disk error, download aborted"
  | .configuration words => "Configuration error: " ++ words
  | .io _ => "File system error occurred"

/-- Whether what was given to the command is at fault. -/
def isUserError : Failure → Bool
  | .torrent (.invalidDescriptor _) => true
  | .configuration _ => true
  | _ => false

end Failure

end Torrent
