import Torrent.IoError
import Torrent.Wire.Message

/-!
# What a peer can do wrong

A session with a peer ends with one of these.  None of them concerns anything
but that peer.
-/

namespace Torrent

/-- A breach of the protocol. -/
inductive Violation
  | shortFrame (length : Nat)
  /-- A frame that declares more bytes than there are. -/
  | cutFrame (declared available : Nat)
  | longFrame (declared limit : UInt32)
  | wrongKind (wanted got : MessageKind)
  /-- A message that is neither a request nor its withdrawal. -/
  | noRequest (got : MessageKind)
  | haveSize (length : Nat)
  | requestSize (kind : MessageKind) (length : Nat)
  /-- A block without its two words. -/
  | pieceSize (length : Nat)
  /-- A block of another piece. -/
  | wrongPiece (wanted got : PieceIndex)
  | overrun (start length size : Nat)
  | noBitfield (got : MessageKind)
  | badHash (index : PieceIndex)
  | described (text : String)
deriving DecidableEq

/-- The description of a breach. -/
def Violation.message : Violation → String
  | .shortFrame n => "message shorter than length prefix: " ++ toString n ++ " bytes"
  | .cutFrame declared available =>
    "incomplete message: declared " ++ toString declared ++ " bytes, have " ++ toString available
  | .longFrame declared limit =>
    "message length " ++ toString declared.toNat ++ " exceeds limit " ++ toString limit.toNat
  | .wrongKind wanted got => "expected " ++ wanted.name ++ ", got " ++ got.name
  | .noRequest got => "expected Request or Cancel, got " ++ got.name
  | .haveSize n => "Have payload must be 4 bytes, got " ++ toString n
  | .requestSize kind n => kind.name ++ " payload must be 12 bytes, got " ++ toString n
  | .pieceSize n => "Piece payload too short: " ++ toString n ++ " bytes"
  | .wrongPiece wanted got =>
    "expected block of piece " ++ toString wanted.toNat ++ ", got piece " ++ toString got.toNat
  | .overrun start length size =>
    "block at " ++ toString start ++ "+" ++ toString length ++ " overruns piece of " ++
      toString size ++ " bytes"
  | .noBitfield got => "expected Bitfield as first message, got " ++ got.name
  | .badHash index => "piece " ++ toString index.toNat ++ " failed hash check"
  | .described text => text

/-- Why a greeting is turned down. -/
inductive HandshakeFailure
  | wrongProtocol
  | infoHashMismatch
  | invalidLength (received : Nat)
deriving DecidableEq

/-- The text of the reason. -/
def HandshakeFailure.message : HandshakeFailure → String
  | .wrongProtocol => "wrong protocol"
  | .infoHashMismatch => "info hash mismatch"
  | .invalidLength received => "expected 68 bytes, received " ++ toString received

/-- The part of a session that a deadline is set for. -/
inductive Stage
  | connect
  | handshake
  | bitfield
  | message
  | piece
deriving DecidableEq

/-- The name of the part. -/
def Stage.name : Stage → String
  | .connect => "connect"
  | .handshake => "handshake"
  | .bitfield => "initial bitfield"
  | .message => "message read"
  | .piece => "piece download"

/-- Why a session with a peer ended. -/
inductive PeerError
  | violation (cause : Violation)
  | handshake (failure : HandshakeFailure)
  | timeout (stage : Stage)
  | closed
  | io (error : IoError)
deriving DecidableEq

/-- The text of the error. -/
def PeerError.message : PeerError → String
  | .violation cause => "Protocol violation: " ++ cause.message
  | .handshake failure => "Handshake rejected: " ++ failure.message
  | .timeout stage => "Timed out during " ++ stage.name
  | .closed => "Connection closed by peer"
  | .io error => "Peer I/O error: " ++ error.message

end Torrent
