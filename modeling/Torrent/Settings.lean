import Torrent.Decimal.Word

/-!
# Settings

Sizes, deadlines and limits.  Spans of time are in milliseconds.  Four of them
can be set from the environment: a value that is no number leaves the setting as
it is.
-/

namespace Torrent

/-- The settings of a download. -/
structure Settings where
  /-- The first bytes of our own name. -/
  clientId : String
  /-- The largest stretch asked for at once. -/
  blockSize : UInt32
  pieceTimeout : Nat
  connectTimeout : Nat
  handshakeTimeout : Nat
  bitfieldTimeout : Nat
  maxPeers : UInt64
  /-- The pause before an idle peer looks for a piece again. -/
  retryPause : Nat
  maxMessageLength : UInt32
  resumeFileName : String

namespace Settings

/-- The settings of a common download. -/
def standard : Settings where
  clientId := "-SH0001-"
  blockSize := 16384
  pieceTimeout := 30000
  connectTimeout := 3000
  handshakeTimeout := 5000
  bitfieldTimeout := 6000
  maxPeers := 120
  retryPause := 100
  maxMessageLength := 2 * 1024 * 1024 + 13
  resumeFileName := ".shoal-resume"

/-- Settings with short deadlines, for peers on the same machine. -/
def brisk : Settings :=
  { standard with
    pieceTimeout := 5000
    connectTimeout := 1000
    handshakeTimeout := 1000
    bitfieldTimeout := 1000
    retryPause := 10 }

/-- The settings with what the environment says.  Deadlines are given there in seconds. -/
def override (s : Settings) (env : String → Option String) : Settings :=
  let number (name : String) : Option UInt64 := (env name).bind word64?
  let seconds (name : String) (old : Nat) : Nat :=
    match number name with
    | some n => n.toNat * 1000
    | none => old
  { s with
    maxPeers := (number "SHOAL_MAX_PEERS").getD s.maxPeers
    pieceTimeout := seconds "SHOAL_PIECE_TIMEOUT" s.pieceTimeout
    connectTimeout := seconds "SHOAL_CONNECT_TIMEOUT" s.connectTimeout
    handshakeTimeout := seconds "SHOAL_HANDSHAKE_TIMEOUT" s.handshakeTimeout }

end Settings

/-- How much is reported of a run. -/
inductive LogLevel
  | error
  | warn
  | info
  | debug
  | trace
deriving DecidableEq

namespace LogLevel

/-- The level where none is named. -/
def standard : LogLevel := .info

/-- The name of a level. -/
def name : LogLevel → String
  | .error => "error"
  | .warn => "warn"
  | .info => "info"
  | .debug => "debug"
  | .trace => "trace"

/-- All levels. -/
def all : List LogLevel := [.error, .warn, .info, .debug, .trace]

/-- The level with exactly this name. -/
def ofName? (text : String) : Option LogLevel := all.find? fun level => level.name == text

/-- The level with this name in either case.  Only the case of ASCII letters counts: no other
character has one of their lower-case forms alone. -/
def ofText? (text : String) : Option LogLevel := ofName? (text.map Char.toLower)

/-- The text for a text that names no level. -/
def fault (text : String) : String := "Invalid log level: " ++ text

end LogLevel

end Torrent
