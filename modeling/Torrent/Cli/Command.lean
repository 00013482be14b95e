import Torrent.Cli.Arguments
import Torrent.Decimal.Fixed
import Torrent.Download
import Torrent.Text.Blank

/-!
# Carrying out a command

A command works on a `Host`, which reads files, prints and fetches.  So the same
command runs on a real machine and in memory.

`download` reads the description and the endpoints of the peers, says what it is
about to do and tries the whole download as often as it may.  `status` counts the
pieces in the resume file.  The exit code is 0 if all is done, 1 if something is
missing or failed, and 2 if what was given is at fault.
-/

namespace Torrent.Cli

/-- What a command needs of the machine that it runs on. -/
structure Host (m : Type → Type) where
  readFile : List Char → m (Except IoError Bytes)
  env : String → m (Option String)
  say : String → m Unit
  openLog : List Char → LogLevel → m (Except IoError Unit)
  /-- The missing pieces of a torrent fetched into a directory, as far as that goes. -/
  fetch : List PeerRecord → Descriptor → List Char → Settings → m (Except TorrentError Bool)

/-- How a run ended: its exit code and what it says about a failure. -/
structure Exit where
  code : Nat
  message : String
deriving DecidableEq

/-- The name of the log in its directory. -/
def logName : String := "shoal-last-run.log"

/-- The text for whoever asks for the version. -/
def versionText : String := "shoal 0.1.0"

/-- The text for whoever asks for help, or gives arguments that cannot be understood. -/
def usage : String :=
  "Usage: shoal [--log-level LEVEL] [--logs-dir DIR] COMMAND\n\n" ++
  "  download DESCRIPTOR [-o DIR] [-p ADDR:PORT]... [--peers-file FILE] [--attempts N]\n" ++
  "  status DESCRIPTOR [-o DIR]"

/-- The settings that can be changed from the environment. -/
def settingVariables : List String :=
  ["SHOAL_MAX_PEERS", "SHOAL_PIECE_TIMEOUT", "SHOAL_CONNECT_TIMEOUT", "SHOAL_HANDSHAKE_TIMEOUT"]

/-! ## What the files say -/

/-- The text in a file. -/
def textOf : Except IoError Bytes → Except IoError String
  | .error e => .error e
  | .ok bytes =>
    match Bytes.toText? bytes with
    | some text => .ok text
    | none => .error .notText

/-- The description in a file. -/
def descriptorOf (content : Except IoError Bytes) : Except Failure Descriptor :=
  match textOf content with
  | .error e => .error (.io e)
  | .ok text =>
    match Descriptor.ofJson (Bytes.ofText text) with
    | .error fault => .error (.torrent (.invalidDescriptor fault))
    | .ok d => .ok d

/-- The entries of a list of peers: its lines without blanks at the ends, except empty ones and
comments. -/
def listed (text : String) : List String :=
  (((lines text.toList).map trimBlank).filter fun line => line ≠ [] ∧ line.head? ≠ some '#').map
    String.ofList

/-- The peers at these endpoints, in order. -/
def peersOf : List String → Except Failure (List PeerRecord)
  | [] => .ok []
  | entry :: rest =>
    match PeerRecord.ofText? entry with
    | none =>
      .error (.configuration ("invalid peer endpoint '" ++ entry ++ "': " ++ Endpoint.fault))
    | some r =>
      match peersOf rest with
      | .error e => .error e
      | .ok peers => .ok (r :: peers)

/-- The number of pieces that a resume file marks.  A missing or short one marks none. -/
def completedIn (d : Descriptor) (resume : Except IoError Bytes) : Except Failure Nat :=
  match resume with
  | .ok bytes =>
    if byteLength d.pieceCount ≤ bytes.length then .ok ((⟨bytes⟩ : Bitfield).count d.pieceCount)
    else .ok 0
  | .error .notFound => .ok 0
  | .error e => .error (.io e)

/-! ## The commands -/

section

variable {m : Type → Type} [Monad m]

/-- Whole downloads until one is complete, at most `n` more. -/
def attempt (host : Host m) (peers : List PeerRecord) (d : Descriptor) (output : List Char)
    (settings : Settings) : Nat → m (Except Failure Bool)
  | 0 => return .ok false
  | n + 1 => do
    match ← host.fetch peers d output settings with
    | .error e => return .error (.torrent e)
    | .ok true => return .ok true
    | .ok false => attempt host peers d output settings n

/-- The settings, as far as the environment changes them. -/
def settingsOf (host : Host m) : m Settings := do
  let values ← settingVariables.mapM fun name => do return (name, ← host.env name)
  return Settings.standard.override fun name => (values.lookup name).join

/-- The peers named in arguments and in a file. -/
def collectPeers (host : Host m) (named : List String) (file : Option (List Char)) :
    m (Except Failure (List PeerRecord)) := do
  match file with
  | none => return peersOf named
  | some file =>
    match textOf (← host.readFile file) with
    | .error e => return .error (.io e)
    | .ok text => return peersOf (named ++ listed text)

/-- A download, tried at most so often. -/
def download (host : Host m) (descriptor output : List Char) (named : List String)
    (file : Option (List Char)) (attempts : Nat) : m (Except Failure Bool) := do
  let settings ← settingsOf host
  match descriptorOf (← host.readFile descriptor) with
  | .error e => return .error e
  | .ok d =>
    match ← collectPeers host named file with
    | .error e => return .error e
    | .ok peers =>
      host.say ("Downloading torrent " ++ d.infoHash.text)
      host.say ("  Pieces: " ++ toString d.pieceCount)
      host.say ("  Peers: " ++ toString peers.length)
      host.say ("  Output: " ++ String.ofList output)
      let tries := max attempts 1
      match ← attempt host peers d output settings tries with
      | .error e => return .error e
      | .ok true =>
        host.say "Download complete"
        return .ok true
      | .ok false =>
        host.say ("Download incomplete after " ++ toString tries ++
          " attempt(s); run again to resume")
        return .ok false

/-- How many pieces are there. -/
def status (host : Host m) (descriptor output : List Char) : m (Except Failure Bool) := do
  match descriptorOf (← host.readFile descriptor) with
  | .error e => return .error e
  | .ok d =>
    let resume ← host.readFile (Path.join output Settings.standard.resumeFileName.toList)
    match completedIn d resume with
    | .error e => return .error e
    | .ok completed =>
      host.say ("Torrent " ++ d.infoHash.text)
      host.say ("  Completed: " ++ toString completed ++ "/" ++ toString d.pieceCount ++
        " pieces (" ++ percentText completed d.pieceCount ++ "%)")
      return .ok (completed == d.pieceCount)

/-- The texts of a failure and of what lies behind it, outermost first. -/
def causes (f : Failure) : List String :=
  match f with
  | .torrent e =>
    f.message :: e.message ::
      match e with
      | .storage s =>
        s.message ::
          match s with
          | .io e => [e.message]
          | _ => []
      | _ => []
  | .io e => [f.message, e.message]
  | .configuration _ => [f.message]

/-- What went wrong, and the texts behind it, numbered if there are several. -/
def causeText (context : String) (texts : List String) : String :=
  let numbered := match texts with
    | [text] => "    " ++ text ++ "\n"
    | texts =>
      String.join ((texts.zipIdx).map fun (text, i) => "    " ++ toString i ++ ": " ++ text ++ "\n")
  "Error: " ++ context ++ "\n\nCaused by:\n" ++ numbered

/-- The end of a run whose command came to this. -/
def exitOf : Except Failure Bool → Exit
  | .ok true => ⟨0, ""⟩
  | .ok false => ⟨1, ""⟩
  | .error f =>
    if f.isUserError then ⟨2, "Error: " ++ f.userMessage ++ "\n"⟩
    else ⟨1, causeText "Command failed" (causes f)⟩

/-- An invocation carried out. -/
def Invocation.run (i : Invocation) (host : Host m) : m Exit := do
  match ← host.openLog i.logsDirectory i.logLevel with
  | .error e => return ⟨1, causeText "Failed to initialise logging" [e.message]⟩
  | .ok () =>
    match i.command with
    | .download descriptor output peers file attempts =>
      return exitOf (← download host descriptor output peers file attempts)
    | .status descriptor output => return exitOf (← status host descriptor output)

/-- A command line carried out. -/
def execute (host : Host m) (args : List String) : m Exit := do
  match read args with
  | .run i => i.run host
  | .version => do
    host.say versionText
    return ⟨0, ""⟩
  | .help => do
    host.say usage
    return ⟨0, ""⟩
  | .misuse => return ⟨2, usage ++ "\n"⟩

end

end Torrent.Cli
