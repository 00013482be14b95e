import Torrent.Settings

/-!
# The command line

The arguments name a command and its options.  Options of the whole program stand
before the command.  An option with a value takes it behind an equals sign or as
the next argument, which must then not begin with a dash unless it is a dash
alone; a short option also takes it from the rest of its own argument.  Behind a
double dash nothing is an option.

Arguments are read in order, and the first that cannot be understood, or asks for
the version or for help, decides.
-/

namespace Torrent.Cli

/-- An argument. -/
abbrev Argument := List Char

/-- What to do. -/
inductive Command
  | download (descriptor output : List Char) (peers : List String) (peersFile : Option (List Char))
      (attempts : Nat)
  | status (descriptor output : List Char)
deriving DecidableEq

/-- A command and the options of the program. -/
structure Invocation where
  logLevel : LogLevel
  logsDirectory : List Char
  command : Command
deriving DecidableEq

/-- What the arguments come to. -/
inductive Reading
  | run (invocation : Invocation)
  | version
  | help
  | misuse
deriving DecidableEq

/-- An option. -/
inductive Opt
  | logLevel
  | logsDirectory
  | output
  | peer
  | peersFile
  | attempts
  | help
  | version
deriving DecidableEq

namespace Opt

/-- The name behind two dashes. -/
def long : Opt → List Char
  | .logLevel => "log-level".toList
  | .logsDirectory => "logs-dir".toList
  | .output => "output".toList
  | .peer => "peer".toList
  | .peersFile => "peers-file".toList
  | .attempts => "attempts".toList
  | .help => "help".toList
  | .version => "version".toList

/-- The letter behind one dash. -/
def short? : Opt → Option Char
  | .output => some 'o'
  | .peer => some 'p'
  | .help => some 'h'
  | .version => some 'V'
  | _ => none

/-- Whether the option has a value. -/
def hasValue : Opt → Bool
  | .help | .version => false
  | _ => true

end Opt

/-- What stands next on the command line. -/
inductive Item
  | option (opt : Opt) (value : List Char)
  | switch (opt : Opt)
  | word (text : List Char)
  /-- From here on there are only words. -/
  | onlyWords
  | unknown
deriving DecidableEq

/-- Whether an argument can be the value of the option before it. -/
def isValue (a : Argument) : Bool := a.head? != some '-' || a == ['-']

/-- An option with a value that is the next argument. -/
def withNext (opt : Opt) : List Argument → Item × List Argument
  | v :: rest => if isValue v then (.option opt v, rest) else (.unknown, rest)
  | [] => (.unknown, [])

/-- An option spelt out behind two dashes. -/
def longItem (opts : List Opt) (text : List Char) (rest : List Argument) : Item × List Argument :=
  let name := text.takeWhile (· ≠ '=')
  let attached := (text.dropWhile (· ≠ '=')).tail?
  match opts.find? (·.long == name), attached with
  | none, _ => (.unknown, rest)
  | some opt, some value => if opt.hasValue then (.option opt value, rest) else (.unknown, rest)
  | some opt, none => if opt.hasValue then withNext opt rest else (.switch opt, rest)

/-- An option by its letter, and what stands behind the letter. -/
def shortItem (opts : List Opt) (letter : Char) (behind : List Char) (rest : List Argument) :
    Item × List Argument :=
  match opts.find? (·.short? == some letter) with
  | none => (.unknown, rest)
  | some opt =>
    if !opt.hasValue then (.switch opt, rest)
    else
      match behind with
      | [] => withNext opt rest
      | '=' :: value => (.option opt value, rest)
      | value => (.option opt value, rest)

/-- The next item of a command line on which these options may stand. -/
def item (opts : List Opt) (a : Argument) (rest : List Argument) : Item × List Argument :=
  match a with
  | ['-', '-'] => (.onlyWords, rest)
  | '-' :: '-' :: text => longItem opts text rest
  | '-' :: letter :: behind => shortItem opts letter behind rest
  | word => (.word word, rest)

/-- All items of a command line of at most `n` arguments. -/
def items (opts : List Opt) : Nat → List Argument → List Item
  | 0, _ | _, [] => []
  | n + 1, a :: rest =>
    match item opts a rest with
    | (.onlyWords, rest) => rest.map Item.word
    | (i, rest) => i :: items opts n rest

/-! ## What the values mean -/

/-- A path.  It must not be empty. -/
def path? (text : List Char) : Option (List Char) := if text = [] then none else some text

/-- A whole number that may have a sign, from 0 to 2^32 - 1. -/
def count? (text : List Char) : Option Nat :=
  let (negative, digits) := match text with
    | '-' :: rest => (true, rest)
    | '+' :: rest => (false, rest)
    | cs => (false, cs)
  match ofDigits? digits with
  | some n => if n < UInt32.size ∧ (negative = false ∨ n = 0) then some n else none
  | none => none

/-- The options of the program found so far. -/
structure Globals where
  logLevel : Option LogLevel
  logsDirectory : Option (List Char)

/-- The options of a command found so far. -/
structure Options where
  descriptor : Option (List Char)
  output : Option (List Char)
  peers : List String
  peersFile : Option (List Char)
  attempts : Option Nat

/-- A value that may be given once. -/
def setOnce {α : Type} (old new : Option α) : Except Reading (Option α) :=
  match old, new with
  | none, some a => .ok (some a)
  | _, _ => .error .misuse

/-- One more item of a command. -/
def Options.take (o : Options) : Item → Except Reading Options
  | .word text => do return { o with descriptor := ← setOnce o.descriptor (path? text) }
  | .option .output v => do return { o with output := ← setOnce o.output (path? v) }
  | .option .peer v => .ok { o with peers := o.peers ++ [String.ofList v] }
  | .option .peersFile v => do return { o with peersFile := ← setOnce o.peersFile (path? v) }
  | .option .attempts v => do return { o with attempts := ← setOnce o.attempts (count? v) }
  | .switch .help => .error .help
  | _ => .error .misuse

/-- The command with this name and these arguments. -/
def command (name : List Char) (args : List Argument) : Except Reading Command := do
  let isDownload := name = "download".toList
  let opts : List Opt :=
    if isDownload then [.output, .peer, .peersFile, .attempts, .help] else [.output, .help]
  let o ← (items opts args.length args).foldlM Options.take ⟨none, none, [], none, none⟩
  match o.descriptor with
  | none => .error .misuse
  | some descriptor =>
    let output := o.output.getD ['.']
    if isDownload then
      return .download descriptor output o.peers o.peersFile (o.attempts.getD 2)
    else return .status descriptor output

/-- The names that may stand in the place of a command. -/
def commandNames : List Argument := ["download".toList, "status".toList, "help".toList]

/-- What a call for help comes to.  It may name one command. -/
def helpOn (topics : List Argument) : Reading :=
  match topics with
  | [] => .help
  | [topic] => if topic ∈ commandNames then .help else .misuse
  | _ => .misuse

/-- The options of the program and then the command, on a command line of at most `n` arguments. -/
def program : Nat → Globals → List Argument → Except Reading Invocation
  | 0, _, _ | _, _, [] => .error .misuse
  | n + 1, g, a :: rest =>
    match item [.logLevel, .logsDirectory, .help, .version] a rest with
    | (.option .logLevel v, rest) => do
      let level ← setOnce g.logLevel (LogLevel.ofName? (String.ofList v))
      program n { g with logLevel := level } rest
    | (.option .logsDirectory v, rest) => do
      let directory ← setOnce g.logsDirectory (path? v)
      program n { g with logsDirectory := directory } rest
    | (.switch .version, _) => .error .version
    | (.switch .help, _) => .error .help
    | (.word name, rest) =>
      if name ∉ commandNames then .error .misuse
      else if name = "help".toList then .error (helpOn rest)
      else do
        let c ← command name rest
        return ⟨g.logLevel.getD .standard, g.logsDirectory.getD "logs".toList, c⟩
    | _ => .error .misuse

/-- What a command line comes to. -/
def read (args : List String) : Reading :=
  match program args.length ⟨none, none⟩ (args.map String.toList) with
  | .ok invocation => .run invocation
  | .error reading => reading

end Torrent.Cli
