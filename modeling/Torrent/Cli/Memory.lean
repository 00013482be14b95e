import Torrent.Cli.Command

/-!
# A machine in memory

Commands run here on a tree of files, with a schedule that says what the peers do
during a download.
-/

namespace Torrent.Cli

/-- The state of the machine. -/
structure Memory where
  tree : FileTree
  shown : List String

/-- The machine on which downloads follow a schedule, with this environment. -/
def Host.inMemory (schedule : Swarm → List Event) (environment : String → Option String) :
    Host (StateM Memory) where
  readFile path := return (← get).tree.readFile path
  env name := return environment name
  say line := modify fun s => { s with shown := s.shown ++ [line] }
  openLog directory _ := do
    let s ← get
    match s.tree.makeDirectories directory with
    | (.error e, t) =>
      set { s with tree := t }
      return .error e
    | (.ok (), t) =>
      match t.writeFile (Path.join directory logName.toList) [] with
      | .error e =>
        set { s with tree := t }
        return .error e
      | .ok t =>
        set { s with tree := t }
        return .ok ()
  fetch peers d directory settings := do
    let s ← get
    match Download.start s.tree peers d directory settings [] 0 with
    | (.error e, t) =>
      set { s with tree := t }
      return .error e
    | (.ok w, _) =>
      let w := if w.outcome.isSome then w else w.run (schedule w)
      set { s with tree := w.tree }
      return w.outcome.getD (.ok false)

end Torrent.Cli
