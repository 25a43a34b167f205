import Codemod.CommandLine.Session
import Std.Time.DateTime.Timestamp

/-!
# The program

The outer layer: it reads what a session needs from the disk, runs the session, and writes back what has
changed. The session itself works on a file system held in memory.
-/

namespace Codemod.Shell

/-- Where a path leads on disk. -/
def onDisk (p : Path) := (fun dir => dir / p.toString) <$> IO.currentDir

/-- The variables that a session looks at. -/
def environment : IO Environment := do
  let names := [Settings.configVariable, Settings.rootMarkerVariable, Settings.maxConcurrentVariable,
    Log.Setup.thresholdVariable, Log.Setup.jsonVariable]
  names.filterMapM fun name => return (← IO.getEnv name).map (name, ·)

/-- What stands at a path on disk. -/
def entry? (p : Path) : IO (Option Entry) := do
  let place ← onDisk p
  if ← place.isDir then return some .directory
  else if ← place.pathExists then return some (.file (← IO.FS.readBinFile place).toList)
  else return none

/-- Takes in what stands at a path, unless it is known already. -/
def takeIn (fs : FileSystem) (p : Path) : IO FileSystem := do
  if fs.contains p then return fs
  else
    match ← entry? p with
    | some e => return fs.place p e
    | none => return fs

/-- Takes in a configuration and all that it extends: as long as one is missing that is on disk. -/
partial def takeInConfigs (cwd : Path) (config : String) (fs : FileSystem) : IO FileSystem := do
  match (Config.load fs cwd config []).1 with
  | .error (.notFound p) =>
    let more ← takeIn fs p
    if more.contains p then takeInConfigs cwd config more else return more
  | _ => return fs

/-- The files and directories below a directory, the contents of the files left out. -/
partial def entriesBelow (dir : Path) : IO (List (Path × Entry)) := do
  let place ← onDisk dir
  let mut found := []
  for e in ← place.readDir do
    let p := dir.child e.fileName
    match (← e.path.symlinkMetadata).type with
    | .dir =>
      if !Config.skippedDirectories.contains e.fileName then
        found := (← entriesBelow p) ++ (p, .directory) :: found
    | .file => found := (p, .file []) :: found
    | _ => if !(← e.path.isDir) then found := (p, .file []) :: found
  return found

/-- Takes in the project of a configuration: which files there are, and what its sources hold. -/
def takeInProject (cwd : Path) (config : String) (fs : FileSystem) : IO FileSystem := do
  match (Config.load fs cwd config []).1 with
  | .error _ => return fs
  | .ok c =>
    let mut fs := fs
    for (p, e) in ← entriesBelow c.root do
      if !fs.contains p then fs := fs.place p e
    for name in c.files do
      if let .ok p := Config.locate c.root name then fs ← takeIn fs p
    if let .ok sources := (c.sources fs []).1 then
      for p in sources do
        if let some e ← entry? p then fs := fs.put p e
    return fs

/-- Takes in a rotated file with those that were put aside. -/
def takeInLogs (f : Log.Rotation) (fs : FileSystem) : IO FileSystem := do
  let paths := f.path.parent :: f.path :: (List.range f.backups).map fun n => f.backup (n + 1)
  paths.foldlM takeIn fs

/-- Writes the files that have changed, and tells whether all could be written. -/
def writeChanges (before after : FileSystem) : IO Bool := do
  let mut ok := true
  for (p, content) in after.files do
    if before.content? p ≠ some content then
      try IO.FS.writeBinFile (← onDisk p) ⟨content.toArray⟩
      catch e =>
        IO.eprintln s!"{p.toString}: {e}"
        ok := false
  return ok

/-- The logger of the lines of a session. -/
def loggerName : String := "tsrewrite"

/-- The record of a line. -/
def recordOf (now : Int) (line : JournalLine) : Log.Record where
  message := .text line.message
  severity := Log.Severity.ofLevel line.level
  logger := loggerName
  created := .int now

/-- Runs the session that a request asks for. -/
def run (q : CommandLine.Request) : IO UInt32 := do
  let cwd := Path.ofString (← IO.currentDir).toString
  let env ← environment
  match Log.Setup.ofChoices env cwd q.logging with
  | .error f =>
    IO.eprintln (f.message?.getD "Logging cannot be set up.")
    return 1
  | .ok setup =>
    let mut disk := FileSystem.empty
    if let .ok s := Settings.ofEnvironment env q.choices then
      disk ← takeInProject cwd s.config.toString (← takeInConfigs cwd s.config.toString disk)
    if let some f := setup.file then disk ← takeInLogs f disk
    match setup.start disk with
    | .error _ =>
      IO.eprintln "The file that is logged to cannot be written."
      return 1
    | .ok written =>
      let (result, after, journal) := q.run env cwd written.disk
      let now := (← Std.Time.Timestamp.now).toSecondsSinceUnixEpoch.val
      let written := (journal.map (recordOf now)).foldl setup.loggers.log { written with disk := after }
      written.console.forM IO.println
      let ok ← writeChanges disk written.disk
      match result with
      | .error _ =>
        IO.eprintln "The project cannot be loaded."
        return 1
      | .ok c =>
        c.output.forM IO.println
        c.errors.forM IO.eprintln
        return if ok then c.exitCode.toUInt32 else 1

end Codemod.Shell

/-- Turns default exports into named ones, or relative specifiers into ones from the source root. -/
def main (args : List String) : IO UInt32 := do
  let name := (← IO.appPath).fileName.getD ""
  match (Codemod.CommandLine.Program.ofName name).read args with
  | .error .help =>
    (Codemod.CommandLine.Program.ofName name).help.forM IO.println
    return 0
  | .error (.usage f) =>
    IO.eprintln s!"Error: {f.message}"
    return Codemod.CommandLine.usageExitCode.toUInt32
  | .ok q => Codemod.Shell.run q
