import ClassAbi.CommandLine.Options
import ClassAbi.Extraction.Collection
import ClassAbi.Logging.Handler

/-!
# The program

`extractClasses` does what options ask for.  It opens the output, gathers the sources
and writes the outlines of their classes.  If anything fails the output is deleted.

`runProgram` is a whole run, from the arguments to what is left: the exit status, what
was put out, and the disk.
-/

namespace ClassAbi

/-- How a run ends. -/
inductive RunStatus where
  /-- The output is complete. -/
  | success
  /-- There is no output. -/
  | extractionFailed
deriving DecidableEq, Repr

/-- The exit status that tells how a run ends. -/
def RunStatus.exit : RunStatus → Nat
  | success => 0
  | extractionFailed => 1

/-- Gathers the sources and writes their classes to an open archive. -/
def extractSources (o : Options) (a : OutputArchive) : Action RunStatus := do
  let (added, c) ← Collection.empty.addSources o.classRoot o.sources
  if !added then
    let _ ← a.discard
    return .extractionFailed
  else
    let (written, a) ← c.extract a
    if !written then return .extractionFailed
    else
      Action.log .info
        (Text.ascii "Wrote " ++ Text.ofNat a.entries ++ Text.ascii " classes to " ++ o.output)
      return .success

/-- Does what options ask for. -/
def extractClasses (o : Options) : Action RunStatus := do
  let (opened, a) ← (OutputArchive.new (!o.noCompress)).openFile o.output
  if opened then extractSources o a else return .extractionFailed

/-- What a run leaves. -/
structure RunResult where
  /-- The exit status. -/
  exit : Nat
  /-- What was put out for the user. -/
  output : Text
  /-- The files. -/
  disk : Disk

/-- What a run leaves whose messages are those of a session. -/
def RunResult.ofSession (s : LogSession) (disk : Disk) : RunResult := ⟨s.status, s.output, disk⟩

/-- Runs an action and shows its messages.  The exit status is that of the action,
unless a fatal message ends the run. -/
def showAction (handler : LogHandler) (act : Action RunStatus) (disk : Disk) : RunResult :=
  let (ended, host) := act.runOn ⟨disk, #[]⟩
  let session := (LogSession.start.use handler).sendAll (host.log.toList.map LogMessage.ofEntry)
  match ended with
  | .ok status => { RunResult.ofSession session host.disk with exit := status.exit }
  | .error f => .ofSession (session.send (.ofFatal f)) host.disk

/-- A whole run. -/
def runProgram (disk : Disk) (arguments : List Text) : RunResult :=
  match Options.ofArguments disk arguments with
  | .error e => .ofSession (LogSession.start.send (.ofFatal e.fatal)) disk
  | .ok o => showAction (if o.verbose then .verbose else .standard) (extractClasses o) disk

end ClassAbi
