import ClassAbi.Files.Disk
import ClassAbi.Logging.Level

/-!
# The host of a run

A run of the program reads and writes files and logs messages.  `Host` is what it
finds and leaves: the disk and the messages so far.  An `Action` changes the host
and ends with a result or with a fatal message.  What an action did before a fatal
message stays done.
-/

namespace ClassAbi

/-- What a run of the program works on. -/
structure Host where
  /-- The files. -/
  disk : Disk
  /-- The messages logged so far. -/
  log : Array LogEntry
deriving Inhabited

/-- A part of a run. -/
abbrev Action := ExceptT Fatal (StateM Host)

namespace Action

/-- Runs an action on a host. -/
def runOn (act : Action α) (h : Host) : Except Fatal α × Host := (ExceptT.run act).run h

/-- Logs a message. -/
def log (level : LogLevel) (message : Text) : Action Unit :=
  modify fun h => { h with log := h.log.push ⟨level, message⟩ }

/-- The files as they are now. -/
def disk : Action Disk := do return (← get).disk

/-- Replaces the files. -/
def setDisk (d : Disk) : Action Unit := modify fun h => { h with disk := d }

/-- Ends the run. -/
def die (f : Fatal) : Action α := throw f

/-- The result of something that may end the run. -/
def ofExcept : Except Fatal α → Action α
  | .ok a => pure a
  | .error f => die f

end Action

end ClassAbi
