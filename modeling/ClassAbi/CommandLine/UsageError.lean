import ClassAbi.CommandLine.Words
import ClassAbi.Fatal
import ClassAbi.Files.SystemError

/-!
# Mistakes on the command line

A command line that makes no sense ends the program before it does anything.
`UsageError` has the causes, and `UsageError.fatal` the message and the exit status.
-/

namespace ClassAbi

/-- What can be wrong with a command line. -/
inductive UsageError where
  /-- A command file cannot be opened. -/
  | cannotOpen (path : Text) (cause : SystemError)
  /-- What a command file's path leads to cannot be read. -/
  | cannotRead (path : Text)
  /-- A command file cannot be split into words. -/
  | badWords (path : Text) (cause : WordsError)
  /-- Nothing follows an option that takes an argument. -/
  | missingArgument (option : Text)
  /-- What follows an option is not the integer it takes. -/
  | notAnInteger (option argument : Text)
  /-- A token is neither an option nor the argument of one. -/
  | unknownToken (token : Text)
  /-- There is no path for the output. -/
  | noOutput
  /-- The number of jobs is negative. -/
  | negativeJobs (jobs : Int32)
deriving DecidableEq, Repr

namespace UsageError

/-- The wording of a mistake. -/
def message : UsageError → Text
  | cannotOpen path cause =>
    Text.ascii "Cannot read command file " ++ path ++ Text.ascii ": " ++ cause.text
  | cannotRead path => Text.ascii "Cannot read command file " ++ path
  | badWords path cause => path ++ Text.ascii ": " ++ cause.message
  | missingArgument option => option ++ Text.ascii " requires argument"
  | notAnInteger option argument =>
    option ++ Text.ascii " requires an integer argument, got '" ++ argument ++ Text.ascii "'"
  | unknownToken token => Text.ascii "Bad command line argument " ++ token
  | noOutput => Text.ascii "Use --output <output_jar> to specify the output file name"
  | negativeJobs jobs =>
    Text.ascii "--jobs must not be negative, got " ++ Text.ofInt jobs.toInt

/-- The mistake as the last message of the program. -/
def fatal (e : UsageError) : Fatal := .usage e.message

end UsageError

end ClassAbi
