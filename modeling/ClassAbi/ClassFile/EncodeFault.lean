import ClassAbi.Fatal

/-!
# What a class file cannot hold

A class file has limits: 65535 pool indexes, texts of 65535 bytes, counts of two
bytes, parameter numbers of one.  A class beyond a limit cannot be encoded, and
asking for it is a broken internal check.  `EncodeFault` lists the limits and
`EncodeFault.fatal` words them.
-/

namespace ClassAbi

/-- Why a sequence of events has no class file. -/
inductive EncodeFault where
  /-- The constant pool has no index left for a new entry. -/
  | poolOverflow
  /-- A text has more than 65535 bytes. -/
  | textTooLong
  /-- A list of values has more than 65535 values. -/
  | tooManyValues
  /-- A declaration has more than 65535 annotations of one visibility. -/
  | tooManyAnnotations
  /-- The number of annotable parameters is no byte. -/
  | badParameterCount (count : Int)
  /-- The number of a parameter is not below 255. -/
  | badParameter (parameter : Int)
  /-- The class has no header. -/
  | noHeader
  /-- The class has more than 65535 fields. -/
  | tooManyFields
  /-- The class has more than 65535 methods. -/
  | tooManyMethods
deriving DecidableEq, Repr

/-- The fault as the failure of an internal check. -/
def EncodeFault.fatal : EncodeFault → Fatal
  | poolOverflow => .check "(next_index_ + slots) <= (0xFFFF)" (.ascii "constant pool overflow")
  | textTooLong => .check "(value.size()) <= (0xFFFFu)" (.ascii "Utf8 constant too long")
  | tooManyValues => .check "(count_) < (0xFFFF)" (.ascii "too many annotation values")
  | tooManyAnnotations => .check "(attribute.count) < (0xFFFF)" (.ascii "too many annotations")
  | badParameterCount count =>
    .check "count >= 0 && count <= 0xFF" (.ascii "bad annotable parameter count " ++ .ofInt count)
  | badParameter parameter =>
    .check "parameter >= 0 && parameter < 0xFF" (.ascii "bad parameter index " ++ .ofInt parameter)
  | noHeader => .check "(this_class_) != (0)" (.ascii "ToByteArray called before Visit")
  | tooManyFields => .check "(fields_.size()) <= (0xFFFFu)" (.ascii "too many fields")
  | tooManyMethods => .check "(methods_.size()) <= (0xFFFFu)" (.ascii "too many methods")

end ClassAbi
