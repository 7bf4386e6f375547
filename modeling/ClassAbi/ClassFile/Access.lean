/-!
# Access words

The access word of a class, field or method.  Its low 16 bits are the flags of
the class file (JVMS 4.1, 4.5 and 4.6).  One bit above them stands for the
Deprecated attribute, so that a declaration and its deprecation travel in one
word.  Only the flags that decide anything here have names.
-/

namespace ClassAbi

/-- The access word of a declaration. -/
abbrev Access := UInt32

namespace Access

/-- The member is private. -/
def privateFlag : Access := 0x0002

/-- The method is a bridge that the compiler generated. -/
def bridgeFlag : Access := 0x0040

/-- The declaration has a Deprecated attribute.  The class file has no such flag. -/
def deprecatedFlag : Access := 0x20000

/-- Whether the member is private. -/
def isPrivate (a : Access) : Bool := a &&& privateFlag != 0

/-- Whether the method is a bridge. -/
def isBridge (a : Access) : Bool := a &&& bridgeFlag != 0

/-- Whether the declaration is deprecated. -/
def isDeprecated (a : Access) : Bool := a &&& deprecatedFlag != 0

/-- The access word read from the flags of a class file and the presence of a
Deprecated attribute. -/
def ofFlags (flags : UInt16) (deprecated : Bool) : Access :=
  if deprecated then flags.toUInt32 ||| deprecatedFlag else flags.toUInt32

/-- The part that a class file stores as flags. -/
def flags (a : Access) : UInt16 := a.toUInt16

end Access

end ClassAbi
