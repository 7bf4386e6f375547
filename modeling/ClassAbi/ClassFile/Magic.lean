/-!
# The mark of a class file

Every class file begins with the same four bytes.
-/

namespace ClassAbi

/-- The first four bytes of every class file, as a number. -/
def classMagic : UInt32 := 0xCAFEBABE

end ClassAbi
