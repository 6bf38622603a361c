import Marshal.Handle

/-!
# Version and sizes
-/

namespace Marshal

def version : String := "0.1.0"

def Handle.version : String := "0.1.0"

def Buffer.defaultCapacity : Nat := 256

end Marshal
