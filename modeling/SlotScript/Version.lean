/-!
The version of the library.
-/

namespace SlotScript

def version : String := "0.1.0"

end SlotScript
