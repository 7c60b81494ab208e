import Mathlib.Algebra.Ring.Int.Defs
import Mathlib.Algebra.Ring.Nat

/-!
# Literals of small ranges

A literal stands for an index of a table when the size of the table is not zero. For the sizes that
tables have here this is said once.
-/

namespace Literals

instance five : NeZero 5 := ⟨by decide⟩
instance eight : NeZero 8 := ⟨by decide⟩
instance (priority := 3000) nine : NeZero 9 := ⟨by decide⟩
instance sixteen : NeZero 16 := ⟨by decide⟩
instance twenty : NeZero 20 := ⟨by decide⟩
instance twentyFour : NeZero 24 := ⟨by decide⟩
instance thirtyTwo : NeZero 32 := ⟨by decide⟩
instance sixtyFour : NeZero 64 := ⟨by decide⟩

end Literals
