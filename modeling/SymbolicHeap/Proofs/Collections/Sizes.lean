import SymbolicHeap.Proofs.Collections.FiniteMaps

/-!
Contract: sizes, members and values of all sets and maps of a run.

A run starts with a new memory. Under any model each of its sets and maps is
then the finite one that the operations make whose guards hold.

Owns:
- sizes that count members, without unions and merges;
- unions and merges, and sizes that bound the number of members with them.
-/

namespace SymbolicHeap

end SymbolicHeap
