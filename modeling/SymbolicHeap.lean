import SymbolicHeap.Collections.Lists
import SymbolicHeap.Collections.Maps
import SymbolicHeap.Profile
import SymbolicHeap.Proofs.Collections.Sequences
import SymbolicHeap.Proofs.Collections.Sizes
import SymbolicHeap.Proofs.Decode.Agreement
import SymbolicHeap.Proofs.Heap.Terms
import SymbolicHeap.Proofs.RegionNames
import SymbolicHeap.Proofs.Simplify.Meaning
import SymbolicHeap.Proofs.State.CallStack
import SymbolicHeap.Proofs.State.Models
import SymbolicHeap.State.Text
import SymbolicHeap.Proofs.ArrayTheory.Forms
import SymbolicHeap.Proofs.ArrayTheory.Preservation
import SymbolicHeap.Proofs.PathCondition.Encodings
import SymbolicHeap.Proofs.Solver.Exactness
import SymbolicHeap.Proofs.State.Feasibility
import SymbolicHeap.Proofs.ArrayTheory.Totality
import SymbolicHeap.Proofs.PathCondition.Atoms
import SymbolicHeap.Proofs.PathCondition.SoftBounds
import SymbolicHeap.Proofs.Sorts.TypeSoundness
import SymbolicHeap.Proofs.Simplify.Shifts
import SymbolicHeap.Proofs.Simplify.Negations
import SymbolicHeap.Proofs.Simplify.Symmetry
import SymbolicHeap.Proofs.PathCondition.Partition
import SymbolicHeap.Proofs.Heap.Refusal
import SymbolicHeap.Proofs.Heap.Versions
import SymbolicHeap.Proofs.Heap.Splitting
