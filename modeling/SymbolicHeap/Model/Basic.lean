import SymbolicHeap.OrderedMap
import SymbolicHeap.Term.Basic

/-!
Contract: models given by explicit assignments.

A model assigns values to variables, contents to uninterpreted arrays, and
subtype facts to objects. A symbol without an assignment has the default value
of its sort.
-/

namespace SymbolicHeap

/-- The contents of an uninterpreted array. -/
structure ArrayContents where
  entries : OrderedMap (List Constant) Constant
  fallback : Option Constant

structure Model where
  assignment : OrderedMap String Constant
  arrays : OrderedMap String ArrayContents
  subtypes : List (Constant × String)

namespace Model

def empty : Model := ⟨.empty, .empty, []⟩

def assign (model : Model) (name : String) (value : Constant) : Model :=
  { model with assignment := model.assignment.insert name value }

def array (model : Model) (name : String) : ArrayContents :=
  (model.arrays.find? name).getD ⟨.empty, none⟩

def assignEntry
    (model : Model)
    (name : String)
    (indices : List Constant)
    (value : Constant) :
    Model :=
  let contents := model.array name
  { model with
    arrays := model.arrays.insert name
      { contents with entries := contents.entries.insert indices value } }

def setFallback (model : Model) (name : String) (value : Constant) : Model :=
  { model with
    arrays := model.arrays.insert name { model.array name with fallback := some value } }

def addSubtype (model : Model) (address : Constant) (typeName : String) : Model :=
  { model with subtypes := (address, typeName) :: model.subtypes }

/-- The model with one more value for each of some variables, in all
combinations; the last variable changes fastest. -/
def extensions (model : Model) : List (String × List Constant) → List Model
  | [] => [model]
  | (name, candidates) :: rest =>
      candidates.flatMap fun value => (model.assign name value).extensions rest

/-- An element of an uninterpreted array: its own entry, else the fallback of
the array, else the default of the element sort. -/
def lookupArray
    (model : Model)
    (name : String)
    (indices : List Constant)
    (range : ValueSort) :
    Except Fault Constant :=
  let contents := model.array name
  match (contents.entries.find? indices).or contents.fallback with
  | some value => .ok value
  | none => Constant.default range

end Model

end SymbolicHeap
