import SymbolicHeap.Decode
import SymbolicHeap.Options
import SymbolicHeap.Reference
import SymbolicHeap.Region.Read
import SymbolicHeap.Region.Text

/-!
Contract: records of what can be observed of a single value.

Owns: the record of a sort, of a term, of a leaf of a reference, of options, of
a log's entries at one location, and of the answer to a decoder's question. A
record holds printed forms; the data itself is in `Document`.
-/

namespace SymbolicHeap

namespace Document

/-- A number as decimal text, for integers wider than a plain number holds. -/
def decimal (value : Int) : Document := .text (toString value)

def ofSort (sort : ValueSort) : Document := .text sort.text

/-- A constant by its printed form, or nothing. -/
def ofConstant? (value : Option Constant) : Document :=
  .optional (fun known => .text known.text) value

end Document

def ValueSort.profile (sort : ValueSort) : Document :=
  .fields
    [("show", .ofSort sort),
      ("integer", .flag sort.isInteger),
      ("reference", .flag sort.isReference),
      ("array", .flag sort.isArray),
      ("bits", .number sort.bitLength),
      ("range", .ofSort sort.range),
      ("domain", .list (sort.domain.map .ofSort)),
      ("json", sort.document)]

/-- The printed form of a term and what is known of it without a model. -/
def Term.profile (term : Term) : List (String × Document) :=
  [("v", .text term.text),
    ("sort", .ofSort term.sort),
    ("bool", .optional .flag term.asBool?),
    ("int", .optional (fun value => .decimal value.toInt) term.asInt?),
    ("const", .flag term.isConstant),
    ("input", .flag term.isInputReference),
    ("leaf", .flag !term.isConditional)]

def Address.kindName : Address → String
  | .null => "null"
  | .object _ => "concrete"
  | .symbolic _ => "symbolic"

def Leaf.profile (leaf : Leaf) : Document :=
  .list
    [.text leaf.address.kindName,
      .text leaf.address.toTerm.text,
      .flag leaf.address.isObject,
      .text leaf.guard.text]

def Options.profile (options : Options) : Document :=
  .list
    [.decimal options.solverTimeout,
      .flag options.inPlaceUpdates,
      .number options.unrollLimit,
      .flag options.softConstraints,
      .decimal options.softBound.toInt]

/-- What an entry does at a location: its guard, whether it covers the
location, the value it holds there, and where a ranged entry reads it from. -/
def Entry.profile (entry : Entry) (key : Key) : Except Fault Document := do
  let covered ← entry.includes key
  let value ← entry.valueAt key
  return .list
    [.text entry.guard.text,
      .text covered.text,
      .text value.text,
      .optional (fun redirected => .list [.text redirected.1.text, .text redirected.2.text])
        (entry.redirect? key)]

/-- The answer to a question; one about a stored location also names the region
and counts the locations of it that are known. -/
def Query.profile (query : Query) : Decoding Document := do
  let answer := Document.ofConstant? (← query.constant)
  match query with
  | .stored id _ _ =>
      return .list
        [.text id.text, answer, .number (← Decoder.regionDecoder id).known.length]
  | .value _ | .register _ | .location _ _ => return answer

end SymbolicHeap
