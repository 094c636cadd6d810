import SymbolicHeap.ArrayTheory.Region
import SymbolicHeap.Memory.Basic
import SymbolicHeap.Model.Cached

/-!
Contract: the contents of a memory under a model.

Locations are decoded one by one, when they are asked for: the location's
array term is built and evaluated, and the answer is kept. All questions about
one memory share a session.
-/

namespace SymbolicHeap

/-- The locations of one region that were decoded. -/
structure RegionDecoder where
  region : Region
  known : List ((Constant × Option Constant) × Option Constant)

structure Decoder where
  model : Model
  memory : Memory
  session : Session
  regions : OrderedMap RegionId RegionDecoder

/-- Questions to a decoder; what it learned stays when one of them stops. -/
abbrev Decoding := ExceptT Fault (StateM Decoder)

namespace Decoder

def start (model : Model) (memory : Memory) : Decoder :=
  ⟨model, memory, .start Session.defaultUnrollLimit, .empty⟩

/-- Runs an encoding in the decoder's session. -/
def encoded {α : Type} (encoding : PartialEncoding α) : Decoding α := do
  let decoder ← get
  let (outcome, session) := encoding.run.run decoder.session
  set { decoder with session }
  outcome

def evaluated (term : Term) : Decoding (Option Constant) := do
  (← get).model.evaluate term

/-- The value of a term of the memory. -/
def eval (term : Term) : Decoding (Option Constant) := do
  evaluated (← encoded term.encode)

/-- The value of a register of the innermost frame. -/
def register (index : Nat) : Decoding (Option Constant) := do
  match (← get).memory.register? index with
  | some value => eval value
  | none => return none

/-- The decoder of a region, made when it is first asked for. -/
def regionDecoder (id : RegionId) : Decoding RegionDecoder := do
  let decoder ← get
  match decoder.regions.find? id with
  | some known => return known
  | none =>
      let created : RegionDecoder := ⟨decoder.memory.regionFor id, []⟩
      set { decoder with regions := decoder.regions.insert id created }
      return created

/-- The contents of a location given by constants, computed anew. -/
def compute (region : Region) (address : Constant) (secondary : Option Constant) :
    Decoding (Option Constant) := do
  match address with
  | .null => return some (← (Constant.default region.id.valueSort : Decoding Constant))
  | .heap _ | .input _ =>
      evaluated (← encoded (region.encodeRead ⟨.const address, secondary.map .const⟩))
  | .bottom | .bool _ | .i32 _ | .i64 _ => return none

/-- The contents of a location given by constants. -/
def readAt (id : RegionId) (address : Constant) (secondary : Option Constant) :
    Decoding (Option Constant) := do
  let decoder ← regionDecoder id
  match decoder.known.lookup (address, secondary) with
  | some answer => return answer
  | none =>
      let answer ← compute decoder.region address secondary
      modify fun all =>
        { all with
          regions := all.regions.insert id
            { decoder with known := ((address, secondary), answer) :: decoder.known } }
      return answer

/-- The contents of the location that a key denotes under the model. -/
def read (id : RegionId) (key : Key) : Decoding (Option Constant) := do
  match ← eval key.address with
  | none => return none
  | some address =>
      match key.secondary with
      | none => readAt id address none
      | some secondary =>
          match ← eval secondary with
          | none => return none
          | some slot => readAt id address (some slot)

end Decoder

/-- A question to a decoder. -/
inductive Query where
  | value (term : Term)
  | register (index : Nat)
  | location (id : RegionId) (key : Key)
  /-- A location given by constants; the answer also counts the known ones. -/
  | stored (id : RegionId) (address : Constant) (secondary : Option Constant)

namespace Query

/-- The constant that a question asks for. -/
def constant : Query → Decoding (Option Constant)
  | .value term => Decoder.eval term
  | .register index => Decoder.register index
  | .location id key => Decoder.read id key
  | .stored id address secondary => Decoder.readAt id address secondary

end Query

end SymbolicHeap
