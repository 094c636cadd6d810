import SymbolicHeap.Document
import SymbolicHeap.Region.Basic

/-!
Contract: printed forms of keys, update entries, logs and regions, and the
record of a region's contents.
-/

namespace SymbolicHeap

/-- A named record with its fields in braces. -/
def recordText (name : String) (fields : List (String × String)) : String :=
  name ++ " \x7b " ++
    String.intercalate ", " (fields.map fun field => field.1 ++ ": " ++ field.2) ++ " \x7d"

def Key.text (key : Key) : String :=
  recordText "LocationKey"
    [("address", key.address.text),
      ("secondary",
        match key.secondary with
        | some secondary => "Some(" ++ secondary.text ++ ")"
        | none => "None")]

def Region.text (region : Region) : String :=
  region.id.text ++ " [" ++ toString region.objects.length ++ " allocated, " ++
    toString (Log.size region.input) ++ " input updates]"

def CopyRange.text (range : CopyRange) : String :=
  recordText "ArrayCopy"
    [("source_address", range.sourceAddress.text),
      ("source_from", range.sourceFrom.text),
      ("destination_address", range.destinationAddress.text),
      ("destination_from", range.destinationFrom.text),
      ("destination_to", range.destinationTo.text)]

namespace Entry

/-- A ranged update with its adapter and guard. -/
def rangedText (adapter : String) (guard : Term) : String :=
  "Ranged(ranged(" ++ adapter ++ " if " ++ guard.text ++ "))"

def text : Entry → String
  | .write key value guard =>
      recordText "Pinpoint" [("key", key.text), ("value", value.text), ("guard", guard.text)]
  | .copy _ range guard => rangedText range.text guard
  | .overlay _ members ends guard =>
      rangedText
        (recordText "MapMerge"
          [("source_address", ends.sourceAddress.text),
            ("destination_address", ends.destinationAddress.text),
            ("source_contains", members.text)])
        guard

end Entry

namespace Log

def entryTexts (log : Log) : List String := log.map fun node => node.entry.text

def text (log : Log) : String := bracketed (entryTexts log)

/-- The entries newest first; a log without entries is absent. -/
def document (log : Log) : Document :=
  if log.isEmpty then .null else .list ((entryTexts log).map .text)

end Log

namespace Region

def objectDocument (object : ObjectStore) : Document :=
  .list
    [.number object.address.toNat,
      .list (object.values.entries.map fun stored =>
        .list [.optional (fun slot => .text slot.text) stored.1, .text stored.2.text]),
      Log.document object.updates]

/-- The region's summary line, object stores and input log. -/
def fields (region : Region) : List (String × Document) :=
  [("region", .text region.text),
    ("objects", .list (region.objects.map objectDocument)),
    ("input", Log.document region.input)]

end Region

end SymbolicHeap
