import SymbolicHeap.ArrayTheory.Session
import SymbolicHeap.Words

/-!
Contract: the options of a run and their command-line form.

Arguments up to the first `--` are options; what follows is handed back. Every
option has one long name and may occur once. A value stands in the next
argument, which must not start with a dash, or behind an equals sign. The
timeout is read as an unsigned number; the other two numbers are read with a
sign and then checked against their bounds, so that a negative zero is a zero.
Bad arguments change nothing.
-/

namespace SymbolicHeap

structure Options where
  /-- Milliseconds that a query may take. -/
  solverTimeout : Nat
  inPlaceUpdates : Bool
  unrollLimit : Nat
  softConstraints : Bool
  softBound : Int64
deriving DecidableEq

inductive OptionsError where
  | openQuote
  | badArguments
deriving DecidableEq

/-- Arguments that are refused by themselves carry no wording of their own. -/
def OptionsError.message? : OptionsError → Option String
  | .openQuote => some "invalid options: cannot parse argument string: MismatchedQuotes"
  | .badArguments => none

namespace Options

def initial : Options :=
  { solverTimeout := 5000
    inPlaceUpdates := true
    unrollLimit := Session.defaultUnrollLimit
    softConstraints := false
    softBound := 256 }

/-! ## Numbers -/

/-- A non-empty run of decimal digits. -/
def readDigits (digits : List Char) : Option Nat :=
  if digits.isEmpty then none
  else
    digits.foldlM
      (fun value c => if c.isDigit then some (10 * value + (c.toNat - '0'.toNat)) else none) 0

/-- A number below a limit, with an optional plus sign. -/
def readNat (limit : Nat) (text : String) : Option Nat :=
  let digits :=
    match text.toList with
    | '+' :: rest => rest
    | characters => characters
  (readDigits digits).filter (· < limit)

/-- A number with an optional sign. -/
def readSigned (text : String) : Option Int :=
  match text.toList with
  | '-' :: rest => (readDigits rest).map fun value => -(value : Int)
  | '+' :: rest => (readDigits rest).map fun value => (value : Int)
  | characters => (readDigits characters).map fun value => (value : Int)

/-- A signed number within bounds. -/
def readBetween (least greatest : Int) (text : String) : Option Int :=
  (readSigned text).filter fun value => least ≤ value && value ≤ greatest

/-! ## Arguments -/

/-- The names that an argument may have. -/
inductive Name where
  | solverTimeout
  | noInPlaceUpdates
  | maxUnrolledRange
  | softConstraints
  | softBound
deriving DecidableEq

def Name.ofText? : String → Option Name
  | "--solver_timeout" => some .solverTimeout
  | "--no_in_place_updates" => some .noInPlaceUpdates
  | "--max_unrolled_range" => some .maxUnrolledRange
  | "--soft_constraints" => some .softConstraints
  | "--soft_bound" => some .softBound
  | _ => none

/-- Sets an option that is a flag. -/
def raise? (options : Options) : Name → Option Options
  | .noInPlaceUpdates => some { options with inPlaceUpdates := false }
  | .softConstraints => some { options with softConstraints := true }
  | .solverTimeout | .maxUnrolledRange | .softBound => none

/-- Sets an option that takes a value. -/
def assign? (options : Options) (name : Name) (value : String) : Option Options :=
  match name with
  | .solverTimeout =>
      (readNat UInt64.size value).map fun number => { options with solverTimeout := number }
  | .maxUnrolledRange =>
      (readBetween 0 (UInt32.size - 1) value).map fun number =>
        { options with unrollLimit := number.toNat }
  | .softBound =>
      (readBetween Int64.minValue.toInt Int64.maxValue.toInt value).map fun number =>
        { options with softBound := Int64.ofInt number }
  | .noInPlaceUpdates | .softConstraints => none

/-- How far the arguments have been read. -/
structure Progress where
  options : Options
  seen : List Name
  /-- The option whose value comes next. -/
  pending : Option Name

/-- An argument at its equals sign. -/
def cutValue (argument : String) : String × Option String :=
  let characters := argument.toList
  let name := characters.takeWhile (· ≠ '=')
  match characters.dropWhile (· ≠ '=') with
  | [] => (argument, none)
  | _ :: value => (String.ofList name, some (String.ofList value))

def Progress.step (progress : Progress) (argument : String) : Option Progress :=
  match progress.pending with
  | some name =>
      if argument.toList.head? = some '-' then none
      else
        (progress.options.assign? name argument).map fun options =>
          { progress with options, pending := none }
  | none => do
      let (nameText, value?) := cutValue argument
      let name ← Name.ofText? nameText
      if name ∈ progress.seen then none
      else
        let seen := name :: progress.seen
        match value?, progress.options.raise? name with
        | some value, _ =>
            (progress.options.assign? name value).map fun options => ⟨options, seen, none⟩
        | none, some options => some ⟨options, seen, none⟩
        | none, none => some ⟨progress.options, seen, some name⟩

/-- Reads arguments on top of some options, and hands back what follows the
first `--`. -/
def parseArguments (options : Options) (arguments : List String) :
    Except OptionsError (Options × List String) :=
  let own := arguments.takeWhile (· ≠ "--")
  match own.foldlM Progress.step ⟨options, [], none⟩ with
  | some ⟨options, _, none⟩ => .ok (options, (arguments.drop own.length).tail)
  | _ => .error .badArguments

/-- Reads an argument string on top of some options. -/
def parse (options : Options) (text : String) : Except OptionsError (Options × List String) :=
  match Words.split text with
  | some words => options.parseArguments words
  | none => .error .openQuote

/-- The options of an environment variable, which may be unset. -/
def ofEnvironment (value? : Option String) : Except OptionsError Options :=
  match value? with
  | some text => (initial.parse text).map Prod.fst
  | none => .ok initial

end Options

end SymbolicHeap
