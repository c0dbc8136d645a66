/-!
# Options of the demonstration

The demonstration takes four options, each with a value and each at most once: `-c` or
`--target_capacity`, `-l` or `--load`, `-s` or `--stride`, and `--hasher`. The value of a long
option follows in the next argument or behind an equals sign; the value of a short one follows
in the next argument or in the same one. Numbers are decimal and fit a 64-bit word.
-/

namespace HomeChain.Demo

/-- How the demonstration hashes its keys. -/
inductive Hasher where
  /-- By whatever hash is usual. -/
  | usual
  /-- Every key to itself. -/
  | identity
deriving DecidableEq, Repr

/-- What the demonstration is to do. -/
structure Options where
  /-- The number of entries there is to be room for. -/
  targetCapacity : Nat
  /-- How full the table is to be, in percent of its capacity. -/
  load : Nat
  /-- The distance between one key and the next. -/
  stride : UInt64
  /-- How keys are hashed. -/
  hasher : Hasher
deriving DecidableEq, Repr

/-- The options given so far. -/
structure Given where
  targetCapacity : Option Nat := none
  load : Option Nat := none
  stride : Option Nat := none
  hasher : Option Hasher := none

/-- An option that takes a value. -/
inductive Name where
  | targetCapacity
  | load
  | stride
  | hasher
deriving DecidableEq, Repr

/-- The option with a long name. -/
def Name.ofLong : String → Option Name
  | "target_capacity" => some targetCapacity
  | "load" => some load
  | "stride" => some stride
  | "hasher" => some hasher
  | _ => none

/-- The option with a short name. -/
def Name.ofShort : Char → Option Name
  | 'c' => some targetCapacity
  | 'l' => some load
  | 's' => some stride
  | _ => none

/-- The number below `2 ^ 64` that a text spells in decimal digits, perhaps behind a plus
sign. -/
def readWord (text : String) : Option Nat :=
  let digits :=
    match text.toList with
    | '+' :: rest => rest
    | all => all
  if digits.isEmpty || !digits.all Char.isDigit then none
  else
    let n := digits.foldl (fun n c => 10 * n + (c.toNat - '0'.toNat)) 0
    if n < 1 <<< 64 then some n else none

/-- The way of hashing that a text names. -/
def readHasher : String → Option Hasher
  | "default" => some .usual
  | "identity" => some .identity
  | _ => none

/-- Gives an option its value, unless it has one already or the value is no good. -/
def Given.set (given : Given) (name : Name) (value : String) : Option Given :=
  match name, given with
  | .targetCapacity, { targetCapacity := none, .. } =>
    (readWord value).map fun n => { given with targetCapacity := some n }
  | .load, { load := none, .. } =>
    (readWord value).map fun n => { given with load := some n }
  | .stride, { stride := none, .. } =>
    (readWord value).map fun n => { given with stride := some n }
  | .hasher, { hasher := none, .. } =>
    (readHasher value).map fun h => { given with hasher := some h }
  | _, _ => none

/-- The part of an argument in front of the first equals sign, and the part behind it. -/
def splitAtEquals (cs : List Char) : String × Option String :=
  let name := String.ofList (cs.takeWhile (· ≠ '='))
  match cs.dropWhile (· ≠ '=') with
  | [] => (name, none)
  | _ :: value => (name, some (String.ofList value))

/-- What a single argument says. -/
inductive Argument where
  /-- An option together with its value. -/
  | complete (name : Name) (value : String)
  /-- An option whose value is the next argument. -/
  | awaiting (name : Name)
  /-- The end of the options. -/
  | endOfOptions
  /-- Nothing the demonstration knows. -/
  | unknown
deriving DecidableEq, Repr

/-- Reads a single argument. -/
def Argument.read (text : String) : Argument :=
  match text.toList with
  | ['-', '-'] => endOfOptions
  | '-' :: '-' :: rest =>
    match splitAtEquals rest with
    | (long, value) =>
      match Name.ofLong long, value with
      | some name, some value => complete name value
      | some name, none => awaiting name
      | none, _ => unknown
  | '-' :: short :: rest =>
    match Name.ofShort short, rest with
    | some name, [] => awaiting name
    | some name, '=' :: value => complete name (String.ofList value)
    | some name, value => complete name (String.ofList value)
    | none, _ => unknown
  | _ => unknown

/-- Reads arguments on top of the options given so far. -/
def Given.read (given : Given) : List String → Option Given
  | [] => some given
  | text :: rest =>
    match Argument.read text with
    | .complete name value => (given.set name value).bind fun given => given.read rest
    | .awaiting name =>
      match rest with
      | [] => none
      | value :: rest => (given.set name value).bind fun given => given.read rest
    | .endOfOptions => if rest.isEmpty then some given else none
    | .unknown => none

/-- The options that some arguments stand for, the missing ones at their usual values; none if
the arguments are not understood. -/
def Options.ofArguments? (arguments : List String) : Option Options :=
  (Given.read {} arguments).map fun given =>
    { targetCapacity := given.targetCapacity.getD 1000
      load := given.load.getD 100
      stride := (given.stride.getD 1).toUInt64
      hasher := given.hasher.getD .usual }

end HomeChain.Demo
