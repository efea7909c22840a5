import Sweep.CommandLine
/-!
# Reading command lines

A command line has two levels: what stands before the name of the task, and what follows it. A level
is read argument by argument. Values that belong together are held until the next flag or the end
of the level settles them, so a fault in a flag may be told before a fault in a value. After two
dashes every argument is a value.
-/

namespace Sweep.CommandLine

/-- An argument as it is given, which need not be UTF-8. -/
abbrev Argument := List UInt8

/-- The name of a task. -/
inductive Verb where
  | plan
  | walk
  | check
  deriving DecidableEq, Repr

/-- A flag. -/
inductive Flag where
  | more
  | less
  | help
  | version
  | settingsFile
  | explain
  deriving DecidableEq, Repr

/-- The level of an argument: before the task, or that of a task. -/
abbrev Level := Option Verb

/-! ## Names -/

/-- An ASCII character as a byte. -/
def byte (c : Char) : UInt8 := c.toNat.toUInt8

/-- The names of tasks. -/
def verbNames : List (Argument × Verb) :=
  [("plan".toList.map byte, .plan), ("walk".toList.map byte, .walk),
    ("check".toList.map byte, .check)]

/-- The word that asks for help in place of a task. -/
def helpWord : Argument := "help".toList.map byte

/-- Whether the argument may stand where a task does. -/
def isTaskWord (a : Argument) : Bool := a == helpWord || (verbNames.lookup a).isSome

/-- The argument after which all are values. -/
def twoDashes : Argument := [byte '-', byte '-']

/-- Flags of one letter. -/
def letters : List (UInt8 × Flag) :=
  [(byte 'v', .more), (byte 'q', .less), (byte 'h', .help), (byte 'V', .version),
    (byte 'c', .settingsFile), (byte 'e', .explain)]

/-- Flags of a word. -/
def words : List (Argument × Flag) :=
  [("verbose".toList.map byte, .more), ("quiet".toList.map byte, .less),
    ("help".toList.map byte, .help), ("version".toList.map byte, .version),
    ("conffile".toList.map byte, .settingsFile), ("explain".toList.map byte, .explain)]

/-- Whether the flag may be given at a level. -/
def Flag.belongsTo (level : Level) : Flag → Bool
  | .more | .less | .help => true
  | .version | .settingsFile => level == none
  | .explain => level == some .plan

/-- The flag of a letter at a level. -/
def letter? (level : Level) (b : UInt8) : Option Flag := (letters.lookup b).filter (·.belongsTo level)

/-- The flag of a word at a level. -/
def word? (level : Level) (a : Argument) : Option Flag := (words.lookup a).filter (·.belongsTo level)

/-! ## Settling values -/

/-- Values that are held. -/
inductive Held where
  | nothing
  /-- The file of settings, if its value is there. -/
  | settingsFile (value : Option Argument)
  /-- Paths to check. -/
  | paths (values : List Argument)
  deriving DecidableEq, Repr

/-- What was read of a level. -/
structure Reading where
  more : Nat := 0
  less : Nat := 0
  explain : Bool := false
  settingsFile : Option Path := none
  paths : List Path := []
  held : Held := .nothing
  deriving DecidableEq, Repr

/-- How often a flag is counted at most. -/
def countLimit : Nat := 255

namespace Reading

/-- Whether the next value is that of the file of settings. -/
def awaitsFile (r : Reading) : Bool := r.held == .settingsFile none

/-- Takes the file of settings, which must be there and may be given once. -/
def takeFile (fileExists : Path → Bool) (r : Reading) (value : Argument) : Except Usage Reading :=
  if r.settingsFile.isSome then .error .conflict
  else if (Utf8.strict? value).isNone then .error .notText
  else if fileExists ⟨value⟩ then .ok { r with settingsFile := some ⟨value⟩ }
  else .error .unfitValue

/-- Takes paths to check, which must start at the root. -/
def takePaths (r : Reading) : List Argument → Except Usage Reading
  | [] => .ok r
  | value :: values =>
    if (Utf8.strict? value).isNone then .error .notText
    else if (Path.mk value).isAbsolute then
      takePaths { r with paths := r.paths ++ [⟨value⟩] } values
    else .error .unfitValue

/-- Takes the values that are held. -/
def settle (fileExists : Path → Bool) (r : Reading) : Except Usage Reading :=
  let free := { r with held := .nothing }
  match r.held with
  | .nothing => .ok r
  | .settingsFile none => .error .missingValue
  | .settingsFile (some value) => free.takeFile fileExists value
  | .paths values => free.takePaths values

/-! ## Reading arguments -/

/-- Takes a flag that comes without a value. -/
def raise (fileExists : Path → Bool) (r : Reading) (flag : Flag) : Except Usage Reading := do
  let r ← r.settle fileExists
  match flag with
  | .more => .ok { r with more := min countLimit (r.more + 1) }
  | .less => .ok { r with less := min countLimit (r.less + 1) }
  | .help => .error .help
  | .version => .error .version
  | .settingsFile => .ok { r with held := .settingsFile none }
  | .explain => if r.explain then .error .conflict else .ok { r with explain := true }

/-- Takes the file of settings that comes with its flag. -/
def takeAttached (fileExists : Path → Bool) (r : Reading) (value : Argument) :
    Except Usage Reading := do
  let r ← r.settle fileExists
  r.takeFile fileExists value

/-- Takes what follows two dashes: a word, and a value if there is an equals sign. -/
def takeWord (fileExists : Path → Bool) (level : Level) (r : Reading) (body : Argument) :
    Except Usage Reading :=
  let value := body.dropWhile (· ≠ byte '=')
  match word? level (body.takeWhile (· ≠ byte '=')), value with
  | none, _ => .error .unknownArgument
  | some flag, [] => r.raise fileExists flag
  | some .settingsFile, _ :: value => r.takeAttached fileExists value
  | some _, _ :: _ => .error .needlessValue

/-- Takes what follows one dash: letters, the last of them with a value right behind it or behind an
equals sign. -/
def takeLetters (fileExists : Path → Bool) (level : Level) (r : Reading) :
    Argument → Except Usage Reading
  | [] => .ok r
  | b :: rest =>
    match letter? level b, rest with
    | none, _ => .error .unknownArgument
    | some .settingsFile, c :: value =>
      r.takeAttached fileExists (if c = byte '=' then value else c :: value)
    | some flag, rest => do
      let r ← r.raise fileExists flag
      takeLetters fileExists level r rest

/-- Takes a value that belongs to no flag. -/
def takeValue (level : Level) (r : Reading) (a : Argument) : Except Usage Reading :=
  match level with
  | none => .error .unknownTask
  | some .check =>
    match r.held with
    | .paths values => .ok { r with held := .paths (values ++ [a]) }
    | _ => .ok { r with held := .paths [a] }
  | some _ => .error .unknownArgument

/-- Takes an argument that is neither two dashes nor the name of a task. -/
def take (fileExists : Path → Bool) (level : Level) (r : Reading) (a : Argument) :
    Except Usage Reading :=
  match a with
  | d :: e :: rest =>
    if d = byte '-' then
      if e = byte '-' then r.takeWord fileExists level rest
      else r.takeLetters fileExists level (e :: rest)
    else plain
  | _ => plain
where
  /-- The argument is no flag. -/
  plain :=
    if r.awaitsFile then .ok { r with held := .settingsFile (some a) } else r.takeValue level a

/-- Reads arguments that are all values. -/
def readValues (level : Level) (r : Reading) : List Argument → Except Usage Reading
  | [] => .ok r
  | a :: as =>
    if level == none && isTaskWord a then .error .unknownArgument
    else do
      let r ← r.takeValue level a
      readValues level r as

/-- The answer to a word for help and what follows it, which may be the name of one task. -/
def helpOn (topics : List Argument) : Usage :=
  match topics with
  | [] => .help
  | [a] => if isTaskWord a then .help else .unknownTask
  | _ => .unknownTask

/-- Reads a level. Before the task, the level ends at its name; the rest is left. -/
def read (fileExists : Path → Bool) (level : Level) (r : Reading) :
    List Argument → Except Usage (Reading × Option (Verb × List Argument))
  | [] => .ok (r, none)
  | a :: as =>
    if level == none && !r.awaitsFile && isTaskWord a then
      -- The word for help is the only one that names no task.
      match verbNames.lookup a with
      | some verb => .ok (r, some (verb, as))
      | none => .error (helpOn as)
    else if a = twoDashes then do
      let r ← r.readValues level as
      return (r, none)
    else do
      let r ← r.take fileExists level a
      read fileExists level r as

/-- Ends a level: what is held is settled, and flags for more and for less cannot stand together. -/
def finish (fileExists : Path → Bool) (r : Reading) : Except Usage Reading := do
  let r ← r.settle fileExists
  if 0 < r.more ∧ 0 < r.less then .error .conflict else return r

/-- The task of a level. -/
def task (r : Reading) : Verb → Except Usage Task
  | .plan => .ok (.plan r.explain)
  | .walk => .ok .walk
  | .check => if r.paths = [] then .error .missingPath else .ok (.check r.paths)

end Reading

/-- A count of the task's level, or that of the level before it if it has none. -/
def inner (below above : Nat) : Nat := if below = 0 then above else below

/-- Reads a command line. The level of the task is ended first. -/
def parse (fileExists : Path → Bool) (args : List Argument) : Except Usage CommandLine := do
  match ← Reading.read fileExists none {} args with
  | (top, none) =>
    let top ← top.settle fileExists
    .error (if top = {} then .nothingGiven else .missingTask)
  | (top, some (verb, rest)) =>
    -- The level of a task reads to the end, so nothing is left of it.
    let (below, _) ← Reading.read fileExists (some verb) {} rest
    let below ← below.finish fileExists
    let task ← below.task verb
    let top ← top.finish fileExists
    return {
      settingsFile := top.settingsFile
      verbosity := .ofFlags (inner below.more top.more) (inner below.less top.less)
      task }

end Sweep.CommandLine
