import LpcInspect.CommandLine.Address

/-!
# Arguments

The arguments are options, a command, and the options and the file of the command, in any order.
Options have a long name and may have a letter; letters can be joined, and a value follows its
option as the next argument or is attached to it. They are looked at one after the other, so that
what stands behind a request for help does not matter and what stands before it does.
`Request.parse?` gives `none` for arguments that do not make sense.
-/

namespace LpcInspect

/-- What to do with a program. -/
inductive Command where
  /-- Print a report. -/
  | dump (file : String) (withListing withLines : Bool) (output : Option String)
  /-- Print the listing of a window. -/
  | disasm (file : String) (start stop : Option Nat) (output : Option String)
  /-- Print the line table. -/
  | lines (file : String)
  /-- Check the program. -/
  | verify (file : String)
  deriving DecidableEq, Repr

/-- The file of a command. -/
def Command.file : Command → String
  | .dump file _ _ _ => file
  | .disasm file _ _ _ => file
  | .lines file => file
  | .verify file => file

/-- What the arguments ask for. -/
inductive Request where
  | help
  | version
  /-- A command, with the settings file if one is given. -/
  | run (config : Option String) (command : Command)
  deriving DecidableEq, Repr

namespace Arguments

/-- What follows an option. -/
inductive ValueKind where
  | none
  | path
  | address
  deriving DecidableEq, Repr

/-- A path, which is not empty. -/
def path? (text : String) : Option String := if text.isEmpty then .none else some text

/-- An address. -/
def address? (text : String) : Option Nat := (Address.parse text).toOption

/-- Whether a text is a value of a kind. -/
def ValueKind.accepts : ValueKind → String → Bool
  | .none, _ => true
  | .path, text => (path? text).isSome
  | .address, text => (address? text).isSome

/-- An option. -/
structure Spec where
  letter : Option Char
  name : String
  kind : ValueKind
  deriving DecidableEq, Repr

/-- Whether a value follows an option. -/
def Spec.hasValue (s : Spec) : Bool := s.kind != .none

/-- The settings file, which can be given before and after the command. -/
def config : Spec := ⟨some 'c', "config", .path⟩

/-- Ask for help. -/
def help : Spec := ⟨some 'h', "help", .none⟩

/-- Ask for the version. -/
def version : Spec := ⟨some 'V', "version", .none⟩

/-- Where to write. -/
def output : Spec := ⟨some 'o', "output", .path⟩

/-- Add the listing to a report. -/
def disassemble : Spec := ⟨some 'd', "disassemble", .none⟩

/-- Add the line table to a report. -/
def lines : Spec := ⟨some 'l', "lines", .none⟩

/-- The first address of a window. -/
def start : Spec := ⟨none, "start", .address⟩

/-- The address after a window. -/
def stop : Spec := ⟨none, "end", .address⟩

/-- An option as it was given; one without a value has an empty one. -/
structure Given where
  spec : Spec
  value : String := ""
  deriving DecidableEq, Repr

/-- The text after a sign of equality. -/
def afterEquals (cs : List Char) : List Char :=
  match cs with
  | '=' :: rest => rest
  | cs => cs

/-- Whether an argument can be a value: it does not look like an option. A dash alone does not. -/
def isValue (arg : String) : Bool :=
  match arg.toList with
  | '-' :: _ :: _ => false
  | _ => true

/-- The next argument as the value of an option. -/
def nextValue? : List String → Option (String × List String)
  | arg :: rest => if isValue arg then some (arg, rest) else none
  | [] => none

/-- An option by its name, with a value attached or as the next argument. -/
def longOption? (specs : List Spec) (cs : List Char) (rest : List String) :
    Option (List Given × List String) := do
  let name := String.ofList (cs.takeWhile (· != '='))
  let spec ← specs.find? fun s => s.name == name
  match cs.dropWhile (· != '=') with
  | '=' :: value =>
    if spec.hasValue then return ([⟨spec, String.ofList value⟩], rest) else none
  | _ =>
    if spec.hasValue then do
      let (value, rest) ← nextValue? rest
      return ([⟨spec, value⟩], rest)
    else return ([⟨spec, ""⟩], rest)

/-- The request that an option makes by itself. -/
def Spec.request? (s : Spec) : Option Request :=
  if s = help then some .help else if s = version then some .version else none

/-- Joined letters; the value of the first option that has one is what is left of the argument, or
the next argument. Letters after a request are not looked at. -/
def shortOptions? (specs : List Spec) : List Char → List String → Option (List Given × List String)
  | [], rest => some ([], rest)
  | c :: cs, rest => do
    let spec ← specs.find? fun s => s.letter == some c
    if spec.hasValue then
      if cs.isEmpty then do
        let (value, rest) ← nextValue? rest
        return ([⟨spec, value⟩], rest)
      else return ([⟨spec, String.ofList (afterEquals cs)⟩], rest)
    else if spec.request?.isSome then return ([⟨spec, ""⟩], rest)
    else do
      let (given, rest) ← shortOptions? specs cs rest
      return (⟨spec, ""⟩ :: given, rest)

/-- What stands at the front of some arguments. -/
inductive Front where
  | options (given : List Given) (rest : List String)
  | word (text : String) (rest : List String)
  /-- Two dashes, after which there are no options. -/
  | endOfOptions (rest : List String)
  | nothing

/-- Take the front of some arguments apart. -/
def front? (specs : List Spec) : List String → Option Front
  | [] => some .nothing
  | arg :: rest =>
    match arg.toList with
    | ['-', '-'] => some (.endOfOptions rest)
    | '-' :: '-' :: cs => (longOption? specs cs rest).map fun (given, rest) => .options given rest
    | '-' :: c :: cs =>
      (shortOptions? specs (c :: cs) rest).map fun (given, rest) => .options given rest
    | _ => some (.word arg rest)

/-- The options and the file of some arguments. -/
structure Scan where
  given : List Given := []
  file : Option String := none
  deriving DecidableEq, Repr

/-- Add a word, which has to be the file: a command has one file, and its path is not empty. -/
def Scan.addWord? (scan : Scan) (text : String) : Option Scan :=
  match scan.file with
  | some _ => none
  | none => (path? text).map fun path => { scan with file := some path }

/-- What taking options in turn leads to. -/
inductive Taken where
  /-- The options so far. -/
  | more (given : List Given)
  /-- An option that asks for something else. -/
  | request (request : Request)

/-- Add options to those given before; no option may be given twice, and values are examined one
after the other. -/
def addOptions? (before : List Given) : List Given → Option Taken
  | [] => some (.more before)
  | g :: rest =>
    match g.spec.request? with
    | some request => some (.request request)
    | none =>
      if before.any (fun b => b.spec == g.spec) || !g.spec.kind.accepts g.value then none
      else addOptions? (before ++ [g]) rest

/-- The value of an option. -/
def valueOf? (spec : Spec) (given : List Given) : Option String :=
  (given.find? fun g => g.spec == spec).map (·.value)

/-- Whether an option is given. -/
def isGiven (spec : Spec) (given : List Given) : Bool := (valueOf? spec given).isSome

/-- Scan the arguments of a command, at most `bound` of them. -/
def scanFrom (specs : List Spec) : Nat → Scan → List String → Option (Scan ⊕ Request)
  | 0, _, _ => none
  | bound + 1, scan, args =>
    match front? specs args with
    | none => none
    | some .nothing => some (.inl scan)
    | some (.endOfOptions rest) => (rest.foldlM Scan.addWord? scan).map .inl
    | some (.word text rest) =>
      match scan.addWord? text with
      | none => none
      | some scan => scanFrom specs bound scan rest
    | some (.options given rest) =>
      match addOptions? scan.given given with
      | none => none
      | some (.request request) => some (.inr request)
      | some (.more given) => scanFrom specs bound { scan with given } rest

/-- A command with its options, and how it is made from its file and what was given. -/
structure CommandSpec where
  name : String
  specs : List Spec
  make : String → List Given → Command

/-- The commands. -/
def commands : List CommandSpec := [
  ⟨"dump", [disassemble, lines, output], fun file given =>
    .dump file (isGiven disassemble given) (isGiven lines given) (valueOf? output given)⟩,
  ⟨"disasm", [start, stop, output], fun file given =>
    .disasm file ((valueOf? start given).bind address?) ((valueOf? stop given).bind address?)
      (valueOf? output given)⟩,
  ⟨"lines", [], fun file _ => .lines file⟩,
  ⟨"verify", [], fun file _ => .verify file⟩]

/-- Read the arguments after the name of a command. A settings file given there takes the place of
one given before. -/
def commandRequest? (outer : List Given) (c : CommandSpec) (args : List String) :
    Option Request := do
  match ← scanFrom (c.specs ++ [config, help]) (args.length + 1) {} args with
  | .inr request => return request
  | .inl scan =>
    let file ← scan.file
    return .run ((valueOf? config scan.given).or (valueOf? config outer)) (c.make file scan.given)

/-- The word that asks for help, about everything or about the command after it. -/
def helpWord : String := "help"

/-- Read the arguments after the word that asks for help: at most one, which has a help text. -/
def helpRequest? : List String → Option Request
  | [] => some .help
  | [topic] =>
    if topic == helpWord || commands.any (fun c => c.name == topic) then some .help else none
  | _ => none

/-- Read all arguments, at most `bound` of them before the name of the command. -/
def requestFrom : Nat → List Given → List String → Option Request
  | 0, _, _ => none
  | bound + 1, given, args =>
    match front? [config, help, version] args with
    | some (.word text rest) =>
      if text == helpWord then helpRequest? rest
      else
        match commands.find? fun c => c.name == text with
        | some c => commandRequest? given c rest
        | none => none
    | some (.options new rest) =>
      match addOptions? given new with
      | none => none
      | some (.request request) => some request
      | some (.more given) => requestFrom bound given rest
    | _ => none

end Arguments

/-- What some arguments ask for. -/
def Request.parse? (args : List String) : Option Request :=
  Arguments.requestFrom (args.length + 1) [] args

end LpcInspect
