/-!
# PeerBook.Command.Arguments

The arguments of the command line:

    [--data-dir DIR] [switches] COMMAND [options] [positionals]

Options with a value take it after an equals sign or as the next argument, which
then may not look like an option; switches of one letter may be joined. What
both levels understand may stand before the command or after it, but not twice on
one level. Arguments after `--` are positional.

Both levels are read by one function, `Command.readLevel`, which is told what
its level understands; the commands differ only in their `Command.levelOf`. An
error of usage, a request for help and one for the version all end the reading
(`Stop`), so what comes out otherwise is a complete invocation.
-/

namespace PeerBook.Command

/-- The identifiers that a command is given, as they were written. -/
structure AddressArguments where
  aci : Option String
  pni : Option String
  number : Option String
  username : Option String
  deriving DecidableEq

/-- What is to be done. -/
inductive Action where
  | resolve (address : AddressArguments)
  | lookup (address : AddressArguments)
  | «show» (id : String)
  | list
  | setAccount (number : String)
  | whoami
  deriving DecidableEq

/-- A call of the program. -/
structure Invocation where
  json : Bool
  verbose : Bool
  dataDir : Option String
  action : Action
  deriving DecidableEq

/-- Why there is nothing to be done. -/
inductive Stop where
  | usage
  | help
  | version
  deriving DecidableEq

/-! ## One level of arguments -/

/-- What a level of arguments understands besides what every level does. -/
structure Level where
  /-- The options with a value. -/
  options : List String
  /-- How many positional arguments there are. -/
  positionals : Nat
  /-- Whether it is the level of the commands. -/
  isTop : Bool

/-- What was given on a level so far. -/
structure Given where
  json : Bool := false
  verbose : Bool := false
  options : List (String × String) := []
  positionals : List String := []

/-- An argument by its look. -/
inductive Shape where
  | escape
  | long (name : String) (value : Option String)
  | short (letters : List Char)
  | plain

/-- The look of an argument. A single hyphen is plain. -/
def shape (arg : String) : Shape :=
  match arg.toList with
  | ['-', '-'] => .escape
  | '-' :: '-' :: cs =>
    let name := String.ofList (cs.takeWhile (· != '='))
    match cs.dropWhile (· != '=') with
    | [] => .long name none
    | _ :: value => .long name (some (String.ofList value))
  | '-' :: c :: cs => .short (c :: cs)
  | _ => .plain

/-- Notes the value of an option; none twice, and no directory without a name. -/
def Given.setOption (g : Given) (name value : String) : Except Stop Given :=
  if (g.options.lookup name).isSome || (name == "data-dir" && value.isEmpty) then
    .error .usage
  else
    .ok { g with options := g.options ++ [(name, value)] }

/-- Notes a switch; none twice. -/
def Given.setSwitch (g : Given) (level : Level) (name : String) : Except Stop Given :=
  if name == "json" && !g.json then .ok { g with json := true }
  else if name == "verbose" && !g.verbose then .ok { g with verbose := true }
  else if name == "help" then .error .help
  else if name == "version" && level.isTop then .error .version
  else .error .usage

/-- The switch of a letter. -/
def switchOf (c : Char) : String :=
  if c = 'j' then "json"
  else if c = 'v' then "verbose"
  else if c = 'h' then "help"
  else if c = 'V' then "version"
  else ""

/-- Notes a positional argument, if there is room. -/
def Given.addPositional (g : Given) (level : Level) (arg : String) : Except Stop Given :=
  if g.positionals.length < level.positionals then
    .ok { g with positionals := g.positionals ++ [arg] }
  else
    .error .usage

/-- Notes positional arguments. -/
def Given.addPositionals (g : Given) (level : Level) : List String → Except Stop Given
  | [] => .ok g
  | arg :: args => do (← g.addPositional level arg).addPositionals level args

/-- The commands. -/
def commandNames : List String := ["resolve", "lookup", "show", "list", "set-account", "whoami"]

/-- Whether there is help on what is asked for: on the whole or on one command. -/
def isTopic : List String → Bool
  | [] => true
  | [topic] => topic == "help" || commandNames.contains topic
  | _ => false

/-- Reads the arguments of a level. On the level of the commands it stops at a command and gives
back its name and the arguments after it. -/
def readLevel (level : Level) (g : Given) :
    List String → Except Stop (Given × Option (String × List String))
  | [] => .ok (g, none)
  | arg :: args =>
    match shape arg with
    | .escape => do return (← g.addPositionals level args, none)
    | .short letters => do
      let g ← letters.foldlM (fun g c => g.setSwitch level (switchOf c)) g
      readLevel level g args
    | .long name value =>
      if level.options.contains name then
        match value, args with
        | some value, args => do readLevel level (← g.setOption name value) args
        | none, next :: args =>
          match shape next with
          | .plain => do readLevel level (← g.setOption name next) args
          | _ => .error .usage
        | none, [] => .error .usage
      else if value.isSome then .error .usage
      else do readLevel level (← g.setSwitch level name) args
    | .plain =>
      if level.isTop then
        if commandNames.contains arg then .ok (g, some (arg, args))
        else if arg == "help" && isTopic args then .error .help
        else .error .usage
      else do readLevel level (← g.addPositional level arg) args

/-! ## Commands -/

/-- The options that name identifiers. -/
def addressOptions : List String := ["aci", "pni", "number", "username"]

/-- What the arguments of a command may be. -/
def levelOf (command : String) : Level :=
  if command == "resolve" || command == "lookup" then ⟨"data-dir" :: addressOptions, 0, false⟩
  else if command == "show" || command == "set-account" then ⟨["data-dir"], 1, false⟩
  else ⟨["data-dir"], 0, false⟩

/-- The identifiers among the options. -/
def Given.address (g : Given) : AddressArguments where
  aci := g.options.lookup "aci"
  pni := g.options.lookup "pni"
  number := g.options.lookup "number"
  username := g.options.lookup "username"

/-- The action of a command with its arguments. -/
def actionOf (command : String) (g : Given) : Except Stop Action :=
  match command, g.positionals with
  | "resolve", _ => .ok (.resolve g.address)
  | "lookup", _ => .ok (.lookup g.address)
  | "show", [id] => .ok (.show id)
  | "list", _ => .ok .list
  | "set-account", [number] => .ok (.setAccount number)
  | "whoami", _ => .ok .whoami
  | _, _ => .error .usage

/-- Reads the arguments of the program. The data directory given after the command counts before
the one in front of it, and that before the one of the environment. -/
def parse (environment : Option String) (args : List String) : Except Stop Invocation := do
  let (top, rest) ← readLevel ⟨["data-dir"], 0, true⟩ {} args
  match rest with
  | none => .error .usage
  | some (command, args) =>
    let (sub, _) ← readLevel (levelOf command) {} args
    let action ← actionOf command sub
    let dataDir := (sub.options.lookup "data-dir").or (top.options.lookup "data-dir")
    return ⟨top.json || sub.json, top.verbose || sub.verbose, dataDir.or environment, action⟩

end PeerBook.Command
