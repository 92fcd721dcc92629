/-!
# ProcScript — Command — Args

The command line.  `check INPUT [--json]` and `graph INPUT [-o FILE] [--title TEXT]` are the
commands; `-q`, `--log-level NAME` and `--config FILE` may stand before the command or behind
it, and what stands behind it counts.  Arguments are read from left to right, and the first
that has no meaning decides.  An option is given once where it stands; its value is the next
argument, which may not look like an option, or is attached to it; a file has a name that is
not empty.  Behind `--` nothing is an option.
-/

namespace ProcScript.Command

/-- The options. -/
inductive Opt where
  | quiet
  | logLevel
  | config
  | json
  | output
  | title
  | help
  | version
  deriving DecidableEq, Inhabited

namespace Opt

/-- The option has a value. -/
def takesValue : Opt → Bool
  | logLevel | config | output | title => true
  | quiet | json | help | version      => false

/-- The value of the option names a file. -/
def isFile : Opt → Bool
  | config | output => true
  | _               => false

end Opt

/-- The arguments that are known at one place of the command line. -/
structure Level where
  long : List (String × Opt)
  short : List (Char × Opt)
  /-- A word is the input, and not the name of a command. -/
  takesInput : Bool

namespace Level

/-- Before the command. -/
def top : Level where
  long := [("quiet", .quiet), ("log-level", .logLevel), ("config", .config), ("help", .help),
    ("version", .version)]
  short := [('q', .quiet), ('h', .help), ('V', .version)]
  takesInput := false

/-- Behind `check`. -/
def check : Level where
  long := [("quiet", .quiet), ("log-level", .logLevel), ("config", .config), ("help", .help),
    ("json", .json)]
  short := [('q', .quiet), ('h', .help)]
  takesInput := true

/-- Behind `graph`. -/
def graph : Level where
  long := [("quiet", .quiet), ("log-level", .logLevel), ("config", .config), ("help", .help),
    ("output", .output), ("title", .title)]
  short := [('q', .quiet), ('h', .help), ('o', .output)]
  takesInput := true

end Level

/-- What was given so far. -/
structure Given where
  values : List (Opt × String)
  input : Option String

/-- Why the reading of arguments ends early. -/
inductive Stop where
  | refused
  | help
  | version
  deriving DecidableEq, Inhabited

namespace Given

def none : Given := ⟨[], .none⟩

def has (g : Given) (o : Opt) : Bool := (g.values.lookup o).isSome

/-- With an option and its value. -/
def add (g : Given) (o : Opt) (value : String) : Except Stop Given :=
  if g.has o || o.isFile && value.isEmpty then .error .refused
  else .ok { g with values := g.values ++ [(o, value)] }

/-- With an option that has no value. -/
def switch (g : Given) : Opt → Except Stop Given
  | .help    => .error .help
  | .version => .error .version
  | o        => g.add o ""

/-- With the input. -/
def addInput (g : Given) (value : String) : Except Stop Given :=
  if g.input.isSome || value.isEmpty then .error .refused else .ok { g with input := some value }

end Given

namespace Level

/-- One-letter options in one argument; the last may still need its value. -/
def readShort (l : Level) (g : Given) : List Char → Except Stop (Given × Option Opt)
  | []      => .ok (g, none)
  | c :: cs =>
    match l.short.lookup c with
    | none   => .error .refused
    | some o =>
      if o.takesValue then
        match cs with
        | []        => .ok (g, some o)
        | '=' :: cs => do return (← g.add o (String.ofList cs), none)
        | cs        => do return (← g.add o (String.ofList cs), none)
      else do l.readShort (← g.switch o) cs

/-- An option by its name; it may still need its value. -/
def readLong (l : Level) (g : Given) (cs : List Char) : Except Stop (Given × Option Opt) :=
  match l.long.lookup (String.ofList (cs.takeWhile (· ≠ '='))), cs.dropWhile (· ≠ '=') with
  | none, _           => .error .refused
  | some o, []        =>
      if o.takesValue then .ok (g, some o) else do return (← g.switch o, none)
  | some o, _ :: value =>
      if o.takesValue then do return (← g.add o (String.ofList value), none) else .error .refused

/-- An argument looks like an option. -/
def looksLikeOption (arg : String) : Bool :=
  match arg.toList with
  | '-' :: _ :: _ => true
  | _             => false

/-- With an option and its value, which is an argument of its own. -/
def takeValue (g : Given) (o : Opt) (value : String) : Except Stop Given :=
  if looksLikeOption value then .error .refused else g.add o value

/-- The arguments of one place, and, where words name commands, the word that ends them and the
arguments behind it. -/
def read (l : Level) (g : Given) : List String → Except Stop (Given × List String)
  | []          => .ok (g, [])
  | arg :: args =>
    let named := match arg.toList with
      | '-' :: '-' :: c :: cs => some (l.readLong g (c :: cs))
      | ['-', '-']            => none
      | '-' :: c :: cs        => some (l.readShort g (c :: cs))
      | _                     => none
    match named with
    | some (.error e)       => .error e
    | some (.ok (g, none))  => l.read g args
    | some (.ok (g, some o)) =>
        match args with
        | []            => .error .refused
        | value :: args => do l.read (← takeValue g o value) args
    | none =>
        if arg = "--" then
          if l.takesInput then do return (← args.foldlM Given.addInput g, []) else .error .refused
        else if l.takesInput then do l.read (← g.addInput arg) args
        else .ok (g, arg :: args)

end Level

/-! ### What is asked for -/

/-- A command. -/
inductive Task where
  | check (input : String) (json : Bool)
  | graph (input : String) (output title : Option String)
  deriving DecidableEq, Inhabited

/-- The script that a command is about. -/
def Task.input : Task → String
  | .check input _   => input
  | .graph input _ _ => input

/-- A command with the options that all commands have. -/
structure Options where
  task : Task
  quiet : Bool
  logLevel : Option String
  config : Option String
  deriving DecidableEq, Inhabited

/-- The options that stand behind the command, or else before it. -/
def Options.of (task : Task) (before behind : Given) : Options where
  task := task
  quiet := before.has .quiet || behind.has .quiet
  logLevel := (behind.values.lookup .logLevel).or (before.values.lookup .logLevel)
  config := (behind.values.lookup .config).or (before.values.lookup .config)

/-- What the arguments of a command give, the input included. -/
def readTask (l : Level) (args : List String) : Except Stop (Given × String) := do
  let (g, _) ← l.read .none args
  match g.input with
  | some input => return (g, input)
  | none       => throw .refused

/-- The meaning of a command line. -/
def Options.ofArgs (args : List String) : Except Stop Options := do
  let (before, rest) ← Level.top.read .none args
  match rest with
  | "check" :: rest =>
      let (g, input) ← readTask .check rest
      return .of (.check input (g.has .json)) before g
  | "graph" :: rest =>
      let (g, input) ← readTask .graph rest
      return .of (.graph input (g.values.lookup .output) (g.values.lookup .title)) before g
  | "help" :: rest =>
      throw (if rest ∈ [[], ["check"], ["graph"], ["help"]] then .help else .refused)
  | _ => throw .refused

end ProcScript.Command
