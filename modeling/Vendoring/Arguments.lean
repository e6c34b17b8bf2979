import Vendoring.Config
/-!
# Command-line arguments

A command line is read from left to right against the options of a command.  An option that takes a
value may be followed by it or carry it after an equals sign (a short one also directly); a value
that stands apart is only taken up when the next option or the end comes, so a fault further on in
the same argument can win over one in the value.  An option may be given once, unless it may be
repeated.
-/
namespace Vendoring

/-- What every command that revises imports takes. -/
structure Flags where
  vendor : Option Path
  consumers : List Path
  rename : Option String
  vendorModule : Option String
  log : Bool
  dryRun : Bool
  json : Bool
deriving DecidableEq, Repr

inductive Command where
  | revise (flags : Flags)
  | vendor (requirements : Option Path) (python : Option String) (flags : Flags)
  | packages (vendor : Option Path)
  | init (directory : Option Path) (force : Bool)
deriving DecidableEq, Repr

namespace Arguments

/-! ## Refusals -/

/-- Why no command is run.  Asking for help or the version is no failure. -/
inductive Refusal where
  | help
  | version
  | helpForNothing
  | unknownCommand
  | unknownArgument
  | badValue
  | unwantedValue
  | givenTwice
deriving DecidableEq, Repr

def Refusal.exitCode : Refusal → Nat
  | .help | .version => 0
  | _ => 2

/-! ## Options -/

inductive OptionKind where
  | flag
  /-- An option that ends the reading. -/
  | stop (r : Refusal)
  | value (mayBeEmpty mayRepeat : Bool)
deriving DecidableEq, Repr

structure OptionSpec where
  name : String
  short : Option Char
  kind : OptionKind
deriving DecidableEq, Repr

/-- An option that was given, and its value if it takes one. -/
structure Given where
  name : String
  value : String
deriving DecidableEq, Repr

/-- What has been read: the options given, the latest first, and a value option that is not taken up
yet, with its value once that has come. -/
structure Progress where
  given : List Given
  pending : Option (OptionSpec × Option String)
deriving DecidableEq, Repr

namespace Progress

def start : Progress := ⟨[], none⟩

def has (p : Progress) (name : String) : Bool := p.given.any (fun g => g.name == name)

/-- Takes up an option with its value. -/
def take (p : Progress) (spec : OptionSpec) (value : String) : Except Refusal Progress :=
  match spec.kind with
  | .stop r => .error r
  | .flag =>
    if p.has spec.name then .error .givenTwice else .ok { p with given := ⟨spec.name, ""⟩ :: p.given }
  | .value mayBeEmpty mayRepeat =>
    if !mayRepeat && p.has spec.name then .error .givenTwice
    else if !mayBeEmpty && value.isEmpty then .error .badValue
    else .ok { p with given := ⟨spec.name, value⟩ :: p.given }

/-- Takes up the option that waits. -/
def settle (p : Progress) : Except Refusal Progress :=
  match p.pending with
  | none => .ok p
  | some (_, none) => .error .badValue
  | some (spec, some value) => take { p with pending := none } spec value

/-- An option without a value, after the one that waits. -/
def takeBare (p : Progress) (spec : OptionSpec) : Except Refusal Progress := do
  let p ← p.settle
  match spec.kind with
  | .value .. => .ok { p with pending := some (spec, none) }
  | _ => p.take spec ""

def takeWith (p : Progress) (spec : OptionSpec) (value : String) : Except Refusal Progress := do
  let p ← p.settle
  p.take spec value

/-- Whether the next argument that is no option is a value. -/
def awaitsValue (p : Progress) : Option OptionSpec :=
  match p.pending with
  | some (spec, none) => some spec
  | _ => none

end Progress

def OptionSpec.takesValue (spec : OptionSpec) : Bool :=
  match spec.kind with
  | .value .. => true
  | _ => false

/-- A long option, without its dashes. -/
def readLong (specs : List OptionSpec) (p : Progress) (text : List Char) :
    Except Refusal Progress :=
  let name := String.ofList (text.takeWhile (· != '='))
  match specs.find? (·.name == name), text.dropWhile (· != '=') with
  | none, _ => .error .unknownArgument
  | some spec, [] => p.takeBare spec
  | some spec, _ :: value =>
    if spec.takesValue then p.takeWith spec (String.ofList value) else .error .unwantedValue

/-- Short options, without their dash; the first that takes a value takes what follows it. -/
def readShort (specs : List OptionSpec) (p : Progress) : List Char → Except Refusal Progress
  | [] => .ok p
  | c :: cs =>
    match specs.find? (·.short == some c) with
    | none => .error .unknownArgument
    | some spec =>
      if !spec.takesValue then
        match p.takeBare spec with
        | .error r => .error r
        | .ok p => readShort specs p cs
      else match cs with
        | [] => p.takeBare spec
        | '=' :: value => p.takeWith spec (String.ofList value)
        | value => p.takeWith spec (String.ofList value)

/-- The arguments of a command; none may stand alone. -/
def readOptions (specs : List OptionSpec) (p : Progress) : List String → Except Refusal Progress
  | [] => p.settle
  | a :: rest =>
    match a.toList with
    | ['-', '-'] => if rest.isEmpty then p.settle else .error .unknownArgument
    | '-' :: '-' :: text =>
      match readLong specs p text with
      | .error r => .error r
      | .ok p => readOptions specs p rest
    | '-' :: c :: text =>
      match readShort specs p (c :: text) with
      | .error r => .error r
      | .ok p => readOptions specs p rest
    | _ =>
      match p.awaitsValue with
      | some spec => readOptions specs { p with pending := some (spec, some a) } rest
      | none => .error .unknownArgument

/-! ## Commands -/

def helpOption : OptionSpec := ⟨"help", some 'h', .stop .help⟩

def pathOption (name : String) : OptionSpec := ⟨name, none, .value false false⟩

def textOption (name : String) : OptionSpec := ⟨name, none, .value true false⟩

def reviseOptions : List OptionSpec :=
  [pathOption "vendor", ⟨"consumer", none, .value false true⟩, textOption "rename",
    textOption "vendor-module", ⟨"log", some 'l', .flag⟩, ⟨"dry-run", some 'd', .flag⟩,
    ⟨"json", none, .flag⟩, helpOption]

def vendorOptions : List OptionSpec :=
  [pathOption "requirements", textOption "python"] ++ reviseOptions

def packagesOptions : List OptionSpec := [pathOption "vendor", helpOption]

def initOptions : List OptionSpec :=
  [⟨"cwd", some 'c', .value true false⟩, ⟨"force", some 'f', .flag⟩, helpOption]

namespace Progress

def value? (p : Progress) (name : String) : Option String :=
  (p.given.find? (·.name == name)).map (·.value)

def path? (p : Progress) (name : String) : Option Path := (p.value? name).map Path.ofString

def flags (p : Progress) : Flags where
  vendor := p.path? "vendor"
  consumers := (p.given.reverse.filter (·.name == "consumer")).map (Path.ofString ·.value)
  rename := p.value? "rename"
  vendorModule := p.value? "vendor-module"
  log := p.has "log"
  dryRun := p.has "dry-run"
  json := p.has "json"

end Progress

inductive CommandName where
  | revise
  | vendor
  | packages
  | init
  | help
deriving DecidableEq, Repr

def commandName? (word : String) : Option CommandName :=
  if word == "rewrite" || word == "r" then some .revise
  else if word == "vendor" then some .vendor
  else if word == "packages" then some .packages
  else if word == "init" then some .init
  else if word == "help" then some .help
  else none

/-- Help is for a command, or for all; there is none deeper down. -/
def readHelp : List String → Refusal
  | [] => .help
  | [word] => if (commandName? word).isSome then .help else .unknownCommand
  | _ => .unknownCommand

def readCommand (name : CommandName) (args : List String) : Except Refusal Command :=
  match name with
  | .revise => (readOptions reviseOptions .start args).map (fun p => .revise p.flags)
  | .vendor => (readOptions vendorOptions .start args).map (fun p =>
      .vendor (p.path? "requirements") (p.value? "python") p.flags)
  | .packages => (readOptions packagesOptions .start args).map (fun p => .packages (p.path? "vendor"))
  | .init => (readOptions initOptions .start args).map (fun p => .init (p.path? "cwd") (p.has "force"))
  | .help => .error (readHelp args)

/-- What may stand before the command. -/
def topOptions : List OptionSpec := [helpOption, ⟨"version", some 'V', .stop .version⟩]

/-- Reads a whole command line, the program's name left out. -/
def read : List String → Except Refusal Command
  | [] => .error .helpForNothing
  | a :: rest =>
    match a.toList with
    | ['-', '-'] =>
      match rest with
      | [] => .error .helpForNothing
      | word :: _ =>
        .error (if (commandName? word).isSome then .unknownArgument else .unknownCommand)
    | '-' :: '-' :: text =>
      match readLong topOptions .start text with
      | .error r => .error r
      | .ok _ => .error .unknownArgument
    | '-' :: c :: text =>
      match readShort topOptions .start (c :: text) with
      | .error r => .error r
      | .ok _ => .error .unknownArgument
    | _ =>
      match commandName? a with
      | some name => readCommand name rest
      | none => .error .unknownCommand

end Arguments

/-! ## Flags over a configuration -/

namespace Config

/-- Flags win over the configuration; paths given as flags are read from `cwd`. -/
def withFlags (c : Config) (flags : Flags) (cwd : Path) : Config where
  vendorDir := (flags.vendor.map cwd.join).getD c.vendorDir
  consumerDirs := if flags.consumers.isEmpty then c.consumerDirs else flags.consumers.map cwd.join
  vendorModule := flags.vendorModule.or c.vendorModule
  renameSuffix := flags.rename.or c.renameSuffix
  log := c.log || flags.log
  logFile := c.logFile
  standardPatches := c.standardPatches
  patches := c.patches
  requirements := c.requirements
  python := c.python
  scriptsDir := c.scriptsDir
  hooks := c.hooks

end Config

end Vendoring
