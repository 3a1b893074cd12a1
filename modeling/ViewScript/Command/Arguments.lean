/-
  ViewScript/Command/Arguments.lean
  =================================
  **The command line.**

  Options stand before or after the name of a command.  Those for every command may
  stand in both places; what stands after the name counts then.  A word of one dash
  and letters is a row of short options, of which the last one may have a value.
  After the word `--` there are no more options.

  An option is given once at a place, unless it is a count.  Paths are not empty.
-/
import ViewScript.Path.Basic

namespace ViewScript

/-- What the program is asked to do. -/
inductive Action where
  | version
  | compile (inputs : List Path) (outDir : Option Path) (toStdout : Bool)
  | check (inputs : List Path)
  | build (root : Option Path) (outDir : Option Path)
deriving DecidableEq, Repr

/-- A command line that was understood. -/
structure Invocation where
  verbosity : Nat
  json : Bool
  cwd : Option Path
  config : Option Path
  action : Action
deriving DecidableEq, Repr

/-- Why there is no action: the command line is wrong, or only information was asked
    for. -/
inductive Stop where
  | usage
  | version
  | help
deriving DecidableEq, Repr

namespace Arguments

/-! ### Options -/

inductive OptionName where
  | verbose
  | json
  | cwd
  | config
  | outDir
  | stdout
  | version
  | help
deriving DecidableEq, Repr

namespace OptionName

def long : OptionName → Text
  | .verbose => "verbose"
  | .json => "json"
  | .cwd => "cwd"
  | .config => "config"
  | .outDir => "out-dir"
  | .stdout => "stdout"
  | .version => "version"
  | .help => "help"

def short? : OptionName → Option Char
  | .verbose => some 'v'
  | .outDir => some 'o'
  | .version => some 'V'
  | .help => some 'h'
  | _ => none

def takesValue : OptionName → Bool
  | .cwd | .config | .outDir => true
  | _ => false

end OptionName

/-- The commands. -/
inductive CommandName where
  | version
  | compile
  | check
  | build
deriving DecidableEq, Repr

def CommandName.ofText? (text : Text) : Option CommandName :=
  [("version".toList, CommandName.version), ("compile".toList, .compile), ("check".toList, .check),
    ("build".toList, .build)].lookup text

/-- The options that go with every command. -/
def globalOptions : List OptionName := [.verbose, .json, .cwd, .config, .help]

/-- The options before the name of a command. -/
def leadingOptions : List OptionName := .version :: globalOptions

/-- The options after the name of a command. -/
def CommandName.options : CommandName → List OptionName
  | .version | .check => globalOptions
  | .compile => .outDir :: .stdout :: globalOptions
  | .build => .outDir :: globalOptions

/-! ### Words -/

/-- What a word says. -/
inductive Piece where
  | switch (option : OptionName)
  | setting (option : OptionName) (value : Text)
  /-- The value is the next word. -/
  | wanting (option : OptionName)
  | unknown
deriving DecidableEq, Repr

/-- A word after its two dashes. -/
def readLong (options : List OptionName) (word : Text) : Piece :=
  let name := word.takeWhile (· != '=')
  let value := word.dropWhile (· != '=')
  match options.find? (·.long == name) with
  | none => .unknown
  | some option =>
    match option.takesValue, value with
    | true, [] => .wanting option
    | true, _ :: value => .setting option value
    | false, [] => .switch option
    | false, _ :: _ => .unknown

/-- A word after its one dash. -/
def readShort (options : List OptionName) : Text → List Piece
  | [] => []
  | c :: cs =>
    match options.find? (·.short? == some c) with
    | none => [.unknown]
    | some option =>
      if option.takesValue then
        match cs with
        | [] => [.wanting option]
        | '=' :: value => [.setting option value]
        | value => [.setting option value]
      else .switch option :: readShort options cs

/-- Whether a word is one or more options. -/
def isOption : Text → Bool
  | '-' :: _ :: _ => true
  | _ => false

/-- What is given at one place. -/
structure Given where
  verbose : Nat := 0
  json : Bool := false
  stdout : Bool := false
  cwd : Option Path := none
  config : Option Path := none
  outDir : Option Path := none
  words : List Path := []
deriving DecidableEq, Repr

namespace Given

/-- Note a switch. -/
def addSwitch (given : Given) : OptionName → Except Stop Given
  | .verbose => .ok { given with verbose := given.verbose + 1 }
  | .json => if given.json then .error .usage else .ok { given with json := true }
  | .stdout => if given.stdout then .error .usage else .ok { given with stdout := true }
  | .version => .error .version
  | .help => .error .help
  | .cwd | .config | .outDir => .error .usage

/-- Set what is not set yet. -/
def setOnce (old : Option Path) (value : Text) : Except Stop (Option Path) :=
  if old.isSome || value.isEmpty then .error .usage else .ok (some ⟨value⟩)

/-- Note an option with its value. -/
def addSetting (given : Given) (option : OptionName) (value : Text) : Except Stop Given :=
  match option with
  | .cwd => return { given with cwd := ← setOnce given.cwd value }
  | .config => return { given with config := ← setOnce given.config value }
  | .outDir => return { given with outDir := ← setOnce given.outDir value }
  | _ => .error .usage

/-- Note a word that is no option. -/
def addWord (given : Given) (limit : Option Nat) (word : Text) : Except Stop Given :=
  if word.isEmpty || limit.any (· ≤ given.words.length) then .error .usage
  else .ok { given with words := given.words ++ [⟨word⟩] }

/-- Note what a word says; yields the option whose value is the next word. -/
def addPieces (given : Given) : List Piece → Except Stop (Given × Option OptionName)
  | [] => .ok (given, none)
  | .switch option :: pieces => do addPieces (← given.addSwitch option) pieces
  | .setting option value :: pieces => do addPieces (← given.addSetting option value) pieces
  | .wanting option :: _ => .ok (given, some option)
  | .unknown :: _ => .error .usage

/-- Note words after which there are no options. -/
def addWords (given : Given) (limit : Option Nat) : List Text → Except Stop Given
  | [] => .ok given
  | word :: words => do addWords (← given.addWord limit word) limit words

end Given

/-- The options of a word. -/
def readOptions (options : List OptionName) : Text → List Piece
  | '-' :: '-' :: word => [readLong options word]
  | _ :: word => readShort options word
  | [] => []

/-- Read words up to the end or, at the first place, up to the name of a command,
    which is returned with the words after it.  `limit` bounds the words that are no
    options; without a place for such words the first one is a command. -/
def scan (options : List OptionName) (first : Bool) (limit : Option Nat) (given : Given) :
    List Text → Except Stop (Given × Option (Text × List Text))
  | [] => .ok (given, none)
  | word :: words =>
    if word = ['-', '-'] then
      (given.addWords limit words).map (·, none)
    else if isOption word then
      match given.addPieces (readOptions options word) with
      | .error stop => .error stop
      | .ok (given, none) => scan options first limit given words
      | .ok (given, some option) =>
        match words with
        | [] => .error .usage
        | value :: words =>
          if isOption value then .error .usage
          else match given.addSetting option value with
            | .error stop => .error stop
            | .ok given => scan options first limit given words
    else if first then .ok (given, some (word, words))
    else match given.addWord limit word with
      | .error stop => .error stop
      | .ok given => scan options first limit given words

/-! ### The whole command line -/

/-- How many words that are no options a command takes at most. -/
def CommandName.wordLimit : CommandName → Option Nat
  | .version => some 0
  | .compile | .check => none
  | .build => some 1

/-- The action of a command. -/
def CommandName.action (given : Given) : CommandName → Except Stop Action
  | .version => .ok .version
  | .compile =>
    if given.words.isEmpty then .error .usage
    else .ok (.compile given.words given.outDir given.stdout)
  | .check => if given.words.isEmpty then .error .usage else .ok (.check given.words)
  | .build => .ok (.build given.words.head? given.outDir)

/-- The configuration file at a place; without one the environment names it. -/
def configAt (environment : Option Text) (given : Given) : Except Stop (Option Path) :=
  match given.config, environment with
  | some path, _ => .ok (some path)
  | none, some [] => .error .usage
  | none, some (c :: cs) => .ok (some ⟨c :: cs⟩)
  | none, none => .ok none

/-- Understand a command line.  `environment` is the configuration file that the
    environment names. -/
def parse (environment : Option Text) (words : List Text) : Except Stop Invocation := do
  let (leading, command) ← scan leadingOptions true (some 0) {} words
  match command with
  | none =>
    let config ← configAt environment leading
    return ⟨leading.verbose, leading.json, leading.cwd, config, .version⟩
  | some (name, words) =>
    match CommandName.ofText? name with
    | none => throw (if name = "help".toList then .help else .usage)
    | some command =>
      let (given, _) ← scan command.options false command.wordLimit {} words
      let action ← command.action given
      let config ← configAt environment given
      let leadingConfig ← configAt environment leading
      return {
        verbosity := if given.verbose = 0 then leading.verbose else given.verbose
        json := given.json || leading.json
        cwd := given.cwd <|> leading.cwd
        config := given.config <|> leading.config <|> config <|> leadingConfig
        action := action }

end Arguments

end ViewScript
