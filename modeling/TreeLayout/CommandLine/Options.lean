import TreeLayout.Data.Value
import TreeLayout.Words

/-!
# Command line options

Options start with a dash: long ones with two, short ones with one, and short ones can stand together.
A value stands in the next argument or in the same one, after `=` in a long option. All arguments after
`--` and all that do not start with a dash are patterns. Each option is given once at most, except
those that take lists.
-/

namespace TreeLayout.CommandLine

/-- What a command line asks for. -/
structure Options where
  /-- The patterns of the documents. -/
  patterns : List String
  /-- The configuration file. -/
  config : Option String
  /-- The format of the report. -/
  format : Option OutputFormat
  /-- Whether more is told. -/
  verbose : Bool
  /-- Whether styles are off. -/
  noColor : Bool
  /-- Columns from one tab stop to the next. -/
  tabWidth : Option Nat
  /-- Columns that one indentation level adds. -/
  offset : Option Nat
  /-- The rules that are not reported. -/
  disable : Option (List String)
  /-- The rules that are reported. -/
  select : Option (List String)
  /-- How many lines around a place are shown. -/
  context : Nat
  /-- Whether a summary is shown. -/
  stats : Bool
  /-- Whether fixes are applied. -/
  fix : Bool
  /-- Whether fixed files are written. -/
  write : Bool
  /-- Whether the changes are shown. -/
  diff : Bool
  /-- Whether risky fixes are included. -/
  riskyFixes : Bool
  /-- Whether the programs are listed instead. -/
  listPrograms : Bool

/-- What a command line without arguments asks for. -/
def Options.default : Options where
  patterns := []
  config := none
  format := none
  verbose := false
  noColor := false
  tabWidth := none
  offset := none
  disable := none
  select := none
  context := 0
  stats := false
  fix := false
  write := false
  diff := false
  riskyFixes := false
  listPrograms := false

/-- The options. -/
inductive Name where
  | config | format | verbose | noColor | tabWidth | offset | disable | select | context | stats
  | fix | write | diff | riskyFixes | listPrograms | help | version
  deriving DecidableEq

namespace Name

/-- All options. -/
def all : List Name :=
  [.config, .format, .verbose, .noColor, .tabWidth, .offset, .disable, .select, .context, .stats,
   .fix, .write, .diff, .riskyFixes, .listPrograms, .help, .version]

/-- The long form of an option, without its dashes. -/
def long : Name → String
  | .config => "config"
  | .format => "format"
  | .verbose => "verbose"
  | .noColor => "no-color"
  | .tabWidth => "tab-width"
  | .offset => "offset"
  | .disable => "disable"
  | .select => "select"
  | .context => "context"
  | .stats => "stats"
  | .fix => "fix"
  | .write => "write"
  | .diff => "diff"
  | .riskyFixes => "unsafe-fixes"
  | .listPrograms => "list-programs"
  | .help => "help"
  | .version => "version"

/-- The short form of an option, without its dash. -/
def short? : Name → Option Char
  | .config => some 'c'
  | .format => some 'f'
  | .verbose => some 'v'
  | .help => some 'h'
  | .version => some 'V'
  | _ => none

/-- Whether an option takes a value. -/
def takesValue : Name → Bool
  | .config | .format | .tabWidth | .offset | .disable | .select | .context => true
  | _ => false

/-- Whether an option may be given more than once. -/
def repeats : Name → Bool
  | .disable | .select => true
  | _ => false

/-- The option with a long form. -/
def ofLong? (s : String) : Option Name := all.find? fun n => n.long == s

/-- The option with a short form. -/
def ofShort? (c : Char) : Option Name := all.find? fun n => n.short? == some c

end Name

/-- One element of a command line. -/
inductive Item where
  /-- An option without a value. -/
  | flag (name : Name)
  /-- An option with a value. -/
  | valued (name : Name) (value : String)
  /-- A pattern. -/
  | pattern (s : String)
  /-- Something that no command line has, such as an unknown option or an option that lacks its
  value. -/
  | misuse
  deriving DecidableEq

/-- Whether an argument starts an option. -/
def isOption (arg : String) : Bool := arg.startsWith "-" && arg != "-"

/-- The elements of the short options of one argument, and whether the last of them waits for a
value. -/
def shortItems : List Char → List Item × Option Name
  | [] => ([], none)
  | c :: cs =>
    match Name.ofShort? c with
    | none => ([.misuse], none)
    | some name =>
      if !name.takesValue then
        let (items, waiting) := shortItems cs
        (.flag name :: items, waiting)
      else
        match cs with
        | [] => ([], some name)
        | '=' :: value => ([.valued name (String.ofList value)], none)
        | value => ([.valued name (String.ofList value)], none)

/-- The element of a long option, or that it waits for a value. -/
def longItems (body : List Char) : List Item × Option Name :=
  let value? :=
    match body.dropWhile (· ≠ '=') with
    | _ :: value => some (String.ofList value)
    | [] => none
  match Name.ofLong? (String.ofList (body.takeWhile (· ≠ '='))), value? with
  | none, _ => ([.misuse], none)
  | some name, none => if name.takesValue then ([], some name) else ([.flag name], none)
  | some name, some value =>
    if name.takesValue then ([.valued name value], none) else ([.misuse], none)

/-- The elements of a command line; `waiting` is an option that lacks its value. -/
def itemsOf (waiting : Option Name) : List String → List Item
  | [] => (waiting.map fun _ => Item.misuse).toList
  | arg :: args =>
    match waiting with
    | some name => if isOption arg then [.misuse] else .valued name arg :: itemsOf none args
    | none =>
      if arg == "--" then args.map .pattern
      else if !isOption arg then .pattern arg :: itemsOf none args
      else
        let (items, waiting) :=
          if arg.startsWith "--" then longItems (arg.toList.drop 2)
          else shortItems (arg.toList.drop 1)
        items ++ itemsOf waiting args

/-- The number that an argument writes: digits, perhaps after a plus sign, of at most 64 bits. -/
def number? (s : String) : Option Nat :=
  let digits :=
    match s.toList with
    | '+' :: rest => rest
    | cs => cs
  if digits.isEmpty || !digits.all Char.isDigit then none
  else
    let n := digits.foldl (fun n c => 10 * n + (c.toNat - '0'.toNat)) 0
    if n < wordBound then some n else none

/-- A list with the members of an argument added. -/
def addList (old : Option (List String)) (value : String) : Option (List String) :=
  some (old.getD [] ++ value.splitOn ",")

/-- Options with a flag set. -/
def Options.setFlag (o : Options) : Name → Options
  | .verbose => { o with verbose := true }
  | .noColor => { o with noColor := true }
  | .stats => { o with stats := true }
  | .fix => { o with fix := true }
  | .write => { o with write := true }
  | .diff => { o with diff := true }
  | .riskyFixes => { o with riskyFixes := true }
  | .listPrograms => { o with listPrograms := true }
  | _ => o

/-- Options with a value set, if the value can be one. -/
def Options.setValue? (o : Options) (name : Name) (value : String) : Option Options :=
  match name with
  | .config => if value.isEmpty then none else some { o with config := some value }
  | .format => (OutputFormat.ofName? value).map fun f => { o with format := some f }
  | .tabWidth => (number? value).map fun n => { o with tabWidth := some n }
  | .offset => (number? value).map fun n => { o with offset := some n }
  | .context => (number? value).map fun n => { o with context := n }
  | .disable => some { o with disable := addList o.disable value }
  | .select => some { o with select := addList o.select value }
  | _ => none

/-- What a command line means. -/
inductive Request where
  /-- A run with options. -/
  | run (o : Options)
  /-- How the program is used. -/
  | help
  /-- Which version of the program this is. -/
  | version
  /-- The command line is wrong. -/
  | misuse

/-- What the elements of a command line mean, where `seen` are the options so far. The first wrong
element counts, unless help or the version is asked for before it. -/
def requestOf (o : Options) (seen : List Name) : List Item → Request
  | [] => if o.write && !o.fix then .misuse else .run o
  | .pattern s :: items => requestOf { o with patterns := o.patterns ++ [s] } seen items
  | .misuse :: _ => .misuse
  | .flag .help :: _ => .help
  | .flag .version :: _ => .version
  | .flag name :: items =>
    if seen.contains name then .misuse else requestOf (o.setFlag name) (name :: seen) items
  | .valued name value :: items =>
    if seen.contains name && !name.repeats then .misuse
    else
      match o.setValue? name value with
      | none => .misuse
      | some o => requestOf o (name :: seen) items

/-- What a command line means. -/
def parse (args : List String) : Request := requestOf .default [] (itemsOf none args)

end TreeLayout.CommandLine
