import PeerBook.Peer.Identity
import PeerBook.Settings

/-! # Command line arguments

Options come before the command, or after it where they are its own. An
option is given once, its value after an equals sign or as the next argument,
which then must not look like an option. After `--` there are no options.
Asking for help or for the version stops the reading where it stands: what is
wrong before it counts, and what comes after it does not.
-/

namespace PeerBook.Command

inductive Action where
  | add (key : Identity) (accessHash : Int64) (username phone : Option String) (name : String)
  | assign (a : String) (key : Identity)
  | find (key : Identity)
  | resolve (a : String)
  | list
  deriving DecidableEq, Repr

structure Invocation where
  dataDir : String
  layout : Layout
  action : Action
  deriving DecidableEq, Repr

/-- Why arguments do not lead to an action. -/
inductive Stop where
  | usage
  | version
  | help
  deriving DecidableEq, Repr

inductive Token where
  | escape
  | long (name : String) (value : Option String)
  | short (letter : Char) (rest : List Char)
  | plain (text : String)
  deriving DecidableEq, Repr

def Token.ofText (text : String) : Token :=
  match text.toList with
  | ['-', '-'] => .escape
  | '-' :: '-' :: body =>
    match body.span (· ≠ '=') with
    | (name, _ :: value) => .long (String.ofList name) (some (String.ofList value))
    | (name, []) => .long (String.ofList name) none
  | '-' :: letter :: rest => .short letter rest
  | _ => .plain text

/-- What a command line consists of, once its options are told from its plain arguments. -/
inductive Item where
  | flag (name : String)
  | option (name value : String)
  | plain (text : String)
  deriving DecidableEq, Repr

/-- What a token contributes: an item, or an option whose value comes next. -/
inductive Piece where
  | item (i : Item)
  | awaiting (name : String)
  deriving DecidableEq, Repr

/-- The options of a command. -/
structure Options where
  flags : List String
  valued : List String
  /-- Letters that stand for options with a value. -/
  letters : List (Char × String)
  hasVersion : Bool
  /-- Whether a plain argument ends the options, and what follows is read elsewhere. -/
  leading : Bool

namespace Options

def long (o : Options) (name : String) (value : Option String) : Except Stop Piece :=
  if name ∈ o.valued then
    match value with
    | some value => .ok (.item (.option name value))
    | none => .ok (.awaiting name)
  else if value.isSome then .error .usage
  else if name ∈ o.flags then .ok (.item (.flag name))
  else if name = "help" then .error .help
  else if name = "version" ∧ o.hasVersion then .error .version
  else .error .usage

/-- The option of a letter; what follows the letter is its value. -/
def short (o : Options) (letter : Char) (letters : List Char) : Except Stop Piece :=
  match o.letters.find? (·.1 = letter) with
  | some (_, name) =>
    o.long name (match letters with
      | [] => none
      | '=' :: value => some (String.ofList value)
      | value => some (String.ofList value))
  | none =>
    if letter = 'h' then .error .help
    else if letter = 'V' ∧ o.hasVersion then .error .version
    else .error .usage

/-- Passes the items of the arguments to `accept` from the left, so that a fault stops before what
comes after it. The second argument names the option whose value is next. Gives what was
accepted, and the arguments that are left. -/
def scan {σ : Type} (o : Options) (accept : σ → Item → Except Stop σ) :
    σ → Option String → List String → Except Stop (σ × List String)
  | s, none, [] => .ok (s, [])
  | _, some _, [] => .error .usage
  | s, some name, text :: rest =>
    match Token.ofText text with
    | .plain value => do
      let s ← accept s (.option name value)
      scan o accept s none rest
    | _ => .error .usage
  | s, none, text :: rest =>
    match Token.ofText text with
    | .plain _ =>
      if o.leading then .ok (s, text :: rest)
      else do
        let s ← accept s (.plain text)
        scan o accept s none rest
    | .escape =>
      if o.leading then .error .usage
      else do
        let s ← rest.foldlM (fun s text => accept s (.plain text)) s
        return (s, [])
    | .long name value => do
      match ← o.long name value with
      | .item i =>
        let s ← accept s i
        scan o accept s none rest
      | .awaiting name => scan o accept s (some name) rest
    | .short letter letters => do
      match ← o.short letter letters with
      | .item i =>
        let s ← accept s i
        scan o accept s none rest
      | .awaiting name => scan o accept s (some name) rest

end Options

def required {α : Type} : Option α → Except Stop α
  | some a => .ok a
  | none => .error .usage

/-- Fills a field that must be empty with a value that must have been readable. -/
def fill {α : Type} : Option α → Option α → Except Stop (Option α)
  | none, some a => .ok (some a)
  | _, _ => .error .usage

/-- The arguments of `add` as far as they are known. -/
structure AddDraft where
  key : Option Identity
  accessHash : Option Int64
  username : Option String
  phone : Option String
  name : Option String

namespace AddDraft

def options : Options where
  flags := []
  valued := ["access-hash", "username", "phone", "name"]
  letters := []
  hasVersion := false
  leading := false

def blank : AddDraft where
  key := none
  accessHash := none
  username := none
  phone := none
  name := none

def accept (d : AddDraft) : Item → Except Stop AddDraft
  | .plain text => return { d with key := ← fill d.key (Identity.ofText? text) }
  | .flag _ => .error .usage
  | .option name text =>
    match name with
    | "access-hash" =>
      return { d with accessHash := ← fill d.accessHash (Numeral.readInt64? text.toList) }
    | "username" => return { d with username := ← fill d.username (some text) }
    | "phone" => return { d with phone := ← fill d.phone (some text) }
    | "name" => return { d with name := ← fill d.name (some text) }
    | _ => .error .usage

def finish (d : AddDraft) : Except Stop Action :=
  return .add (← required d.key) (d.accessHash.getD 0) d.username d.phone (d.name.getD "")

end AddDraft

/-- The plain arguments of a command without options: an alias, an identity, or both. -/
structure Operands where
  a : Option String
  key : Option Identity

namespace Operands

def options : Options where
  flags := []
  valued := []
  letters := []
  hasVersion := false
  leading := false

def blank : Operands where
  a := none
  key := none

def acceptAlias (d : Operands) : Item → Except Stop Operands
  | .plain text => return { d with a := ← fill d.a (some text) }
  | _ => .error .usage

def acceptKey (d : Operands) : Item → Except Stop Operands
  | .plain text => return { d with key := ← fill d.key (Identity.ofText? text) }
  | _ => .error .usage

/-- The alias goes before the identity. -/
def acceptBoth (d : Operands) (i : Item) : Except Stop Operands :=
  if d.a.isNone then d.acceptAlias i else d.acceptKey i

def acceptNone (_ : Operands) (_ : Item) : Except Stop Operands :=
  .error .usage

end Operands

/-- The names of the commands. -/
def names : List String := ["add", "assign", "find", "resolve", "list", "help"]

/-- Reads the arguments that follow the name of a command. -/
def readAction (name : String) (args : List String) : Except Stop Action :=
  match name with
  | "add" => do
    let (d, _) ← AddDraft.options.scan AddDraft.accept .blank none args
    d.finish
  | "assign" => do
    let (d, _) ← Operands.options.scan Operands.acceptBoth .blank none args
    return .assign (← required d.a) (← required d.key)
  | "find" => do
    let (d, _) ← Operands.options.scan Operands.acceptKey .blank none args
    return .find (← required d.key)
  | "resolve" => do
    let (d, _) ← Operands.options.scan Operands.acceptAlias .blank none args
    return .resolve (← required d.a)
  | "list" => do
    let _ ← Operands.options.scan Operands.acceptNone .blank none args
    return .list
  | "help" =>
    match args with
    | [] => .error .help
    | [topic] => if topic ∈ names then .error .help else .error .usage
    | _ => .error .usage
  | _ => .error .usage

/-- What stands before the name of the command. -/
structure Common where
  dataDir : Option String
  layout : Option Layout

namespace Common

def options : Options where
  flags := ["flat"]
  valued := ["data-dir"]
  letters := [('d', "data-dir")]
  hasVersion := true
  leading := true

def blank : Common where
  dataDir := none
  layout := none

def accept (d : Common) : Item → Except Stop Common
  | .flag _ => return { d with layout := ← fill d.layout (some .flat) }
  | .option _ text => return { d with dataDir := ← fill d.dataDir (some text) }
  | .plain _ => .error .usage

end Common

def read (args : List String) : Except Stop Invocation := do
  let (d, rest) ← Common.options.scan Common.accept .blank none args
  match rest with
  | [] => .error .usage
  | name :: args =>
    let action ← readAction name args
    return {
      dataDir := d.dataDir.getD Settings.standard.dataDir
      layout := d.layout.getD .scoped
      action }

end PeerBook.Command
