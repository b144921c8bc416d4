import Devirt.Binary.Image
import Devirt.Document.Chunk
import Devirt.Json.Printer
import Devirt.Json.Reader
import Devirt.Listing
import Devirt.Text.Visible

set_option autoImplicit false

/-! # The command line

The arguments are read from left to right into a request; the first that does not fit refuses them all.
Answering a request is a function of the texts of the files it names: it yields what is printed, what
is to be written, and why it failed, if it did. -/

namespace Devirt.CommandLine

/-! ## Requests -/

/-- The options that all commands working on trees share, as far as they are given. -/
structure Settings where
  constants : Option String
  tempPrefix : Option String
  registerHelper : Option String
  maxIterations : Option Nat

namespace Settings

def none : Settings := ⟨.none, .none, .none, .none⟩

def options (s : Settings) : Options :=
  ⟨s.tempPrefix.getD Options.standard.tempPrefix,
   s.registerHelper.getD Options.standard.registerHelper,
   s.maxIterations.getD Options.standard.maxIterations⟩

end Settings

inductive Request where
  | disasm (path : String) (image : Option String) (settings : Settings)
  | simplify (path : String) (json : Bool) (settings : Settings)
  | fingerprint (path : String) (settings : Settings)
  | catalog
  | version
  /-- Help was asked for, or nothing was. -/
  | help

/-! ## Reading arguments -/

inductive Verb where
  | disasm | simplify | fingerprint | catalog
  deriving DecidableEq

def verb? : String → Option Verb
  | "disasm" => some .disasm
  | "simplify" => some .simplify
  | "fingerprint" => some .fingerprint
  | "catalog" => some .catalog
  | _ => none

/-- What the arguments of a command have given so far. -/
structure Given where
  path : Option String
  image : Option String
  json : Bool
  settings : Settings

def Given.nothing : Given := ⟨none, none, false, .none⟩

/-- The number of iterations: decimal digits behind an optional plus sign, of 64 bits. -/
def count? (s : String) : Option Nat :=
  let ds := match s.toList with
    | '+' :: cs => cs
    | cs => cs
  (Indirection.digits? ds).filter (· ≤ Json.maxWord)

/-- Sets something that may be given once only. -/
def once {α : Type} (old : Option α) (new : α) : Option (Option α) :=
  match old with
  | none => some (some new)
  | some _ => none

/-- A path; it must not be empty. -/
def path? (s : String) : Option String := if s.isEmpty then none else some s

/-- An option that takes a value. -/
def set (verb : Verb) (name value : String) (g : Given) : Option Given :=
  match verb, name with
  | .catalog, _ => none
  | .disasm, "luac" => do
    return { g with image := ← once g.image (← path? value) }
  | _, "constants" => do
    return { g with settings := { g.settings with
      constants := ← once g.settings.constants (← path? value) } }
  | _, "temp-prefix" => do
    return { g with settings := { g.settings with
      tempPrefix := ← once g.settings.tempPrefix value } }
  | _, "register-helper" => do
    return { g with settings := { g.settings with
      registerHelper := ← once g.settings.registerHelper value } }
  | _, "max-iterations" => do
    return { g with settings := { g.settings with
      maxIterations := ← once g.settings.maxIterations (← count? value) } }
  | _, _ => none

/-- An argument that stands alone. -/
def place (verb : Verb) (arg : String) (g : Given) : Option Given :=
  if verb = .catalog then none
  else do return { g with path := ← once g.path (← path? arg) }

/-- The request that the arguments of a command make up. -/
def finish (verb : Verb) (g : Given) : Option Request :=
  match verb, g.path with
  | .catalog, _ => some .catalog
  | .disasm, some path => some (.disasm path g.image g.settings)
  | .simplify, some path => some (.simplify path g.json g.settings)
  | .fingerprint, some path => some (.fingerprint path g.settings)
  | _, none => none

/-- What a group of one-letter flags asks for: `-v` may stand several times, and help ends the reading.
`letters` lists the flags that do, each with its request. -/
def flags (letters : List (Char × Request)) : List Char → Option (Option Request)
  | [] => some none
  | 'v' :: cs => flags letters cs
  | c :: _ => (letters.lookup c).map some

/-- Splits `name=value`. -/
def splitEquals (cs : List Char) : String × Option String :=
  match cs.dropWhile (· != '=') with
  | [] => (String.ofList cs, none)
  | _ :: value => (String.ofList (cs.takeWhile (· != '=')), some (String.ofList value))

/-- Whether an argument may be the value of the option before it. -/
def isValue (arg : String) : Bool :=
  match arg.toList with
  | '-' :: _ :: _ => false
  | _ => true

/-- Reads the arguments behind a command. -/
def arguments (verb : Verb) : List String → Given → Option Request
  | [], g => finish verb g
  | arg :: rest, g =>
    match arg.toList with
    | ['-', '-'] => (rest.foldlM (fun g arg => place verb arg g) g).bind (finish verb)
    | '-' :: '-' :: cs =>
      match splitEquals cs with
      | ("verbose", none) => arguments verb rest g
      | ("help", none) => some .help
      | ("json", none) =>
        if verb = .simplify ∧ g.json = false then arguments verb rest { g with json := true } else none
      | (name, some value) => do
        let g ← set verb name value g
        arguments verb rest g
      | (name, none) =>
        match rest with
        | [] => none
        | value :: rest =>
          if isValue value then do
            let g ← set verb name value g
            arguments verb rest g
          else none
    | '-' :: c :: cs =>
      match flags [('h', .help)] (c :: cs) with
      | some (some request) => some request
      | some none => arguments verb rest g
      | none => none
    | _ => do
      let g ← place verb arg g
      arguments verb rest g

/-- What help can be asked for. -/
def topics : List String := ["disasm", "simplify", "fingerprint", "catalog", "completion", "help"]

/-- Help, on one topic at most; everything that follows the word counts as a topic. -/
def help : List String → Option Request
  | [] => some .help
  | [topic] => if topic ∈ topics then some .help else none
  | _ => none

/-- The request that the arguments make, unless they are refused. -/
def parse : List String → Option Request
  | [] => some .help
  | arg :: rest =>
    match arg.toList with
    | ['-', '-'] => if rest.isEmpty then some .help else none
    | '-' :: '-' :: cs =>
      match splitEquals cs with
      | ("verbose", none) => parse rest
      | ("version", none) => some .version
      | ("help", none) => some .help
      | _ => none
    | '-' :: c :: cs =>
      match flags [('h', .help), ('V', .version)] (c :: cs) with
      | some (some request) => some request
      | some none => parse rest
      | none => none
    | _ =>
      match verb? arg with
      | some verb => arguments verb rest .nothing
      | none => if arg = "help" then help rest else none

/-! ## Answers -/

/-- Why a request could not be answered. -/
inductive Failure where
  | unreadable (path : String)
  | invalidTree (path : String)
  | invalidMapping (path : String)
  | invalidChunk
  | image (error : PackError)
  | unwritable (path : String)

/-- What is reported, up to the details that the system adds. -/
def Failure.message : Failure → String
  | unreadable path => "failed to read " ++ Text.Visible.quote path
  | invalidTree path => "invalid AST in " ++ Text.Visible.quote path
  | invalidMapping path => "invalid constant mapping " ++ Text.Visible.quote path
  | invalidChunk => "recovery error"
  | image e => "luac error: " ++ e.message
  | unwritable path => "failed to write " ++ Text.Visible.quote path

structure Answer where
  stdout : String
  /-- A file to be written, with its bytes. -/
  output : Option (String × List UInt8)
  failure : Option Failure

namespace Answer

def text (stdout : String) : Answer := ⟨stdout, none, none⟩

def fail (failure : Failure) : Answer := ⟨"", none, some failure⟩

def ofExcept : Except Failure Answer → Answer
  | .ok a => a
  | .error e => fail e

end Answer

/-- The files that can be read. -/
abbrev Files := String → Option String

def readText (files : Files) (path : String) : Except Failure String :=
  match files path with
  | some text => .ok text
  | none => .error (.unreadable path)

/-- The document in a file. -/
def load {α : Type} (files : Files) (decode : Json → Option α) (invalid : Failure) (path : String) :
    Except Failure α := do
  let text ← readText files path
  match (Json.read text).bind decode with
  | some x => return x
  | none => .error invalid

def loadTree (files : Files) (path : String) : Except Failure Block :=
  load files Block.ofJson? (.invalidTree path) path

/-- The mapping that is named, put to use. -/
def loadPaths (files : Files) (s : Settings) : Except Failure (Option Paths) :=
  match s.constants with
  | none => .ok none
  | some path => do
    let given ← load files Paths.ofJson? (.invalidMapping path) path
    return some (Indirection.usable given)

/-- A tree and its simplified form; the tree is loaded before the mapping. -/
def simplified (files : Files) (path : String) (s : Settings) : Except Failure Block := do
  let block ← loadTree files path
  let paths ← loadPaths files s
  return (block.simplify s.options paths).1

/-- The line of the catalog for a fingerprint. -/
def matchLine (fingerprint : String) : String :=
  match Catalog.moonSecV3.lookup fingerprint with
  | some shape => fingerprint ++ "\t" ++ shape.op.mnemonic ++ "\t" ++ shape.rule.text ++ "\n"
  | none => fingerprint ++ "\t?\n"

def catalogLine (s : Shape) : String :=
  Text.alignLeft 10 s.op.mnemonic ++ "\t" ++ Text.alignLeft 40 s.fingerprint ++ "\t" ++ s.rule.text
    ++ "\n"

/-- The listing of a recovered chunk; the mapping is loaded before the chunk. -/
def disasm (files : Files) (path : String) (image : Option String) (s : Settings) :
    Except Failure Answer := do
  let paths ← loadPaths files s
  let chunk ← load files Chunk.ofJson? .invalidChunk path
  let (root, _) := chunk.recover s.options paths
  let stdout := root.listing
  match image with
  | none => return .text stdout
  | some out =>
    match root.image with
    | .ok bytes => return ⟨stdout, some (out, bytes), none⟩
    | .error e => return ⟨stdout, none, some (.image e)⟩

def versionLine : String := "unmoon 0.1.0\n"

/-- Answers a request. -/
def answer (files : Files) : Request → Answer
  | .disasm path image s => .ofExcept (disasm files path image s)
  | .simplify path json s => .ofExcept do
    let block ← simplified files path s
    return .text (if json then block.toJson.pretty ++ "\n" else block.text)
  | .fingerprint path s => .ofExcept do
    let block ← simplified files path s
    return .text (matchLine block.fingerprint)
  | .catalog => .text (String.join (Catalog.moonSecV3.shapes.map catalogLine))
  | .version => .text versionLine
  | .help => .text ""

/-- The files a request reads. -/
def inputs : Request → List String
  | .disasm path _ s | .simplify path _ s | .fingerprint path s => s.constants.toList ++ [path]
  | _ => []

end Devirt.CommandLine
