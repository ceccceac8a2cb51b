import Glr.Jcl.Grammar
import Glr.Jcl.Scanner
import Glr.Language
import Glr.Parser
import Glr.Query.Match

/-!
# Glr.Jcl.Extraction

Job control as a language, and what a job does: the jobs, programs and
procedures of a text, and the datasets that it names, each kind in the order of
the text.
-/

namespace Glr.Jcl

/-- The language, told apart from others by a handle. -/
def language (handle : Nat) : Except BuildError Language :=
  Language.ofGrammar handle grammar (some scanner)

/-- What is looked for. -/
def querySource : String :=
  "\n".intercalate
    ["(job_statement name: (name) @job)",
      "(exec_statement program: (program_name) @program)",
      "(exec_statement procedure: (proc_name) @procedure)",
      "(dataset_parameter dataset: (_) @dataset)"]

/-- The names of datasets by kind. -/
structure Datasets where
  /-- Catalogued datasets, also with a member. -/
  regular : List String := []
  /-- Generations of a group. -/
  gdg : List String := []
  temporary : List String := []
  /-- References to an earlier statement. -/
  referback : List String := []
  deriving DecidableEq, Repr, Inhabited

/-- The number of datasets. -/
def Datasets.total (d : Datasets) : Nat :=
  d.regular.length + d.gdg.length + d.temporary.length + d.referback.length

/-- Adds a dataset by the kind of its node and of the base of that. -/
def Datasets.add (d : Datasets) (kind : String) (base : Option String) (name : String) : Datasets :=
  if kind = "gdg_dataset" then { d with gdg := d.gdg ++ [name] }
  else if kind = "temporary_dataset"
      ∨ (kind = "member_dataset" ∧ base = some "temporary_dataset") then
    { d with temporary := d.temporary ++ [name] }
  else if kind = "referback" then { d with referback := d.referback ++ [name] }
  else { d with regular := d.regular ++ [name] }

/-- What a text contains. -/
structure Extraction where
  /-- The name of the file it is from. -/
  file : Option String := none
  jobs : List String := []
  programs : List String := []
  procedures : List String := []
  datasets : Datasets := {}
  /-- The number of statements of each kind, by kind. -/
  statements : List (String × Nat) := []
  parseErrors : Nat := 0
  deriving DecidableEq, Repr, Inhabited

namespace Extraction

/-- Whether the text has syntax errors. -/
def hasError (e : Extraction) : Bool := e.parseErrors > 0

/-- Counts one more under a key of a sorted table. -/
def count (key : String) : List (String × Nat) → List (String × Nat)
  | [] => [(key, 1)]
  | (k, n) :: rest =>
    if key = k then (k, n + 1) :: rest
    else if key < k then (key, 1) :: (k, n) :: rest
    else (k, n) :: count key rest

/-- Adds a captured node. -/
def add (e : Extraction) (captureName : Option String) (n : Node) (text : String) : Extraction :=
  match captureName with
  | some "job" => { e with jobs := e.jobs ++ [text] }
  | some "program" => { e with programs := e.programs ++ [text] }
  | some "procedure" => { e with procedures := e.procedures ++ [text] }
  | _ =>
    let base := (n.childOfFieldName? "base").map Node.kind
    { e with datasets := e.datasets.add n.kind base text }

end Extraction

/-- Why there is no extraction. -/
inductive ExtractError where
  | build (e : BuildError)
  | query (e : Query.Error)
  | unreadable (path : String)
  deriving Repr

/-- The words for an error of reading. -/
def ExtractError.message : ExtractError → String
  | .build (.generation e) => e.message
  | .build (.loading e) => e.message
  | .query e => e.message
  | .unreadable path => s!"failed to read {path}"

/-- The language and the query, ready for use on many texts. -/
structure Extractor where
  language : Language
  query : Query

namespace Extractor

/-- The extractor for a language. -/
def ofLanguage (l : Language) : Except ExtractError Extractor :=
  match Query.compile l querySource with
  | .ok query => .ok ⟨l, query⟩
  | .error e => .error (.query e)

/-- Extracts from the tree of a text. -/
def ofTree (x : Extractor) (t : Tree) (source : Bytes) : Extraction :=
  let kinds := (t.rootNode.namedChildren.map Node.kind).filter (·.endsWith "_statement")
  let base : Extraction :=
    { parseErrors := t.errors.length
      statements := kinds.foldl (fun table kind => Extraction.count kind table) [] }
  let captures := (x.query.run t.rootNode source none).flatMap Query.Match.captures
  captures.foldl
    (fun e c =>
      match c.node.text? source with
      | some text => e.add x.query.captureNames[c.index]? c.node text
      | none => e)
    base

/-- Extracts from a text. -/
def ofText (x : Extractor) (source : String) : Extraction :=
  let bytes := Bytes.ofString source
  x.ofTree (x.language.parse {} bytes none).1 bytes

end Extractor

/-! ## Files -/

/-- What stands in a directory. -/
inductive DirectoryEntry where
  | file (text : String)
  /-- A file that cannot be read. -/
  | unreadable
  | directory
  deriving DecidableEq, Repr

/-- The part of a file name after its last dot, if something is before that. -/
def extension? (name : String) : Option String :=
  match (name.splitOn ".").reverse with
  | last :: first :: rest => if rest.isEmpty ∧ first.isEmpty then none else some last
  | _ => none

/-- Whether a file is one of job control, by its name. -/
def isJclName (name : String) : Bool := (extension? name).any fun e => e.toLower == "jcl"

/-- Extracts from a file at a path, if it can be read. -/
def Extractor.ofFile (x : Extractor) (path name : String) (entry : Option DirectoryEntry) :
    Except ExtractError Extraction :=
  match entry with
  | some (.file text) => .ok { x.ofText text with file := some name }
  | _ => .error (.unreadable path)

/-- Extracts from the files of job control in a directory, in the order of their
names. -/
def Extractor.ofDirectory (x : Extractor) (path : String)
    (entries : Option (List (String × DirectoryEntry))) : Except ExtractError (List Extraction) :=
  match entries with
  | none => .error (.unreadable path)
  | some entries =>
    let files := entries.filter fun (name, entry) => isJclName name && entry != .directory
    let sorted := files.mergeSort fun a b => a.1 ≤ b.1
    sorted.mapM fun (name, entry) => x.ofFile (path ++ "/" ++ name) name (some entry)

end Glr.Jcl
