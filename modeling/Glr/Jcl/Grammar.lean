import Glr.Grammar.Basic

/-!
# Glr.Jcl.Grammar

The grammar of job control.  A statement is

```
// [name] OPERATION operands…
```

and its operands are separated by commas; after a comma a line with `//` goes on
with the same statement.  Lines with `//*` are comments and may stand anywhere.
Data between statements is found by a scanner.
-/

namespace Glr.Jcl

open Rule

/-- The characters that begin a name. -/
def nameStart : String := "[A-Z#@$]"

/-- A name in a statement: up to eight characters. -/
def namePattern : String := nameStart ++ "[A-Z0-9#@$]\x7b0,7\x7d"

/-- A name that a symbol may stand for. -/
def symbolicNamePattern : String := "&?" ++ namePattern

/-- A part that is repeated after commas. -/
def listed (r : Rule) : Rule := many (seq [sym "_comma", r])

/-- A statement with an operation and its operands. -/
def statement (operation : String) (operands : List Rule) : Rule :=
  seq ([string "//", opt (field "name" (sym "name")), string operation] ++ operands)

/-- A condition with one of some operators between two conditions. -/
def binary (operators : List String) : Rule :=
  seq [field "left" (sym "_condition"), field "operator" (choice (operators.map string)),
    field "right" (sym "_condition")]

/-- The statements of a job. -/
def statements : List (String × Rule) :=
  [("source_file", many (sym "_statement")),
    ("_statement", choice (["job_statement", "exec_statement", "dd_statement", "proc_statement",
      "pend_statement", "if_statement", "else_statement", "endif_statement", "set_statement",
      "include_statement", "jcllib_statement", "null_statement"].map sym)),
    ("job_statement", seq [string "//", field "name" (sym "name"), string "JOB",
      opt (sym "_parameters")]),
    ("exec_statement", statement "EXEC"
      [choice [seq [string "PGM=", field "program" (sym "program_name")],
          seq [string "PROC=", field "procedure" (sym "proc_name")],
          field "procedure" (sym "proc_name")],
        listed (sym "_parameter")]),
    ("dd_statement", statement "DD"
      [opt (choice
        [seq [choice [string "*", string "DATA"], listed (sym "_parameter"),
            opt (field "data" (sym "inline_data"))],
          seq [string "DUMMY", listed (sym "_parameter")],
          sym "_parameters"])]),
    ("inline_data", choice [seq [sym "data_lines", opt (sym "delimiter")], sym "delimiter"]),
    ("proc_statement", statement "PROC" [opt (sym "_parameters")]),
    ("pend_statement", statement "PEND" []),
    ("if_statement", statement "IF" [field "condition" (sym "_condition"), string "THEN"]),
    ("else_statement", statement "ELSE" []),
    ("endif_statement", statement "ENDIF" []),
    ("set_statement", statement "SET" [sym "symbol_assignment", listed (sym "symbol_assignment")]),
    ("include_statement", statement "INCLUDE"
      [string "MEMBER=", field "member" (sym "member_name")]),
    ("jcllib_statement", statement "JCLLIB"
      [string "ORDER=",
        choice [sym "dataset_name",
          seq [string "(", sym "dataset_name", listed (sym "dataset_name"), string ")"]]]),
    ("null_statement", pattern "//[ \\t]*(?:\\r?\\n|$)")]

/-- Comments and names. -/
def names : List (String × Rule) :=
  [("comment", pattern "//\\*[^\\n]*"),
    ("name", pattern (namePattern ++ "(?:\\." ++ namePattern ++ ")?")),
    ("program_name", pattern "[A-Z#@$&*][A-Z0-9#@$&.]*"),
    ("proc_name", pattern symbolicNamePattern),
    ("member_name", pattern symbolicNamePattern)]

/-- Operands. -/
def operands : List (String × Rule) :=
  [("_comma", seq [string ",", opt (sym "continuation")]),
    ("continuation", string "//"),
    ("_parameters", seq [sym "_parameter", listed (sym "_parameter")]),
    ("_parameter", choice (["parameter", "_value", "dataset_parameter", "dlm_parameter"].map sym)),
    ("parameter", seq [field "keyword" (renamed (sym "simple_value") "keyword" true), string "=",
      field "value" (choice [sym "_value", sym "parameter"])]),
    ("_value", choice (["simple_value", "quoted_string", "symbolic_parameter",
      "subparameter_list", "referback"].map sym)),
    ("simple_value", pattern "\\*|[A-Z0-9#@$][A-Z0-9#@$.]*"),
    ("quoted_string", pattern "'(?:[^'\\n]|'')*'"),
    ("symbolic_parameter", pattern "&[A-Z#@$][A-Z0-9#@$]*(?:\\.[A-Z0-9#@$.&]*)?"),
    ("subparameter_list", seq [string "(", opt (sym "_item"), listed (opt (sym "_item")),
      string ")"]),
    ("_item", choice [sym "_value", sym "parameter"])]

/-- Datasets. -/
def datasets : List (String × Rule) :=
  [("dataset_parameter", seq [choice [string "DSN=", string "DSNAME="],
      field "dataset" (sym "_dataset")]),
    ("_dataset", choice (["dataset_name", "gdg_dataset", "member_dataset", "temporary_dataset",
      "referback"].map sym)),
    ("dataset_name", pattern "(?:[A-Z#@$]|&[A-Z#@$])[A-Z0-9#@$&.]*"),
    ("temporary_dataset", pattern "&&[A-Z#@$][A-Z0-9#@$]*"),
    ("referback", pattern "\\*\\.[A-Z#@$][A-Z0-9#@$]*(?:\\.[A-Z#@$][A-Z0-9#@$]*)*"),
    ("gdg_dataset", seq [field "base" (sym "dataset_name"), string "(",
      field "generation" (sym "generation"), string ")"]),
    ("generation", pattern "[+-]?\\d+"),
    ("member_dataset", seq [field "base" (choice [sym "dataset_name", sym "temporary_dataset"]),
      string "(", field "member" (sym "member_name"), string ")"]),
    ("dlm_parameter", seq [string "DLM=", field "value" (sym "dlm_value")])]

/-- Conditions. -/
def conditions : List (String × Rule) :=
  [("_condition", choice (["comparison", "abend_condition", "not_condition", "binary_condition",
      "parenthesized_condition"].map sym)),
    ("comparison", seq [field "left" (sym "return_code"),
      field "operator" (sym "comparison_operator"), field "right" (sym "number")]),
    ("return_code", pattern ("(?:" ++ namePattern ++ "\\.)\x7b0,2\x7dRC")),
    ("comparison_operator", choice (["=", "!=", "¬=", "<", ">", "<=", ">=", "EQ", "NE", "LT",
      "GT", "LE", "GE"].map string)),
    ("number", pattern "\\d+"),
    ("abend_condition", seq [string "ABEND",
      opt (seq [string "=", field "value" (choice [string "TRUE", string "FALSE"])])]),
    ("not_condition", prec 3 (seq [string "NOT", field "operand" (sym "_condition")])),
    ("binary_condition",
      choice [precLeft 2 (binary ["AND", "&"]), precLeft 1 (binary ["OR", "|"])]),
    ("parenthesized_condition", seq [string "(", sym "_condition", string ")"])]

/-- Assignments to symbols. -/
def assignments : List (String × Rule) :=
  [("symbol_assignment", seq [field "name" (sym "symbol_name"), string "=",
      field "value" (sym "_value")]),
    ("symbol_name", pattern symbolicNamePattern)]

/-- The grammar. -/
def grammar : Grammar :=
  let base : Grammar := { name := "jcl" }
  let base := (base.addExtra (pattern "\\s")).addExtra (sym "comment")
  let base := ((base.addExternal "data_lines").addExternal "delimiter").addExternal "dlm_value"
  (statements ++ names ++ operands ++ datasets ++ conditions ++ assignments).foldl
    (fun g r => g.addRule r.1 r.2) base

/-- Whether a byte is one of the three letters that countries define. -/
def isNational (c : Char) : Bool := c == '#' || c == '@' || c == '$'

/-- Whether a text is the name of a job, step or data definition: one to eight
characters, a letter or national character first, then digits too. -/
def isValidName (name : String) : Bool :=
  match name.toList with
  | [] => false
  | first :: rest =>
    rest.length < 8 && (first.isUpper || isNational first)
      && rest.all fun c => c.isUpper || c.isDigit || isNational c

end Glr.Jcl
