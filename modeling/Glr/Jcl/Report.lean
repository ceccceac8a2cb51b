import Glr.Jcl.Extraction
import Glr.Json.Printer

/-!
# Glr.Jcl.Report

Extractions in writing: as JSON with totals, and as a table of comma-separated
values.  A field of the table with a comma, a quote or a line feed stands in
quotes, and a quote in it is written twice.
-/

namespace Glr.Jcl

namespace Datasets

/-- The names of datasets as JSON. -/
def encode (d : Datasets) : Json :=
  .object [("regular", .list .string d.regular), ("gdg", .list .string d.gdg),
    ("temporary", .list .string d.temporary), ("referback", .list .string d.referback)]

/-- The numbers of datasets as JSON. -/
def encodeCounts (d : Datasets) : Json :=
  .object [("regular", .nat d.regular.length), ("gdg", .nat d.gdg.length),
    ("temporary", .nat d.temporary.length), ("referback", .nat d.referback.length)]

end Datasets

namespace Extraction

/-- The totals as JSON. -/
def summary (e : Extraction) : Json :=
  .object [("total_jobs", .nat e.jobs.length), ("total_programs", .nat e.programs.length),
    ("total_datasets", .nat e.datasets.total), ("dataset_breakdown", e.datasets.encodeCounts)]

/-- An extraction with its totals as JSON. -/
def encode (e : Extraction) : Json :=
  .object (Json.optionalMember "file" .string e.file
    ++ [("jobs", .list .string e.jobs), ("programs", .list .string e.programs),
      ("procedures", .list .string e.procedures), ("datasets", e.datasets.encode),
      ("statements", .object (e.statements.map fun (kind, n) => (kind, .nat n))),
      ("parse_errors", .nat e.parseErrors), ("extraction_summary", e.summary)])

/-- An extraction with its totals in writing. -/
def toJson (e : Extraction) : String := e.encode.pretty

end Extraction

/-- Several extractions in writing. -/
def jsonReport (es : List Extraction) : String :=
  (Json.object [("extraction_results", .list Extraction.encode es)]).pretty

/-! ## Comma-separated values -/

/-- Whether a field has to stand in quotes. -/
def needsQuotes (s : String) : Bool := s.toList.any fun c => c == ',' || c == '"' || c == '\n'

/-- A field of the table. -/
def csvField (s : String) : String :=
  if needsQuotes s then "\"" ++ s.replace "\"" "\"\"" ++ "\"" else s

/-- The names of the columns. -/
def csvHeader : String :=
  "File,Jobs,Programs,Regular_Datasets,GDG_Datasets,Temp_Datasets,Referback_Datasets,Parse_Errors"

/-- The line of an extraction. -/
def Extraction.csvRow (e : Extraction) : String :=
  ",".intercalate
    [csvField (e.file.getD ""), csvField (";".intercalate e.jobs),
      csvField (";".intercalate e.programs), toString e.datasets.regular.length,
      toString e.datasets.gdg.length, toString e.datasets.temporary.length,
      toString e.datasets.referback.length, toString e.parseErrors]

/-- The table: the header and a line for each extraction. -/
def csvReport (es : List Extraction) : String :=
  es.foldl (fun out e => out ++ e.csvRow ++ "\n") (csvHeader ++ "\n")

end Glr.Jcl
