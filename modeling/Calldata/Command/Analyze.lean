import Calldata.Command.Load
import Calldata.Command.Report

/-!
The command that reports on layouts. As JSON the report stands alone, whatever else was asked for.
-/
namespace Calldata
namespace AnalyzeRequest

def summary (reports : List Report) : String :=
  let count := reports.length
  let failed := reports.countP Report.failed
  if failed = 0 then s!"[✓] Analysis complete: {count} type(s)"
  else s!"[✗] {failed} of {count} type(s) cannot be decoded"

def run (r : AnalyzeRequest) (sources : List Source) : Printing Unit := do
  let verbose := r.verbose && !r.json
  Printing.linesIf verbose ["ABI Decoder - Type Analysis Tool", "================================", ""]
  let (catalog, selected) ← Catalog.loadSelected verbose sources r.types
  let reports := selected.map fun (name, id) => Report.ofRoot catalog.arena name id
  if r.json then Printing.line (Json.array (reports.map Report.toJson)).pretty
  else
    (["", "[~] Resolved Type Layouts:", "=========================="] ++
      reports.flatMap Report.lines ++ ["", summary reports]).forM Printing.line

end AnalyzeRequest
end Calldata
