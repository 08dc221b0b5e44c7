import HornLogic.Search.Run

/-!
# Printed answers

A transcript shows a query as one would see it at a prompt: the query, a line for each of its
solutions, and `No.` if there are none. The depth of the search is limited. If the limit is
exceeded, the error is the last line of the transcript.
-/

namespace HornLogic

/-- The lines printed for a query, and the log of answering it. -/
structure Transcript where
  lines : List String
  log : List Event

namespace Transcript

/-- How deep a query may go before its transcript ends with an error. -/
def depthLimit : Nat := 1000

/-- The line printed for a report. The end of the search is worth a line only if it was
reached without a solution. -/
def line (solved : Bool) : Report → Option String
  | .solution answer => some ("  " ++ answer.text)
  | .aborted error => some ("  error: " ++ error.message)
  | .exhausted => if solved then none else some "  No."

/-- The lines printed for the reports of a search, given whether it was solved before. -/
def reportLines (solved : Bool) : List Report → List String
  | [] => []
  | report :: reports =>
    (line solved report).toList ++ reportLines (solved || !report.isFinal) reports

/-- The transcript of a query with the given title. -/
def ofQuery (kb : KnowledgeBase) (title : String) (goals : List Term) : Transcript :=
  let limits := Limits.unbounded.withMaxDepth depthLimit
  let run := (kb.query goals limits).run (Search.turnBound kb.size depthLimit)
  { lines := ("?- " ++ title ++ ".") :: reportLines false run.reports.toList
    log := kb.queryEvents goals ++ run.log.toList }

def append (first second : Transcript) : Transcript where
  lines := first.lines ++ second.lines
  log := first.log ++ second.log

instance : Append Transcript := ⟨append⟩

/-- The lines as one text, each of them ended. -/
def text (transcript : Transcript) : String :=
  String.join (transcript.lines.map (· ++ "\n"))

end Transcript

end HornLogic
