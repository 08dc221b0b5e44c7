import HornLogic.Search.Basic

/-!
# Whole runs of a search

`Search.run` makes turns until the search is over and keeps every report. With a limit on the
depth a search always comes to its end. Each branch makes at most one resolution step more than
the limit, and each choice point tries at most all the clauses, which bounds the number of
attempts. Every turn is an attempt, takes up goals or pops a choice point. Goals are taken up
at the start and after an attempt that succeeded, and each time at most one choice point is
pushed, so `turnBound` turns are enough to get to the end.
-/

namespace HornLogic

/-- What a run has brought about so far. -/
structure Run where
  search : Search
  /-- The reports in order, the one that ended the search included if it was reached. -/
  reports : Array Report := #[]
  log : Array Event := #[]

/-- Whether a report is the last one of its search. -/
def Report.isFinal : Report → Bool
  | .solution _ => false
  | .aborted _ => true
  | .exhausted => true

namespace Search

/-- Continues a run by at most the given number of turns, up to its final report. -/
def runFrom : Nat → Run → Run
  | 0, run => run
  | turns + 1, { search, reports, log } =>
    match search.turn with
    | { search, report := none, log := events } =>
      runFrom turns { search, reports, log := log ++ events }
    | { search, report := some report, log := events } =>
      let run : Run := { search, reports := reports.push report, log := log ++ events }
      if report.isFinal then run else runFrom turns run

def run (turns : Nat) (search : Search) : Run := runFrom turns { search }

/-- A bound for the attempts of a search over a number of clauses: `m + m² + … + m^(depth + 1)`
for `m` clauses. -/
def attemptBound (clauses : Nat) : Nat → Nat
  | 0 => clauses
  | depth + 1 => clauses + clauses * attemptBound clauses depth

/-- A bound for the turns of a search whose depth is limited. -/
def turnBound (clauses depth : Nat) : Nat := 3 * attemptBound clauses depth + 3

end Search

end HornLogic
