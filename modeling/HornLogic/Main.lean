import HornLogic.Family

/-!
# The demonstration program

Prints what is known of the family and the answers to the queries about it.
-/

/-- Prints the transcript of the family. -/
def main : IO Unit := IO.print HornLogic.Family.transcript.text
