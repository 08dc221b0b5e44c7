import HornLogic.Transcript

/-!
# A family

A knowledge base of six people and how they are related, with some queries about them.
-/

namespace HornLogic.Family

def person (name : Symbol) : Term := .atom name

/-- The first person is a parent of the second. -/
def parent (elder younger : Term) : Term := .app "parent" [elder, younger]

def female (person : Term) : Term := .app "female" [person]

/-- The first person is a grandparent of the second. -/
def grandparent (elder younger : Term) : Term := .app "grandparent" [elder, younger]

def mother (elder younger : Term) : Term := .app "mother" [elder, younger]

/-- The first person is an ancestor of the second. -/
def ancestor (elder younger : Term) : Term := .app "ancestor" [elder, younger]

/-- The clause that has the functor and the arguments of `head` for its head. -/
def rule (head : Term) (goals : List Term) : Clause := .ofParts head.name head.args goals

def fact (head : Term) : Clause := rule head []

/-- What is known of the family. -/
def clauses : List Clause :=
  [ fact (parent (person "pam") (person "bob")),
    fact (parent (person "tom") (person "bob")),
    fact (parent (person "tom") (person "liz")),
    fact (parent (person "bob") (person "ann")),
    fact (parent (person "bob") (person "pat")),
    fact (parent (person "pat") (person "jim")),
    fact (female (person "pam")),
    fact (female (person "liz")),
    fact (female (person "ann")),
    fact (female (person "pat")),
    rule (grandparent (.var "X") (.var "Y"))
      [parent (.var "X") (.var "Z"), parent (.var "Z") (.var "Y")],
    rule (mother (.var "M") (.var "C")) [parent (.var "M") (.var "C"), female (.var "M")],
    rule (ancestor (.var "A") (.var "D")) [parent (.var "A") (.var "D")],
    rule (ancestor (.var "A") (.var "D"))
      [parent (.var "A") (.var "C"), ancestor (.var "C") (.var "D")] ]

def kb : KnowledgeBase := .ofClauses clauses

/-- Queries about the family, each with its title. -/
def queries : List (String × Term) :=
  [ ("parent(X, bob)", parent (.var "X") (person "bob")),
    ("grandparent(G, ann)", grandparent (.var "G") (person "ann")),
    ("mother(M, C)", mother (.var "M") (.var "C")),
    ("ancestor(tom, D)", ancestor (person "tom") (.var "D")),
    ("parent(jim, X)", parent (person "jim") (.var "X")) ]

/-- The clauses, a blank line, and the answers to the queries. -/
def transcript : Transcript :=
  let listing : Transcript :=
    { lines := clauses.map Clause.text ++ [""], log := KnowledgeBase.additions clauses }
  queries.foldl (fun shown (title, goal) => shown ++ .ofQuery kb title [goal]) listing

end HornLogic.Family
