import MaxSatPrep.Session.Ops
/-!
Runs of calls on an open session. Every call of the session's interface that may change it is
one constructor of `Call`; reads change nothing and are left out. A call that is refused leaves
the session as it was, and a preprocessing call keeps what a run that fails part-way did, so a
run of calls is the fold of `perform` over them.
-/

namespace MaxSatPrep

namespace Session

/-- a call of an open session that may change it, with its arguments -/
inductive Call where
  | setOptions (options : Datum)
  | preprocess (techniques logLevel timeLimit : Option Datum) (addRemoved : Bool)
  | addVar
  | addClause (clause : Datum)
  | addLabel (lit weight : Datum)
  | alterWeight (label weight : Datum)
  | labelToVar (label : Datum)
  | resetRemovedWeight
  | reconstruct (assignment : List Datum)
  | printSolution (assignment : List Datum) (weight : Datum)

namespace Call

/-- a call of a preprocessing run: setting options or preprocessing -/
def isPreprocessing : Call → Bool
  | .setOptions _ | .preprocess .. => true
  | _ => false

/-- a call of an inprocessing run: preprocessing, or adding a variable or a clause -/
def isInprocessing : Call → Bool
  | .preprocess .. | .addVar | .addClause _ => true
  | _ => false

end Call

/-- the session a call answers with, or the session as it was when the call is refused -/
def keep (s : Session) : Outcome Session → Session
  | .ok s' => s'
  | .error _ => s

/-- the session after one call -/
def perform (s : Session) : Call → Session
  | .setOptions o => s.keep (s.setOptions o)
  | .preprocess techniques logLevel timeLimit addRemoved =>
    (s.preprocess techniques logLevel timeLimit addRemoved).1
  | .addVar => s.keep (s.addVar.map Prod.snd)
  | .addClause c => s.keep (s.addClause c)
  | .addLabel l w => s.keep ((s.addLabel l w).map Prod.snd)
  | .alterWeight l w => s.keep (s.alterWeight l w)
  | .labelToVar l => s.keep (s.labelToVar l)
  | .resetRemovedWeight => s.keep s.resetRemovedWeight
  | .reconstruct a => s.keep ((s.reconstruct a).map Prod.snd)
  | .printSolution a w => s.keep ((s.printSolution a w).map Prod.snd)

/-- the session after calls in order -/
def performAll (s : Session) (calls : List Call) : Session := calls.foldl perform s

@[simp] theorem performAll_nil (s : Session) : s.performAll [] = s := rfl

@[simp] theorem performAll_cons (s : Session) (c : Call) (calls : List Call) :
    s.performAll (c :: calls) = (s.perform c).performAll calls := rfl

end Session

end MaxSatPrep
