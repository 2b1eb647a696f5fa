import MaxSatPrep.Engine.Reconstruct
import MaxSatPrep.Engine.Edit
import MaxSatPrep.Text.Lines
/-!
Reports of the engine as lines of text: the instance in weighted DIMACS form, a solution after
reconstruction, the reconstruction map, the technique log, the info log and statistics. Values
are written out as the language writes them (`Datum.written`), which refuses an integer of more
than 4300 digits, and such a refusal fails the whole report. A report is read back from the
output stream, so a line that holds a line break comes back as several lines.
-/

namespace MaxSatPrep

namespace Engine

/-- values written out and separated by single spaces -/
def spaced (xs : List Datum) : Outcome String := do
  pure (" ".intercalate (← xs.mapM Datum.written))

/-- the weighted DIMACS form: a header, then per row its weights (the top weight for a hard
row, one per objective and at least one), its literals and a closing zero -/
def instanceLines (e : Engine) : Outcome (List String) := do
  let header := "p wcnf " ++ (← Datum.written e.maxVar) ++ " " ++ toString e.rows.length ++ " " ++
    (← Datum.written e.top)
  let rowLines ← e.rows.mapM (fun r => do
    let n ← Datum.rangeBound (← Datum.maxOf e.nObj (.int 1))
    let ws ← match r.weights with
      | none => pure (List.replicate n.toNat e.top)
      | some ws => (List.range n.toNat).mapM (fun (o : Nat) => Datum.itemOr ws (.int o) (.int 0))
    spaced (ws ++ r.lits ++ [.int 0]))
  pure (Text.printedLines (header :: rowLines))

/-- reconstructs and reports the values of the variables 1 to the largest, with the given
objective value -/
def solutionLines (weight : Datum) : EngineM (List String) := do
  reconstruct
  let e ← get
  let bound ← EngineM.lift (variableBound e)
  let lits : List Datum := (List.range (bound.toNat - 1)).map (fun (i : Nat) =>
    if valueOf e.reconstructed (.int (i + 1)) then .int (i + 1) else .int (-((i + 1 : Nat) : Int)))
  let w ← EngineM.lift (Datum.written weight)
  let v ← EngineM.lift (spaced lits)
  pure (Text.printedLines ["o " ++ w, "s OPTIMUM FOUND", "v " ++ v])

/-- the reconstruction map: the variable count, then the trace in order -/
def mapLines (e : Engine) : Outcome (List String) := do
  let header := "c original variables " ++ (← Datum.written e.maxVar)
  let events ← e.trace.mapM (fun ev => match ev with
    | .fix l => do pure ("c fix " ++ (← Datum.written l))
    | .blocked clause blocking => do
      let c ← spaced clause
      pure ("c bce " ++ (← Datum.written blocking) ++ " : " ++ c ++ " 0"))
  pure (Text.printedLines (header :: events))

/-- The technique log, one run a line. Run times are not measured; their place shows `*`. -/
def techniqueLines (e : Engine) : List String :=
  e.log.map (fun r => "c " ++ r.technique ++ " changed=" ++
    (if r.changed then "1" else "0") ++ " " ++ toString r.clausesBefore ++ "->" ++
    toString r.clausesAfter ++ " fixed=" ++ toString r.fixedAfter ++ " *s")

/-- the info log -/
def infoLines (e : Engine) : List String := Text.printedLines (e.info.map ("c " ++ ·))

/-- the number of logged runs of each technique, by technique name -/
def runCounts (e : Engine) : List (String × Nat) :=
  let ts := (e.log.map TechniqueRun.technique).eraseDups.mergeSort (fun a b => decide (a ≤ b))
  ts.map (fun t => (t, (e.log.filter (fun r => r.technique == t)).length))

/-- statistics of the current table -/
def statsLines (e : Engine) : Outcome (List String) := do
  let labels ← e.labels
  let top ← Datum.written e.top
  let removed ← spaced e.removed
  pure (Text.printedLines (["c clauses " ++ toString e.rows.length,
    "c labels " ++ toString labels.length, "c fixed " ++ toString e.fixed.length,
    "c top weight " ++ top, "c removed weight " ++ removed] ++
    (runCounts e).map (fun p => "c technique " ++ p.1 ++ " runs " ++ toString p.2)))

end Engine

end MaxSatPrep
