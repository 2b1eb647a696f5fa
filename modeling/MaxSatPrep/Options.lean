import MaxSatPrep.Schema
import MaxSatPrep.Engine.State
/-!
Engine tuning options. Every option is optional; the flags are booleans and the others counts.
A document of options may name only these options: each unknown name and each value that is
not of its option's kind counts as one failing place. Options given as keyword arguments must
come as a mapping. The options that are set are handed to
the engine one by one, in declaration order.
-/

namespace MaxSatPrep

/-- the tuning options, each unset or with a value -/
structure Options where
  bveGateExtraction : Option Bool := none
  labelMatching : Option Bool := none
  skipTechnique : Option Int := none
  bveSortMaxFirst : Option Bool := none
  bveLocalGrowLimit : Option Int := none
  bveGlobalGrowLimit : Option Int := none
  maxBbtmsVars : Option Int := none
  hardenInModelSearch : Option Bool := none
  modelSearchIterLimit : Option Int := none

namespace Options

/-- the option names, in declaration order -/
def names : List String :=
  ["bve_gate_extraction", "label_matching", "skip_technique", "bve_sort_max_first",
   "bve_local_grow_limit", "bve_global_grow_limit", "max_bbtms_vars", "harden_in_model_search",
   "model_search_iter_limit"]

/-- a flag option of a document -/
def flag (d : Datum) (key : String) : Checked (Option Bool) := Schema.nullable d key Schema.bool

/-- a count option of a document -/
def count (d : Datum) (key : String) : Checked (Option Int) := Schema.nullable d key Schema.int

/-- the options a document sets; unknown names fail -/
def check (d : Datum) : Checked Options := do
  let fs ← Schema.fields d
  let unknown := (fs.filter (fun p => !names.contains p.1)).length
  let r := Checked.both (Checked.both (Checked.both (flag d "bve_gate_extraction")
      (flag d "label_matching")) (Checked.both (count d "skip_technique")
      (flag d "bve_sort_max_first"))) (Checked.both (Checked.both (count d "bve_local_grow_limit")
      (count d "bve_global_grow_limit")) (Checked.both (count d "max_bbtms_vars")
      (Checked.both (flag d "harden_in_model_search") (count d "model_search_iter_limit"))))
  match r with
  | .ok (((a, b), (c, e)), ((f, g), (h, (i, j)))) =>
    if unknown = 0 then
      .ok { bveGateExtraction := a, labelMatching := b, skipTechnique := c, bveSortMaxFirst := e,
            bveLocalGrowLimit := f, bveGlobalGrowLimit := g, maxBbtmsVars := h,
            hardenInModelSearch := i, modelSearchIterLimit := j }
    else .error unknown
  | .error n => .error (n + unknown)

/-- The options given as keyword arguments by a document: it must be a mapping, whose options
are then checked. -/
def ofKeywords (d : Datum) : Outcome (Checked Options) :=
  match d with
  | .obj _ => .ok (check d)
  | other => refuse (.keywordsNotMapping "prepro.config.PreproOptions()" other.typeName)

/-- the options that are set, with their values, in declaration order -/
def present (o : Options) : List (String × OptionValue) :=
  let fl (name : String) (v : Option Bool) : List (String × OptionValue) :=
    match v with
    | some b => [(name, .flag b)]
    | none => []
  let ct (name : String) (v : Option Int) : List (String × OptionValue) :=
    match v with
    | some n => [(name, .count n)]
    | none => []
  fl "bve_gate_extraction" o.bveGateExtraction ++ fl "label_matching" o.labelMatching ++
    ct "skip_technique" o.skipTechnique ++ fl "bve_sort_max_first" o.bveSortMaxFirst ++
    ct "bve_local_grow_limit" o.bveLocalGrowLimit ++
    ct "bve_global_grow_limit" o.bveGlobalGrowLimit ++ ct "max_bbtms_vars" o.maxBbtmsVars ++
    fl "harden_in_model_search" o.hardenInModelSearch ++
    ct "model_search_iter_limit" o.modelSearchIterLimit

end Options

end MaxSatPrep
