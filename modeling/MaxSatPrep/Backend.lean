import MaxSatPrep.Config
/-!
Engine backends and their registry. The reference engine is always there. The native engine
comes from a shared library that is looked up when first asked for: at the configured path
(which must exist), or else where the platform's library search finds one. A library the
dynamic loader refuses, or one that lacks a required symbol (checked in declaration order), is
unavailable; so is any name the registry does not know. What lies at a path is the caller's
knowledge, passed in as a `Platform`.
-/

namespace MaxSatPrep

/-- what lies at a library path -/
inductive LibraryFile where
  /-- nothing -/
  | absent
  /-- a file the dynamic loader refuses, with the loader's message -/
  | unloadable (message : String)
  /-- a library exporting these symbols -/
  | exports (symbols : List String)

/-- the platform's answers about libraries -/
structure Platform where
  fileAt : String → LibraryFile
  /-- the library the platform's search finds for the native engine, if any -/
  searchResult : Option String := none

/-- an engine backend -/
inductive Backend where
  | reference
  | native (path : String)
  deriving DecidableEq

namespace Backend

/-- the version of this engine library -/
def version : String := "0.1.0"

/-- the registry name of a backend -/
def name : Backend → String
  | .reference => "reference"
  | .native _ => "maxpre"

/-- the signature a backend reports -/
def signature : Backend → String
  | .reference => "prepro-reference " ++ version
  | .native _ => "maxpre"

/-- the symbols a native engine library must export, in declaration order -/
def nativeSymbols : List String :=
  ["cmaxpre_signature", "cmaxpre_init_start", "cmaxpre_init_add_weight", "cmaxpre_init_add_lit",
   "cmaxpre_init_finalize", "cmaxpre_release", "cmaxpre_preprocess", "cmaxpre_get_top_weight",
   "cmaxpre_get_n_prepro_clauses", "cmaxpre_get_n_prepro_labels", "cmaxpre_get_n_prepro_fixed",
   "cmaxpre_get_prepro_lit", "cmaxpre_get_prepro_weight", "cmaxpre_get_prepro_label",
   "cmaxpre_get_prepro_fixed_lit", "cmaxpre_get_original_variables", "cmaxpre_assignment_add",
   "cmaxpre_reconstruct", "cmaxpre_reconstructed_val", "cmaxpre_add_var", "cmaxpre_add_lit",
   "cmaxpre_add_label", "cmaxpre_alter_weight", "cmaxpre_label_to_var",
   "cmaxpre_reset_removed_weight", "cmaxpre_get_removed_weight", "cmaxpre_set_bve_gate_extraction",
   "cmaxpre_set_label_matching", "cmaxpre_set_skip_technique", "cmaxpre_set_bve_sort_max_first",
   "cmaxpre_set_bve_local_grow_limit", "cmaxpre_set_bve_global_grow_limit",
   "cmaxpre_set_max_bbtms_vars", "cmaxpre_set_harden_in_model_search",
   "cmaxpre_set_model_search_iter_limit", "cmaxpre_print_instance_stdout",
   "cmaxpre_print_solution_stdout", "cmaxpre_print_map_stdout", "cmaxpre_print_technique_log_stdout",
   "cmaxpre_print_info_log_stdout", "cmaxpre_print_preprocessor_stats_stdout"]

/-- loads the native engine library from an explicit path, or the one the search finds -/
def loadNative (p : Platform) (explicit : Option String) : Outcome Backend :=
  let path := match explicit with
    | some e => match p.fileAt e with
      | .absent => none
      | _ => some e
    | none => p.searchResult
  match path with
  | none => refuse .libraryNotFound
  | some path =>
    match p.fileAt path with
    | .absent => refuse .libraryNotFound
    | .unloadable msg => refuse (.libraryUnloadable path msg)
    | .exports syms =>
      match nativeSymbols.find? (fun s => !syms.contains s) with
      | some missing => refuse (.symbolMissing path missing)
      | none => .ok (.native path)

end Backend

/-- a registry of backends over a configuration -/
structure Registry where
  config : SessionConfig
  platform : Platform

namespace Registry

/-- the names the registry knows, sorted -/
def names : List String := ["maxpre", "reference"]

/-- the configured library path, when it is a non-empty text -/
def libraryPath? (r : Registry) : Option String :=
  match r.config.libraryPath with
  | .str "" => none
  | .str s => some s
  | _ => none

/-- the backend of a name -/
def named (r : Registry) (n : String) : Outcome Backend :=
  if n == "reference" then .ok .reference
  else if n == "maxpre" then Backend.loadNative r.platform r.libraryPath?
  else refuse (.backendNotFound n)

/-- The backend of a name given as any value. A value that is not truthy means the configured
backend; a list or object cannot be looked up, and a value other than a text names no backend. -/
def lookup (r : Registry) (name : Datum) : Outcome Backend :=
  let n := if name.truthy then name else r.config.backend
  match n with
  | .str s => r.named s
  | .list _ | .obj _ => refuse (.unhashable n.typeName)
  | d => refuse (.backendNotFound d.toText)

/-- the backend of a name; no name, or the empty one, means the configured backend -/
def get (r : Registry) (name : Option String) : Outcome Backend :=
  r.lookup ((name.map Datum.str).getD .null)

/-- whether a name given as any value gives a backend; a value that cannot be looked up fails -/
def availableAs (r : Registry) (name : Datum) : Outcome Bool :=
  match r.lookup name with
  | .ok _ => .ok true
  | .error f => if f.kind = .backendUnavailable then .ok false else .error f

/-- whether a name gives a backend -/
def available (r : Registry) (name : String) : Bool :=
  match r.availableAs (.str name) with
  | .ok b => b
  | .error _ => false

end Registry

end MaxSatPrep
