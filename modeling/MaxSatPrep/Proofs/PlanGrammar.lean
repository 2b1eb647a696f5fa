import MaxSatPrep.Technique.Plan
/-!
The grammar of technique plans. A technique string is read character by character; each
character is a text of its own (`Text.characters`). The texts fall in five classes: blanks, `#`,
`[`, `]` and technique names (`Plan.nameItem`, everything else).

Two descriptions of the scan stand beside it. Its failures are those of a scan that tracks only
whether it is inside a group (`Plan.firstFault`): `#` or `[` inside a group, `]` outside one, and
the end inside one, the first of these met. Its answers are the plans the grammar `Plan.Spells`
gives: blanks and `#` between groups are skipped, a name outside brackets is a group of one that
runs once, and brackets around blanks and names are a repeating group of those names.

Main statement: `Plan.parse_accepts_exactly_its_grammar`, for every technique string: the parse
fails exactly with the first fault, as a validation error; it answers exactly the plans the
grammar spells; and the names of an answer, read in order, are the string's characters less its
blanks, `#`, `[` and `]`.
-/

namespace MaxSatPrep

/-- the characters of a text, each a text of its own, as iterating over the text gives them -/
def Text.characters (s : String) : List String :=
  (Text.codePoints s.toList).map (fun n => String.ofList (Text.keepCode n))

theorem Datum.textItems_eq_characters (s : String) :
    Datum.textItems s = (Text.characters s).map .str := by
  simp [Datum.textItems, Text.characters]

namespace Plan

/-- a text the scan reads as a technique name: not blank, not `#` and no bracket -/
def nameItem (t : String) : Bool := !(blankItem t || t == "#" || t == "[" || t == "]")

/-! ## The grammar -/

/-- The plans a sequence of texts spells: blanks and `#` are skipped, a name is a group of one
that runs once, and `[`, blanks and names, `]` is a repeating group of the non-blank texts
between the brackets. -/
inductive Spells : List String → Plan → Prop
  | nil : Spells [] []
  | skip {t : String} {ts : List String} {p : Plan} :
      (blankItem t = true ∨ t = "#") → Spells ts p → Spells (t :: ts) p
  | single {t : String} {ts : List String} {p : Plan} :
      nameItem t = true → Spells ts p → Spells (t :: ts) (⟨[t], false⟩ :: p)
  | group {body ts : List String} {p : Plan} :
      (∀ t ∈ body, blankItem t = true ∨ nameItem t = true) → Spells ts p →
      Spells ("[" :: (body ++ "]" :: ts)) (⟨body.filter (fun t => !blankItem t), true⟩ :: p)

/-! ## The faults -/

/-- the fault an item is, inside a group or outside -/
def faultAt (s : String) (inGroup : Bool) (t : String) : Option Cause :=
  if inGroup && t == "#" then some (.separatorInGroup s)
  else if inGroup && t == "[" then some (.nestedGroup s)
  else if !inGroup && t == "]" then some (.unbalancedClose s)
  else none

/-- whether the scan is inside a group after an item -/
def inGroupAfter (inGroup : Bool) (t : String) : Bool :=
  if t == "[" then true else if t == "]" then false else inGroup

/-- The first fault a left-to-right scan meets that tracks only whether it is inside a group:
an item that is a fault where it stands, or the end inside a group. -/
def firstFault (s : String) : Bool → List String → Option Cause
  | inGroup, [] => if inGroup then some (.unbalancedOpen s) else none
  | inGroup, t :: ts => (faultAt s inGroup t).or (firstFault s (inGroupAfter inGroup t) ts)

/-! ## One item of the scan -/

section Items

variable {s t : String} {g : Bool}

theorem item_cases (t : String) :
    blankItem t = true ∨ t = "#" ∨ t = "[" ∨ t = "]" ∨ nameItem t = true := by
  by_cases hb : blankItem t = true
  · exact .inl hb
  by_cases h1 : t = "#"
  · exact .inr (.inl h1)
  by_cases h2 : t = "["
  · exact .inr (.inr (.inl h2))
  by_cases h3 : t = "]"
  · exact .inr (.inr (.inr (.inl h3)))
  exact .inr (.inr (.inr (.inr (by simp_all [nameItem]))))

theorem ne_marks_of_blank (h : blankItem t = true) : t ≠ "#" ∧ t ≠ "[" ∧ t ≠ "]" := by
  refine ⟨?_, ?_, ?_⟩ <;> (rintro rfl; revert h; decide)

theorem ne_marks_of_name (h : nameItem t = true) :
    blankItem t = false ∧ t ≠ "#" ∧ t ≠ "[" ∧ t ≠ "]" := by
  simp only [nameItem, Bool.not_eq_true', Bool.or_eq_false_iff, beq_eq_false_iff_ne] at h
  exact ⟨h.1.1.1, h.1.1.2, h.1.2, h.2⟩

theorem faultAt_of_ne (h : t ≠ "#" ∧ t ≠ "[" ∧ t ≠ "]") : faultAt s g t = none := by
  simp [faultAt, h.1, h.2.1, h.2.2]

theorem inGroupAfter_of_ne (h : t ≠ "#" ∧ t ≠ "[" ∧ t ≠ "]") : inGroupAfter g t = g := by
  simp [inGroupAfter, h.2.1, h.2.2]

variable {cs : List Datum} {done : List Group} {o : Option (List String)} {ls : List String}

theorem scan_blank (h : blankItem t = true) : scan s (.str t :: cs) done o = scan s cs done o := by
  simp [scan, h, (ne_marks_of_blank h).1]

theorem scan_sep_outside : scan s (.str "#" :: cs) done none = scan s cs done none := rfl

theorem scan_sep_inside : scan s (.str "#" :: cs) done (some ls) = refuse (.separatorInGroup s) :=
  rfl

theorem scan_open_outside : scan s (.str "[" :: cs) done none = scan s cs done (some []) := rfl

theorem scan_open_inside : scan s (.str "[" :: cs) done (some ls) = refuse (.nestedGroup s) := rfl

theorem scan_close_outside : scan s (.str "]" :: cs) done none = refuse (.unbalancedClose s) := rfl

theorem scan_close_inside :
    scan s (.str "]" :: cs) done (some ls) = scan s cs (⟨ls.reverse, true⟩ :: done) none := rfl

theorem scan_name_outside (h : nameItem t = true) :
    scan s (.str t :: cs) done none = scan s cs (⟨[t], false⟩ :: done) none := by
  obtain ⟨hb, h1, h2, h3⟩ := ne_marks_of_name h
  simp [scan, hb, h1, h2, h3]

theorem scan_name_inside (h : nameItem t = true) :
    scan s (.str t :: cs) done (some ls) = scan s cs done (some (t :: ls)) := by
  obtain ⟨hb, h1, h2, h3⟩ := ne_marks_of_name h
  simp [scan, hb, h1, h2, h3]

end Items

/-! ## Failures: the first fault -/

theorem firstFault_cons (s t : String) (g : Bool) (ts : List String) :
    firstFault s g (t :: ts) = (faultAt s g t).or (firstFault s (inGroupAfter g t) ts) := rfl

theorem faultAt_fail {s t : String} {g : Bool} {c : Cause} (h : faultAt s g t = some c) :
    c.fail = ⟨.validation, c⟩ := by
  unfold faultAt at h
  split at h
  · cases h
    rfl
  split at h
  · cases h
    rfl
  split at h
  · cases h
    rfl
  · cases h

theorem firstFault_fail {s : String} {g : Bool} {ts : List String} {c : Cause}
    (h : firstFault s g ts = some c) : c.fail = ⟨.validation, c⟩ := by
  induction ts generalizing g with
  | nil =>
    cases g <;> simp only [firstFault, Bool.false_eq_true, if_false, if_true, reduceCtorEq,
      Option.some.injEq] at h
    subst h
    rfl
  | cons t ts ih =>
    rw [firstFault_cons, Option.or_eq_some_iff] at h
    rcases h with h | ⟨-, h⟩
    · exact faultAt_fail h
    · exact ih h

/-- The scan fails with the first fault, and answers when there is none; whether the scan is
inside a group is all of its state that the faults depend on. -/
theorem scan_firstFault (s : String) (ts : List String) (done : List Group)
    (o : Option (List String)) :
    ∃ p, scan s (ts.map .str) done o = (firstFault s o.isSome ts).elim (.ok p) refuse := by
  induction ts generalizing done o with
  | nil =>
    cases o with
    | none => exact ⟨done.reverse, rfl⟩
    | some ls => exact ⟨[], rfl⟩
  | cons t ts ih =>
    rw [List.map_cons, firstFault_cons]
    rcases item_cases t with h | rfl | rfl | rfl | h
    · rw [scan_blank h, faultAt_of_ne (ne_marks_of_blank h), inGroupAfter_of_ne (ne_marks_of_blank h)]
      exact ih done o
    · cases o with
      | none => exact ih done none
      | some ls => exact ⟨[], rfl⟩
    · cases o with
      | none => exact ih done (some [])
      | some ls => exact ⟨[], rfl⟩
    · cases o with
      | none => exact ⟨[], rfl⟩
      | some ls => exact ih _ none
    · rw [faultAt_of_ne (ne_marks_of_name h).2, inGroupAfter_of_ne (ne_marks_of_name h).2]
      cases o with
      | none =>
        rw [scan_name_outside h]
        exact ih _ none
      | some ls =>
        rw [scan_name_inside h]
        exact ih done (some (t :: ls))

/-! ## Answers: the grammar -/

/-- Inside a group, blanks and names up to the closing bracket make the group of the names. -/
theorem scan_group {s : String} {body : List String}
    (hb : ∀ t ∈ body, blankItem t = true ∨ nameItem t = true) (ts : List String)
    (done : List Group) (ls : List String) :
    scan s ((body ++ "]" :: ts).map .str) done (some ls) =
      scan s (ts.map .str) (⟨ls.reverse ++ body.filter (fun t => !blankItem t), true⟩ :: done) none := by
  induction body generalizing ls with
  | nil => simp [scan_close_inside]
  | cons t body ih =>
    have hrest : ∀ t ∈ body, blankItem t = true ∨ nameItem t = true :=
      fun t ht => hb t (List.mem_cons_of_mem _ ht)
    rcases hb t List.mem_cons_self with h | h
    · rw [List.cons_append, List.map_cons, scan_blank h, ih hrest ls]
      simp [h]
    · rw [List.cons_append, List.map_cons, scan_name_inside h, ih hrest (t :: ls)]
      simp [(ne_marks_of_name h).1]

theorem Spells.scan_eq {s : String} {ts : List String} {p : Plan} (h : Spells ts p)
    (done : List Group) : scan s (ts.map .str) done none = .ok (done.reverse ++ p) := by
  induction h generalizing done with
  | nil => simp [scan]
  | skip ht _ ih =>
    rcases ht with ht | rfl
    · rw [List.map_cons, scan_blank ht, ih]
    · rw [List.map_cons, scan_sep_outside, ih]
  | single ht _ ih =>
    rw [List.map_cons, scan_name_outside ht, ih]
    simp
  | group hb _ ih =>
    rw [List.map_cons, scan_open_outside, scan_group hb, ih]
    simp

/-- What the scan answers the grammar spells. From outside a group the texts spell the rest of
the answer; from inside one, the group closes at a bracket after blanks and names, and the texts
after it spell the rest. -/
theorem spells_of_scan (s : String) (ts : List String) :
    (∀ done p, scan s (ts.map .str) done none = .ok p → ∃ q, Spells ts q ∧ p = done.reverse ++ q) ∧
    (∀ done ls p, scan s (ts.map .str) done (some ls) = .ok p → ∃ body rest q,
      ts = body ++ "]" :: rest ∧ (∀ t ∈ body, blankItem t = true ∨ nameItem t = true) ∧
      Spells rest q ∧
      p = done.reverse ++ ⟨ls.reverse ++ body.filter (fun t => !blankItem t), true⟩ :: q) := by
  induction ts with
  | nil =>
    refine ⟨fun done p h => ⟨[], .nil, ?_⟩, fun done ls p h => ?_⟩
    · cases h
      simp
    · cases h
  | cons t ts ih =>
    obtain ⟨ihOut, ihIn⟩ := ih
    refine ⟨fun done p h => ?_, fun done ls p h => ?_⟩
    · -- outside a group
      rw [List.map_cons] at h
      rcases item_cases t with ht | rfl | rfl | rfl | ht
      · rw [scan_blank ht] at h
        obtain ⟨q, hq, rfl⟩ := ihOut done p h
        exact ⟨q, .skip (.inl ht) hq, rfl⟩
      · rw [scan_sep_outside] at h
        obtain ⟨q, hq, rfl⟩ := ihOut done p h
        exact ⟨q, .skip (.inr rfl) hq, rfl⟩
      · rw [scan_open_outside] at h
        obtain ⟨body, rest, q, rfl, hb, hq, rfl⟩ := ihIn done [] p h
        exact ⟨_, .group hb hq, by simp⟩
      · rw [scan_close_outside] at h
        cases h
      · rw [scan_name_outside ht] at h
        obtain ⟨q, hq, rfl⟩ := ihOut _ p h
        exact ⟨_, .single ht hq, by simp⟩
    · -- inside a group
      rw [List.map_cons] at h
      rcases item_cases t with ht | rfl | rfl | rfl | ht
      · rw [scan_blank ht] at h
        obtain ⟨body, rest, q, rfl, hb, hq, rfl⟩ := ihIn done ls p h
        exact ⟨t :: body, rest, q, rfl, List.forall_mem_cons.2 ⟨.inl ht, hb⟩, hq, by simp [ht]⟩
      · rw [scan_sep_inside] at h
        cases h
      · rw [scan_open_inside] at h
        cases h
      · rw [scan_close_inside] at h
        obtain ⟨q, hq, rfl⟩ := ihOut _ p h
        exact ⟨[], ts, q, rfl, by simp, hq, by simp⟩
      · rw [scan_name_inside ht] at h
        obtain ⟨body, rest, q, rfl, hb, hq, rfl⟩ := ihIn done (t :: ls) p h
        exact ⟨t :: body, rest, q, rfl, List.forall_mem_cons.2 ⟨.inr ht, hb⟩, hq,
          by simp [(ne_marks_of_name ht).1]⟩

/-- The names of a spelled plan, in order, are the names among the texts. -/
theorem Spells.letters {ts : List String} {p : Plan} (h : Spells ts p) :
    p.flatMap Group.letters = ts.filter nameItem := by
  induction h with
  | nil => rfl
  | @skip t ts p ht _ ih =>
    have hn : nameItem t = false := by
      rcases ht with ht | rfl
      · simp [nameItem, ht]
      · decide
    rw [List.filter_cons_of_neg (by simp [hn]), ih]
  | single ht _ ih => simp [ht, ih]
  | @group body ts p hb _ ih =>
    have hbody : body.filter (fun t => !blankItem t) = body.filter nameItem := by
      refine List.filter_congr (fun t ht => ?_)
      rcases hb t ht with h | h
      · simp [h, nameItem]
      · simp [h, (ne_marks_of_name h).1]
    have hopen : nameItem "[" = false := by decide
    have hclose : nameItem "]" = false := by decide
    simp [List.filter_append, hbody, ih, hopen, hclose]

/-! ## The plan of a technique string -/

theorem parse_eq_scan (s : String) : parse s = scan s ((Text.characters s).map .str) [] none := by
  rw [parse, Datum.textItems_eq_characters]

/-- **Technique strings accept exactly their grammar.** A technique string fails to parse exactly
when a scan tracking whether it is inside a group meets a fault, and then with the first fault
met, as a validation error. Otherwise it answers the plan its characters spell, and the names of
that plan, in order, are its characters less blanks, `#`, `[` and `]`. -/
theorem parse_accepts_exactly_its_grammar (s : String) :
    (∀ f, parse s = .error f ↔
      ∃ c, firstFault s false (Text.characters s) = some c ∧ f = ⟨.validation, c⟩) ∧
    (∀ p, parse s = .ok p ↔ Spells (Text.characters s) p) ∧
    (∀ p, parse s = .ok p → p.flatMap Group.letters = (Text.characters s).filter nameItem) := by
  have hspells : ∀ p, parse s = .ok p ↔ Spells (Text.characters s) p := by
    intro p
    rw [parse_eq_scan]
    constructor
    · intro h
      obtain ⟨q, hq, rfl⟩ := (spells_of_scan s _).1 [] p h
      simpa using hq
    · intro h
      simpa using h.scan_eq (s := s) []
  refine ⟨fun f => ?_, hspells, fun p h => ((hspells p).1 h).letters⟩
  obtain ⟨p, hp⟩ := scan_firstFault s (Text.characters s) [] none
  rw [Option.isSome_none] at hp
  rw [parse_eq_scan, hp]
  cases hc : firstFault s false (Text.characters s) with
  | none => simp
  | some c => simp [refuse, firstFault_fail hc, eq_comm]

example : (parse "u [b s]#v").toOption =
    some [⟨["u"], false⟩, ⟨["b", "s"], true⟩, ⟨["v"], false⟩] := by decide +kernel

example : parse "[u[s]]" = refuse (.nestedGroup "[u[s]]") := rfl

end Plan

end MaxSatPrep
