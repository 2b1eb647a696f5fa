import MaxSatPrep.Error
/-!
Sorting with a comparison that may fail, comparing exactly as the language's list sort does: an
adaptive, stable merge sort. The list is cut into runs from left to right. A run is the longest
front that does not descend, or that descends strictly and is then reversed; a run shorter than
the least run length (`minRun`) is lengthened by inserting the items after it one at a time, each
placed by a binary search after all items it is not less than. Runs wait on a stack and are
merged as their powers say (the depth of the boundary between two runs in a balanced merge
tree); a merge first gallops (searches in strides 1, 3, 7, …) to skip the items already in
place, then merges from the shorter side, switching to galloping while one side keeps winning.
The first comparison that fails is the failure of the sort. When every comparison succeeds and
they order the items consistently, the result is the stable sort of the list.
-/

namespace MaxSatPrep

namespace Sorting

variable {α : Type}

/-- the number of items after `prev` that keep descending strictly -/
def descending (lt : α → α → Outcome Bool) (prev : α) : List α → Outcome Nat
  | [] => .ok 0
  | x :: xs => do if ← lt x prev then pure ((← descending lt x xs) + 1) else pure 0

/-- the number of items after `prev` that do not descend -/
def ascending (lt : α → α → Outcome Bool) (prev : α) : List α → Outcome Nat
  | [] => .ok 0
  | x :: xs => do if ← lt x prev then pure 0 else pure ((← ascending lt x xs) + 1)

/-- the length of the run at the front, and whether it descends strictly -/
def frontRun (lt : α → α → Outcome Bool) : List α → Outcome (Nat × Bool)
  | [] => .ok (0, false)
  | [_] => .ok (1, false)
  | a :: b :: rest => do
    if ← lt b a then pure ((← descending lt b rest) + 2, true)
    else pure ((← ascending lt b rest) + 2, false)

/-- The place of `pivot` among the sorted items between `lo` and `hi`: after every item it is
not less than. `fuel` bounds the halvings. -/
def placeOf (lt : α → α → Outcome Bool) (sorted : List α) (pivot : α) :
    Nat → Nat → Nat → Outcome Nat
  | 0, lo, _ => .ok lo
  | fuel + 1, lo, hi =>
    if lo < hi then do
      let mid := lo + (hi - lo) / 2
      if ← lt pivot (sorted.getD mid pivot) then placeOf lt sorted pivot fuel lo mid
      else placeOf lt sorted pivot fuel (mid + 1) hi
    else .ok lo

/-- inserts an item into sorted items at its place -/
def insertSorted (lt : α → α → Outcome Bool) (sorted : List α) (x : α) : Outcome (List α) := do
  let i ← placeOf lt sorted x (sorted.length + 1) 0 sorted.length
  pure (sorted.take i ++ x :: sorted.drop i)

/-- Binary search for the first place between `lo` and `hi` where `goesLeft` holds, when it
fails before that place and holds from it on. `fuel` bounds the halvings. -/
def narrow (goesLeft : Nat → Outcome Bool) : Nat → Nat → Nat → Outcome Nat
  | 0, lo, _ => .ok lo
  | fuel + 1, lo, hi =>
    if lo < hi then do
      let mid := lo + (hi - lo) / 2
      if ← goesLeft mid then narrow goesLeft fuel lo mid else narrow goesLeft fuel (mid + 1) hi
    else .ok lo

/-- The offsets 1, 3, 7, 15, … below `limit` while `probe` holds at them: the last offset where
it held (0 when none) and the first where it did not, at most `limit`. The offsets grow, so
`limit + 1` steps of fuel are enough. -/
def stride (probe : Nat → Outcome Bool) (limit : Nat) : Nat → Nat → Nat → Outcome (Nat × Nat)
  | 0, last, ofs => .ok (last, min ofs limit)
  | fuel + 1, last, ofs =>
    if ofs < limit then do
      if ← probe ofs then stride probe limit fuel ofs (2 * ofs + 1) else pure (last, min ofs limit)
    else .ok (last, min ofs limit)

/-- The place of `key` among the sorted items `a`, before every item it is not greater than,
searched in strides from `hint` outwards and then by halving. -/
def gallopLeft (lt : α → α → Outcome Bool) (key : α) (a : Array α) (hint : Nat) : Outcome Nat := do
  let item := fun i => a.getD i key
  let fuel := a.size + 1
  if ← lt (item hint) key then
    let (last, ofs) ← stride (fun o => lt (item (hint + o)) key) (a.size - hint) fuel 0 1
    narrow (fun m => do pure !(← lt (item m) key)) fuel (hint + last + 1) (hint + ofs)
  else
    let (last, ofs) ← stride (fun o => do pure !(← lt (item (hint - o)) key)) (hint + 1) fuel 0 1
    narrow (fun m => do pure !(← lt (item m) key)) fuel (hint + 1 - ofs) (hint - last)

/-- The place of `key` among the sorted items `a`, after every item it is not less than,
searched in strides from `hint` outwards and then by halving. -/
def gallopRight (lt : α → α → Outcome Bool) (key : α) (a : Array α) (hint : Nat) : Outcome Nat := do
  let item := fun i => a.getD i key
  let fuel := a.size + 1
  if ← lt key (item hint) then
    let (last, ofs) ← stride (fun o => lt key (item (hint - o))) (hint + 1) fuel 0 1
    narrow (fun m => lt key (item m)) fuel (hint + 1 - ofs) (hint - last)
  else
    let (last, ofs) ← stride (fun o => do pure !(← lt key (item (hint + o)))) (a.size - hint) fuel 0 1
    narrow (fun m => lt key (item m)) fuel (hint + last + 1) (hint + ofs)

/-- how many times one side must win in a row before a merge starts galloping -/
def minGallop : Nat := 7

/-- the items of `a` from `i` to its end -/
def tail (a : Array α) (i : Nat) : Array α := a.extract i a.size

/-- A merge from the front ends: what is merged, the rest of the first run, the rest of the
second. -/
def frontDone (a b out : Array α) (ia ib : Nat) : Array α := out ++ tail a ia ++ tail b ib

/-- A merge from the front ends with one item of the first run left, which goes last. -/
def frontLast (a b out : Array α) (ia ib : Nat) : Array α := out ++ tail b ib ++ tail a ia

/-- Merges the sorted runs `a` and `b` from the front, `a` having at least two items left and
`b` at least one: `out` holds what is merged, `ia` and `ib` are the next items, `gallop` the
wins in a row that start galloping; `galloping` says whether a round of galloping is next,
and `wa`, `wb` count the wins in a row of either side. Each step moves an item, so the sum of
the lengths is enough fuel. Returns the merged items and the new galloping threshold. -/
def mergeFront (lt : α → α → Outcome Bool) (a b : Array α) :
    Nat → Nat → Nat → Array α → Nat → Bool → Nat → Nat → Outcome (Array α × Nat)
  | 0, ia, ib, out, gallop, _, _, _ => .ok (frontDone a b out ia ib, gallop)
  | fuel + 1, ia, ib, out, gallop, false, wa, wb =>
    match a[ia]?, b[ib]? with
    | some x, some y => do
      if ← lt y x then
        let out := out.push y
        if ib + 1 == b.size then pure (frontDone a b out ia (ib + 1), gallop)
        else if gallop ≤ wb + 1 then mergeFront lt a b fuel ia (ib + 1) out (gallop + 1) true 0 0
        else mergeFront lt a b fuel ia (ib + 1) out gallop false 0 (wb + 1)
      else
        let out := out.push x
        if ia + 2 == a.size then pure (frontLast a b out (ia + 1) ib, gallop)
        else if gallop ≤ wa + 1 then mergeFront lt a b fuel (ia + 1) ib out (gallop + 1) true 0 0
        else mergeFront lt a b fuel (ia + 1) ib out gallop false (wa + 1) 0
    | _, _ => .ok (frontDone a b out ia ib, gallop)
  | fuel + 1, ia, ib, out, gallop, true, _, _ =>
    match b[ib]? with
    | none => .ok (frontDone a b out ia ib, gallop)
    | some y => do
      let gallop := if 1 < gallop then gallop - 1 else gallop
      let k ← gallopRight lt y (tail a ia) 0
      let out := out ++ a.extract ia (ia + k)
      let ia := ia + k
      if 0 < k && ia + 1 == a.size then return (frontLast a b out ia ib, gallop)
      if 0 < k && ia == a.size then return (frontDone a b out ia ib, gallop)
      let out := out.push y
      let ib := ib + 1
      if ib == b.size then return (frontDone a b out ia ib, gallop)
      match a[ia]? with
      | none => pure (frontDone a b out ia ib, gallop)
      | some x =>
        let j ← gallopLeft lt x (tail b ib) 0
        let out := out ++ b.extract ib (ib + j)
        let ib := ib + j
        if 0 < j && ib == b.size then return (frontDone a b out ia ib, gallop)
        let out := out.push x
        let ia := ia + 1
        if ia + 1 == a.size then return (frontLast a b out ia ib, gallop)
        if minGallop ≤ k || minGallop ≤ j then
          mergeFront lt a b fuel ia ib out gallop true 0 0
        else mergeFront lt a b fuel ia ib out (gallop + 1) false 0 0

/-- Merges two sorted runs from the front, the first no longer than the second. -/
def mergeLow (lt : α → α → Outcome Bool) (a b : Array α) (gallop : Nat) :
    Outcome (Array α × Nat) :=
  match b[0]? with
  | none => .ok (a, gallop)
  | some y =>
    let out := #[y]
    if b.size == 1 then .ok (frontDone a b out 0 1, gallop)
    else if a.size == 1 then .ok (frontLast a b out 0 1, gallop)
    else mergeFront lt a b (2 * (a.size + b.size) + 2) 0 1 out gallop false 0 0

/-- A merge from the back ends: the rest of the first run, the rest of the second, then what is
merged. -/
def backDone (a b : Array α) (na nb : Nat) (out : List α) : Array α :=
  a.extract 0 na ++ b.extract 0 nb ++ out.toArray

/-- A merge from the back ends with one item of the second run left, which goes first. -/
def backFirst (a b : Array α) (na nb : Nat) (out : List α) : Array α :=
  b.extract 0 nb ++ a.extract 0 na ++ out.toArray

/-- Merges the sorted runs `a` and `b` from the back, `a` having at least one item left and `b`
at least two: `out` holds what is merged, `na` and `nb` count the items left at the fronts; the
other arguments are those of `mergeFront`. -/
def mergeBack (lt : α → α → Outcome Bool) (a b : Array α) :
    Nat → Nat → Nat → List α → Nat → Bool → Nat → Nat → Outcome (Array α × Nat)
  | 0, na, nb, out, gallop, _, _, _ => .ok (backDone a b na nb out, gallop)
  | fuel + 1, na + 1, nb + 1, out, gallop, false, wa, wb =>
    match a[na]?, b[nb]? with
    | some x, some y => do
      if ← lt y x then
        let out := x :: out
        if na == 0 then pure (backDone a b 0 (nb + 1) out, gallop)
        else if gallop ≤ wa + 1 then mergeBack lt a b fuel na (nb + 1) out (gallop + 1) true 0 0
        else mergeBack lt a b fuel na (nb + 1) out gallop false (wa + 1) 0
      else
        let out := y :: out
        if nb == 1 then pure (backFirst a b (na + 1) nb out, gallop)
        else if gallop ≤ wb + 1 then mergeBack lt a b fuel (na + 1) nb out (gallop + 1) true 0 0
        else mergeBack lt a b fuel (na + 1) nb out gallop false 0 (wb + 1)
    | _, _ => .ok (backDone a b (na + 1) (nb + 1) out, gallop)
  | fuel + 1, na + 1, nb + 1, out, gallop, true, _, _ =>
    match b[nb]? with
    | none => .ok (backDone a b (na + 1) (nb + 1) out, gallop)
    | some y => do
      let gallop := if 1 < gallop then gallop - 1 else gallop
      let place ← gallopRight lt y (a.extract 0 (na + 1)) na
      let k := na + 1 - place
      let out := (a.extract place (na + 1)).toList ++ out
      let na := place
      if 0 < k && na == 0 then return (backDone a b na (nb + 1) out, gallop)
      let out := y :: out
      if nb == 1 then return (backFirst a b na nb out, gallop)
      match a[na - 1]? with
      | none => pure (backDone a b na nb out, gallop)
      | some x =>
        let place ← gallopLeft lt x (b.extract 0 nb) (nb - 1)
        let j := nb - place
        let out := (b.extract place nb).toList ++ out
        let nb := place
        if 0 < j && nb == 1 then return (backFirst a b na nb out, gallop)
        if 0 < j && nb == 0 then return (backDone a b na nb out, gallop)
        let out := x :: out
        let na := na - 1
        if na == 0 then return (backDone a b na nb out, gallop)
        if minGallop ≤ k || minGallop ≤ j then
          mergeBack lt a b fuel na nb out gallop true 0 0
        else mergeBack lt a b fuel na nb out (gallop + 1) false 0 0
  | _ + 1, na, nb, out, gallop, _, _, _ => .ok (backDone a b na nb out, gallop)

/-- Merges two sorted runs from the back, the first longer than the second. -/
def mergeHigh (lt : α → α → Outcome Bool) (a b : Array α) (gallop : Nat) :
    Outcome (Array α × Nat) :=
  match a.back? with
  | none => .ok (b, gallop)
  | some x =>
    let out := [x]
    let na := a.size - 1
    if na == 0 then .ok (backDone a b 0 b.size out, gallop)
    else if b.size == 1 then .ok (backFirst a b na 1 out, gallop)
    else mergeBack lt a b (2 * (a.size + b.size) + 2) na b.size out gallop false 0 0

/-- Merges the adjacent sorted runs of `len1` and `len2` items from `base` in `xs`. The items of
the first run not greater than the first of the second, and those of the second not less than
the last of the first, are already in place; the rest is merged from its shorter side. -/
def mergeRuns (lt : α → α → Outcome Bool) (xs : Array α) (base len1 len2 gallop : Nat) :
    Outcome (Array α × Nat) := do
  let a := xs.extract base (base + len1)
  let b := xs.extract (base + len1) (base + len1 + len2)
  match b[0]? with
  | none => pure (xs, gallop)
  | some y =>
    let k ← gallopRight lt y a 0
    let a := a.extract k a.size
    match a.back? with
    | none => pure (xs, gallop)
    | some x =>
      let n2 ← gallopLeft lt x b (b.size - 1)
      if n2 == 0 then return (xs, gallop)
      let b := b.extract 0 n2
      let (merged, gallop) ← if a.size ≤ b.size then mergeLow lt a b gallop
        else mergeHigh lt a b gallop
      pure (xs.extract 0 (base + k) ++ merged ++ xs.extract (base + len1 + n2) xs.size, gallop)

/-- a run waiting to be merged: where it starts, its length and its power -/
structure Run where
  base : Nat
  len : Nat
  power : Nat

/-- Bit by bit, the binary fractions `a / n` and `b / n` up to the first bit where they differ;
the number of bits read. Their difference doubles at every bit and stays below `n`, so `n`
steps of fuel are enough. -/
def powerBits (n : Nat) : Nat → Nat → Nat → Nat → Nat
  | 0, _, _, bits => bits
  | fuel + 1, a, b, bits =>
    if n ≤ a then powerBits n fuel (2 * (a - n)) (2 * (b - n)) (bits + 1)
    else if n ≤ b then bits + 1
    else powerBits n fuel (2 * a) (2 * b) (bits + 1)

/-- The power of the run of `n1` items from `s1` followed by a run of `n2` items, in a list of
`n` items: the first bit where the midpoints of the two runs, as fractions of `n`, differ. -/
def power (s1 n1 n2 n : Nat) : Nat :=
  powerBits n (n + 1) (2 * s1 + n1) (2 * s1 + n1 + n1 + n2) 0

/-- merges the two runs on top of the stack (the top one last in the list) -/
def mergeTop (lt : α → α → Outcome Bool) (xs : Array α) (runs : List Run) (gallop : Nat) :
    Outcome (Array α × List Run × Nat) :=
  match runs with
  | r0 :: r1 :: rest => do
    let (xs, gallop) ← mergeRuns lt xs r1.base r1.len r0.len gallop
    pure (xs, { r1 with len := r1.len + r0.len } :: rest, gallop)
  | _ => .ok (xs, runs, gallop)

/-- merges the second and third runs from the top of the stack -/
def mergeBelowTop (lt : α → α → Outcome Bool) (xs : Array α) (runs : List Run) (gallop : Nat) :
    Outcome (Array α × List Run × Nat) :=
  match runs with
  | r0 :: r1 :: r2 :: rest => do
    let (xs, gallop) ← mergeRuns lt xs r2.base r2.len r1.len gallop
    pure (xs, r0 :: { r2 with len := r2.len + r1.len } :: rest, gallop)
  | _ => .ok (xs, runs, gallop)

/-- Merges the top runs while the run below the top has a greater power than `p`. Each merge
shortens the stack, so its length is enough fuel. -/
def settle (lt : α → α → Outcome Bool) (p : Nat) :
    Nat → Array α → List Run → Nat → Outcome (Array α × List Run × Nat)
  | 0, xs, runs, gallop => .ok (xs, runs, gallop)
  | fuel + 1, xs, runs, gallop =>
    match runs with
    | _ :: r1 :: _ =>
      if p < r1.power then do
        let (xs, runs, gallop) ← mergeTop lt xs runs gallop
        settle lt p fuel xs runs gallop
      else .ok (xs, runs, gallop)
    | _ => .ok (xs, runs, gallop)

/-- Before a new run of `len` items is pushed: the power of the top run is set, after merging
the runs below it of greater power. -/
def foundRun (lt : α → α → Outcome Bool) (n len : Nat) (xs : Array α) (runs : List Run)
    (gallop : Nat) : Outcome (Array α × List Run × Nat) :=
  match runs with
  | [] => .ok (xs, runs, gallop)
  | r0 :: _ => do
    let p := power r0.base r0.len len n
    let (xs, runs, gallop) ← settle lt p runs.length xs runs gallop
    match runs with
    | top :: rest => pure (xs, { top with power := p } :: rest, gallop)
    | [] => pure (xs, [], gallop)

/-- Merges all runs of the stack, each time the top two unless the third is shorter than the
top one. -/
def collapse (lt : α → α → Outcome Bool) :
    Nat → Array α → List Run → Nat → Outcome (Array α × List Run × Nat)
  | 0, xs, runs, gallop => .ok (xs, runs, gallop)
  | fuel + 1, xs, runs, gallop =>
    match runs with
    | r0 :: _ :: r2 :: _ => do
      let (xs, runs, gallop) ← if r2.len < r0.len then mergeBelowTop lt xs runs gallop
        else mergeTop lt xs runs gallop
      collapse lt fuel xs runs gallop
    | _ :: _ :: _ => do
      let (xs, runs, gallop) ← mergeTop lt xs runs gallop
      collapse lt fuel xs runs gallop
    | _ => .ok (xs, runs, gallop)

/-- The least length of a run in a list of `n` items: `n` halved until below 64, plus one when
a halving dropped a one bit. -/
def minRun (n : Nat) : Nat :=
  go n n false
where
  /-- halves while at least 64, remembering a dropped one bit -/
  go : Nat → Nat → Bool → Nat
    | 0, m, odd => m + (if odd then 1 else 0)
    | fuel + 1, m, odd =>
      if 64 ≤ m then go fuel (m / 2) (odd || m % 2 == 1) else m + (if odd then 1 else 0)

/-- items `lo` to `hi` of `xs` replaced by `ys` -/
def splice (xs : Array α) (lo hi : Nat) (ys : Array α) : Array α :=
  xs.extract 0 lo ++ ys ++ xs.extract hi xs.size

/-- Cuts the items of `xs` from `lo` into runs, lengthened to `least` items where shorter,
merging the stack as each run is found. Each run has an item, so the length is enough fuel. -/
def cutRuns (lt : α → α → Outcome Bool) (least : Nat) :
    Nat → Nat → Array α → List Run → Nat → Outcome (Array α × List Run × Nat)
  | 0, _, xs, runs, gallop => .ok (xs, runs, gallop)
  | fuel + 1, lo, xs, runs, gallop =>
    if lo < xs.size then do
      let (k, down) ← frontRun lt (xs.extract lo xs.size).toList
      let xs := if down then splice xs lo (lo + k) (xs.extract lo (lo + k)).reverse else xs
      let (xs, k) ← if k < least then do
          let force := min (xs.size - lo) least
          let seg := (xs.extract lo (lo + force)).toList
          let sorted ← (seg.drop k).foldlM (insertSorted lt) (seg.take k)
          pure (splice xs lo (lo + force) sorted.toArray, force)
        else pure (xs, k)
      let (xs, runs, gallop) ← foundRun lt xs.size k xs runs gallop
      cutRuns lt least fuel (lo + k) xs ({ base := lo, len := k, power := 0 } :: runs) gallop
    else .ok (xs, runs, gallop)

/-- the items in order, or the first failing comparison -/
def sort (lt : α → α → Outcome Bool) (xs : List α) : Outcome (List α) :=
  match xs with
  | [] => .ok []
  | [x] => .ok [x]
  | _ => do
    let arr := xs.toArray
    let (arr, runs, gallop) ← cutRuns lt (minRun arr.size) (arr.size + 1) 0 arr [] minGallop
    let (arr, _, _) ← collapse lt (runs.length + 1) arr runs gallop
    pure arr.toList

theorem sort_nil (lt : α → α → Outcome Bool) : sort lt [] = .ok [] := rfl

end Sorting

end MaxSatPrep
