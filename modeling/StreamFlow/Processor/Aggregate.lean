import StreamFlow.Foundation.Grouping
import StreamFlow.Processor.Timed

/-!
# Grouped aggregates

`AggregateOperator` and `AggregateFuncsOperator` of `op.go`. The values of a record are told apart
by their dynamic type. The text of a value in `fmt.Sprintf` and the arithmetic of `float64` are
parameters: the sums and averages are what these operations make of the numbers in the order in
which they arrive.

`AggregateFuncsOperator` keeps two maps of maps, `sums` and `counts`, both by group and alias, and
merges them into the map it emits. `getElem?_groups` and `getElem?_renderGroup_groupAcc` say what
the operator shows under an alias of a group in terms of the records of the group alone:
`numbers` are those that the sums and averages under this alias find in the records, and `hits`
counts how often the count of the alias goes up.
-/

namespace StreamFlow.Processor

open Grouping

/-- A value of a record: an `int`, a `float64`, a string, or one of another type. -/
inductive Value (φ ω : Type) where
  | int (n : ℤ)
  | float64 (x : φ)
  | string (s : String)
  | other (o : ω)
deriving DecidableEq

/-- `fmt.Sprintf("%v", …)` for a `float64` and for the values of other types. -/
structure Sprintf (φ ω : Type) where
  float64 : φ → String
  other : ω → String

/-- The arithmetic of `float64` that the aggregates use; `div x n` divides by `float64(n)`. -/
structure FloatOps (φ α : Type) where
  zero : α
  ofInt : ℤ → α
  ofFloat : φ → α
  add : α → α → α
  div : α → ℕ → α

variable {φ ω α : Type}

/-- The text of a value in the name of a group. -/
def Value.text (fmt : Sprintf φ ω) : Value φ ω → String
  | int n => toString n
  | float64 x => fmt.float64 x
  | string s => s
  | other o => fmt.other o

/-- The number that a switch on the types `int` and `float64` finds. -/
def Value.number : Value φ ω → Option (ℤ ⊕ φ)
  | int n => some (.inl n)
  | float64 x => some (.inr x)
  | string _ => none
  | other _ => none

def FloatOps.ofNumber (F : FloatOps φ α) : ℤ ⊕ φ → α := Sum.elim F.ofInt F.ofFloat

/-- Numbers added one after the other, from zero. -/
def FloatOps.total (F : FloatOps φ α) (ns : List (ℤ ⊕ φ)) : α :=
  ns.foldl (fun sum n => F.add sum (F.ofNumber n)) F.zero

/-- What an aggregate shows under an alias, a `float64` or an `int`. -/
inductive AggValue (α : Type) where
  | float64 (x : α)
  | int (n : ℕ)
deriving DecidableEq

/-- The value of the one field of a record that an aggregate emits. -/
inductive Aggregated (α : Type) where
  | counts (m : OrdMap String ℕ)
  | groups (m : OrdMap String (OrdMap String (AggValue α)))

/-- `Record{name: x}`. -/
def recordOf {β : Type} (name : String) (x : β) : Record β :=
  some ((∅ : OrdMap String β).insert name x)

theorem recordOf_injective {β : Type} (name : String) :
    Function.Injective (recordOf name : β → Record β) := by
  intro x y h
  have hget := congrArg (fun m : OrdMap String β => m[name]?) (Option.some.inj h)
  simpa using hget

/-! ### Counts by group -/

structure AggregateOperator where
  key : String

namespace AggregateOperator

/-- The text under which a record is counted, if it has the key. -/
def countedAs (a : AggregateOperator) (fmt : Sprintf φ ω) (r : Record (Value φ ω)) :
    Option String :=
  ((fields r)[a.key]?).map (Value.text fmt)

/-- The body of the loop in `AggregateOperator.Process`. -/
def count (a : AggregateOperator) (fmt : Sprintf φ ω) (counts : OrdMap String ℕ)
    (r : Record (Value φ ω)) : OrdMap String ℕ :=
  match a.countedAs fmt r with
  | some s => counts.insert s ((counts[s]?).getD 0 + 1)
  | none => counts

def counts (a : AggregateOperator) (fmt : Sprintf φ ω) (input : List (Record (Value φ ω))) :
    OrdMap String ℕ :=
  input.foldl (a.count fmt) ∅

/-- `AggregateOperator.Process`: what it emits for the records of its input. -/
def process (a : AggregateOperator) (fmt : Sprintf φ ω) (input : List (Record (Value φ ω))) :
    List (Record (Aggregated α)) :=
  [recordOf "counts" (.counts (a.counts fmt input))]

/-- The count of a text is the number of records that are counted as it. -/
theorem getElem?_counts (a : AggregateOperator) (fmt : Sprintf φ ω)
    (input : List (Record (Value φ ω))) (g : String) :
    (a.counts fmt input)[g]? =
      countEntry (input.filter fun r => a.countedAs fmt r = some g).length := by
  have hlook : ∀ (counts : OrdMap String ℕ) (r : Record (Value φ ω)), (a.count fmt counts r)[g]? =
      if decide (a.countedAs fmt r = some g) then some ((counts[g]?).getD 0 + 1)
      else counts[g]? := by
    intro counts r
    rw [count]
    cases hr : a.countedAs fmt r with
    | none => simp
    | some s =>
        simp only [OrdMap.getElem?_insert, Option.some.injEq, decide_eq_true_eq]
        split
        · next hs => rw [hs]
        · rfl
  rw [counts, foldl_look (fun m : OrdMap String ℕ => m[g]?)
    (fun r => decide (a.countedAs fmt r = some g)) (fun o _ => some (o.getD 0 + 1)) hlook,
    Std.ExtTreeMap.getElem?_empty, foldl_count]

end AggregateOperator

/-! ### Sums, averages and counts by group and alias -/

structure AggSpec where
  func : String
  field : String
  aliasName : String
deriving DecidableEq

namespace AggSpec

/-- The alias of an aggregate, or its function and field if it has none. -/
def effectiveAlias (spec : AggSpec) : String :=
  if spec.aliasName = "" then spec.func ++ "_" ++ spec.field else spec.aliasName

/-- The number that a sum or an average finds in a record. -/
def numberIn (spec : AggSpec) (r : Record (Value φ ω)) : Option (ℤ ⊕ φ) :=
  if spec.func = "sum" ∨ spec.func = "avg" then ((fields r)[spec.field]?).bind Value.number
  else none

/-- A record raises the count of the alias. -/
def hits (spec : AggSpec) (r : Record (Value φ ω)) : Bool :=
  spec.func = "count" || (spec.numberIn r).isSome

variable {spec : AggSpec}

theorem numberIn_of_count (h : spec.func = "count") (r : Record (Value φ ω)) :
    spec.numberIn r = none := by
  rw [numberIn, h, if_neg (by decide)]

/-- Every record is a hit of a count. -/
theorem filter_hits_of_count (h : spec.func = "count") (rs : List (Record (Value φ ω))) :
    rs.filter spec.hits = rs := by
  refine List.filter_eq_self.mpr fun r _ => ?_
  rw [hits, h]
  rfl

/-- The hits of the other functions are the records with a number. -/
theorem length_filter_hits_of_ne_count (h : spec.func ≠ "count")
    (rs : List (Record (Value φ ω))) :
    (rs.filter spec.hits).length = (rs.filterMap spec.numberIn).length := by
  rw [List.length_filterMap_eq_countP, List.countP_eq_length_filter]
  congr 2
  funext r
  rw [hits, decide_eq_false h, Bool.false_or]

end AggSpec

/-- The maps `sums[g]` and `counts[g]` of a group. -/
structure GroupAcc (α : Type) where
  sums : OrdMap String α
  counts : OrdMap String ℕ

namespace GroupAcc

def empty : GroupAcc α := ⟨∅, ∅⟩

/-- `counts[g][alias]++`. -/
def count (acc : GroupAcc α) (al : String) : GroupAcc α :=
  { acc with counts := acc.counts.insert al ((acc.counts[al]?).getD 0 + 1) }

/-- `sums[g][alias] += x`. -/
def add (F : FloatOps φ α) (acc : GroupAcc α) (al : String) (x : α) : GroupAcc α :=
  { acc with sums := acc.sums.insert al (F.add ((acc.sums[al]?).getD F.zero) x) }

end GroupAcc

/-- The body of the loop over the specs. -/
def accumulateSpec (F : FloatOps φ α) (r : Record (Value φ ω)) (acc : GroupAcc α)
    (spec : AggSpec) : GroupAcc α :=
  let al := spec.effectiveAlias
  if spec.func = "count" then acc.count al
  else if spec.func = "sum" ∨ spec.func = "avg" then
    match ((fields r)[spec.field]?).bind Value.number with
    | some n => (acc.add F al (F.ofNumber n)).count al
    | none => acc
  else acc

structure AggState (α : Type) where
  sums : OrdMap String (OrdMap String α)
  counts : OrdMap String (OrdMap String ℕ)

namespace AggState

def empty : AggState α := ⟨∅, ∅⟩

/-- The maps of a group, if `sums` has it. -/
def group? (st : AggState α) (g : String) : Option (GroupAcc α) :=
  (st.sums[g]?).map fun s => ⟨s, (st.counts[g]?).getD ∅⟩

end AggState

/-- The group of a record: the text of its key, or the empty text. -/
def groupKey (fmt : Sprintf φ ω) (key : String) (r : Record (Value φ ω)) : String :=
  (((fields r)[key]?).map (Value.text fmt)).getD ""

/-- The body of the loop over the records. A new group gets empty maps; the maps of a group are
references, which the loop over the specs changes in place. -/
def accumulate (fmt : Sprintf φ ω) (F : FloatOps φ α) (key : String) (aggs : List AggSpec)
    (st : AggState α) (r : Record (Value φ ω)) : AggState α :=
  let g := groupKey fmt key r
  let acc := aggs.foldl (accumulateSpec F r) ((st.group? g).getD .empty)
  ⟨st.sums.insert g acc.sums, st.counts.insert g acc.counts⟩

/-- Some spec with this alias is an average. -/
def isAvg (aggs : List AggSpec) (al : String) : Bool :=
  aggs.any fun spec => spec.effectiveAlias = al && spec.func = "avg"

/-- What the loop over `sums[g]` shows for an alias. -/
def showSum (F : FloatOps φ α) (aggs : List AggSpec) (counts : OrdMap String ℕ) (al : String)
    (sum : α) : AggValue α :=
  let c := (counts[al]?).getD 0
  if c = 0 then .float64 sum
  else if isAvg aggs al then .float64 (F.div sum c)
  else .float64 sum

/-- `groups[g]`: first the sums and averages, then the counts of the other aliases. -/
def renderGroup (F : FloatOps φ α) (aggs : List AggSpec) (acc : GroupAcc α) :
    OrdMap String (AggValue α) :=
  let shown := OrdMap.insertAll ∅
    (acc.sums.toList.map fun e => (e.1, showSum F aggs acc.counts e.1 e.2))
  OrdMap.insertAll shown
    ((acc.counts.toList.filter fun e => (acc.sums[e.1]?).isNone).map fun e => (e.1, .int e.2))

/-- The map `groups` that is emitted. -/
def render (F : FloatOps φ α) (aggs : List AggSpec) (st : AggState α) :
    OrdMap String (OrdMap String (AggValue α)) :=
  OrdMap.insertAll ∅
    (st.sums.toList.map fun e => (e.1, renderGroup F aggs ⟨e.2, (st.counts[e.1]?).getD ∅⟩))

structure AggregateFuncsOperator where
  key : String
  aggs : List AggSpec

namespace AggregateFuncsOperator

def groups (a : AggregateFuncsOperator) (fmt : Sprintf φ ω) (F : FloatOps φ α)
    (input : List (Record (Value φ ω))) : OrdMap String (OrdMap String (AggValue α)) :=
  render F a.aggs (input.foldl (accumulate fmt F a.key a.aggs) .empty)

/-- `AggregateFuncsOperator.Process`: what it emits for the records of its input. -/
def process (a : AggregateFuncsOperator) (fmt : Sprintf φ ω) (F : FloatOps φ α)
    (input : List (Record (Value φ ω))) : List (Record (Aggregated α)) :=
  [recordOf "groups" (.groups (a.groups fmt F input))]

end AggregateFuncsOperator

/-! ### What is shown for a group -/

theorem getElem?_render (F : FloatOps φ α) (aggs : List AggSpec) (st : AggState α) (g : String) :
    (render F aggs st)[g]? = (st.group? g).map (renderGroup F aggs) := by
  rw [render, OrdMap.getElem?_insertAll_map ∅ st.sums
    (fun g s => renderGroup F aggs ⟨s, (st.counts[g]?).getD ∅⟩), Std.ExtTreeMap.getElem?_empty,
    Option.or_none, AggState.group?, Option.map_map]
  rfl

theorem getElem?_renderGroup (F : FloatOps φ α) (aggs : List AggSpec) (acc : GroupAcc α)
    (al : String) : (renderGroup F aggs acc)[al]? =
      ((acc.sums[al]?).map (showSum F aggs acc.counts al)).or
        ((acc.counts[al]?).map .int) := by
  rw [renderGroup, OrdMap.getElem?_insertAll_filter_map _ acc.counts
    (fun al => (acc.sums[al]?).isNone) AggValue.int, OrdMap.getElem?_insertAll_map,
    Std.ExtTreeMap.getElem?_empty, Option.or_none]
  cases acc.sums[al]? <;> simp

/-- A record changes only its own group. -/
theorem group?_accumulate (fmt : Sprintf φ ω) (F : FloatOps φ α) (key : String)
    (aggs : List AggSpec) (st : AggState α) (r : Record (Value φ ω)) (g : String) :
    (accumulate fmt F key aggs st r).group? g =
      if decide (groupKey fmt key r = g) then
        some (aggs.foldl (accumulateSpec F r) ((st.group? g).getD .empty))
      else st.group? g := by
  rw [accumulate, AggState.group?, AggState.group?]
  simp only [OrdMap.getElem?_insert, decide_eq_true_eq]
  split
  · next hg => simp [hg, AggState.group?]
  · rfl

/-- The records of a group. -/
def groupOf (fmt : Sprintf φ ω) (key g : String) (input : List (Record (Value φ ω))) :
    List (Record (Value φ ω)) :=
  input.filter fun r => groupKey fmt key r = g

/-- The maps of a group after the records of the group. -/
def groupAcc (F : FloatOps φ α) (aggs : List AggSpec) (rs : List (Record (Value φ ω))) :
    GroupAcc α :=
  rs.foldl (fun acc r => aggs.foldl (accumulateSpec F r) acc) .empty

theorem group?_foldl_accumulate (fmt : Sprintf φ ω) (F : FloatOps φ α) (key : String)
    (aggs : List AggSpec) (input : List (Record (Value φ ω))) (g : String) :
    (input.foldl (accumulate fmt F key aggs) .empty).group? g =
      if groupOf fmt key g input = [] then none
      else some (groupAcc F aggs (groupOf fmt key g input)) := by
  rw [foldl_look (fun st : AggState α => st.group? g) (fun r => decide (groupKey fmt key r = g))
    (fun o r => some (aggs.foldl (accumulateSpec F r) (o.getD .empty)))
    (fun st r => group?_accumulate fmt F key aggs st r g)]
  exact foldl_some_getD (fun acc r => aggs.foldl (accumulateSpec F r) acc) .empty _

/-- The numbers that the sums and averages under an alias find in records, in order. -/
def numbers (aggs : List AggSpec) (al : String) (rs : List (Record (Value φ ω))) :
    List (ℤ ⊕ φ) :=
  rs.flatMap fun r =>
    (aggs.filter fun spec => spec.effectiveAlias = al).filterMap fun spec => spec.numberIn r

/-- How often records raise the count of an alias. -/
def hits (aggs : List AggSpec) (al : String) (rs : List (Record (Value φ ω))) : ℕ :=
  (rs.flatMap fun r =>
    (aggs.filter fun spec => spec.effectiveAlias = al).filter fun spec => spec.hits r).length

theorem sums_accumulateSpec (F : FloatOps φ α) (r : Record (Value φ ω)) (acc : GroupAcc α)
    (spec : AggSpec) (al : String) : (accumulateSpec F r acc spec).sums[al]? =
      ((if spec.effectiveAlias = al then spec.numberIn r else none).map fun n =>
        some (F.add ((acc.sums[al]?).getD F.zero) (F.ofNumber n))).getD acc.sums[al]? := by
  rw [accumulateSpec, AggSpec.numberIn]
  by_cases hcount : spec.func = "count"
  · simp [hcount, GroupAcc.count]
  · rw [if_neg hcount]
    by_cases hsum : spec.func = "sum" ∨ spec.func = "avg"
    · simp only [hsum, if_true]
      cases ((fields r)[spec.field]?).bind Value.number with
      | none => simp
      | some n =>
          simp only [GroupAcc.count, GroupAcc.add, OrdMap.getElem?_insert]
          split
          · next hal => simp [hal]
          · rfl
    · simp [hsum]

theorem counts_accumulateSpec (F : FloatOps φ α) (r : Record (Value φ ω)) (acc : GroupAcc α)
    (spec : AggSpec) (al : String) : (accumulateSpec F r acc spec).counts[al]? =
      if decide (spec.effectiveAlias = al) && spec.hits r then some ((acc.counts[al]?).getD 0 + 1)
      else acc.counts[al]? := by
  have hcounts : ∀ acc' : GroupAcc α, (acc'.count spec.effectiveAlias).counts[al]? =
      if spec.effectiveAlias = al then some ((acc'.counts[al]?).getD 0 + 1)
      else acc'.counts[al]? := by
    intro acc'
    simp only [GroupAcc.count, OrdMap.getElem?_insert]
    split
    · next hal => rw [hal]
    · rfl
  rw [accumulateSpec, AggSpec.hits, AggSpec.numberIn]
  by_cases hcount : spec.func = "count"
  · simp [hcount, hcounts]
  · rw [if_neg hcount]
    by_cases hsum : spec.func = "sum" ∨ spec.func = "avg"
    · simp only [hsum, if_true]
      cases ((fields r)[spec.field]?).bind Value.number with
      | none => simp [hcount]
      | some n =>
          rw [hcounts, GroupAcc.add]
          simp
    · simp [hsum, hcount]

/-- The loop over the records and the specs as one loop. -/
theorem groupAcc_eq_foldl (F : FloatOps φ α) (aggs : List AggSpec)
    (rs : List (Record (Value φ ω))) :
    groupAcc F aggs rs = (rs.flatMap fun r => aggs.map fun spec => (r, spec)).foldl
      (fun acc e => accumulateSpec F e.1 acc e.2) .empty := by
  rw [groupAcc, List.foldl_flatMap]
  simp only [List.foldl_map]

theorem sums_groupAcc (F : FloatOps φ α) (aggs : List AggSpec) (rs : List (Record (Value φ ω)))
    (al : String) : (groupAcc F aggs rs).sums[al]? =
      if numbers aggs al rs = [] then none else some (F.total (numbers aggs al rs)) := by
  have hnumbers : ((rs.flatMap fun r => aggs.map fun spec => (r, spec)).filterMap fun e =>
      if e.2.effectiveAlias = al then e.2.numberIn e.1 else none) = numbers aggs al rs := by
    simp only [numbers, List.filterMap_flatMap, List.filterMap_map, List.filterMap_filter,
      decide_eq_true_eq, Function.comp_def]
  rw [groupAcc_eq_foldl, foldl_lookMap (fun acc : GroupAcc α => acc.sums[al]?) _
    (fun o n => some (F.add (o.getD F.zero) (F.ofNumber n)))
    (fun acc e => sums_accumulateSpec F e.1 acc e.2 al), hnumbers]
  exact foldl_some_getD (fun sum n => F.add sum (F.ofNumber n)) F.zero _

theorem counts_groupAcc (F : FloatOps φ α) (aggs : List AggSpec) (rs : List (Record (Value φ ω)))
    (al : String) : (groupAcc F aggs rs).counts[al]? = countEntry (hits aggs al rs) := by
  have hhits : ((rs.flatMap fun r => aggs.map fun spec => (r, spec)).filter fun e =>
      decide (e.2.effectiveAlias = al) && e.2.hits e.1).length = hits aggs al rs := by
    simp only [hits, List.filter_flatMap, List.filter_map, List.filter_filter, Function.comp_def,
      List.length_flatMap, List.length_map, Bool.and_comm]
  rw [groupAcc_eq_foldl, foldl_look (fun acc : GroupAcc α => acc.counts[al]?) _
    (fun o _ => some (o.getD 0 + 1)) (fun acc e => counts_accumulateSpec F e.1 acc e.2 al)]
  exact (foldl_count _).trans (congrArg countEntry hhits)

/-- What the operator shows under an alias for the records of a group: a sum or an average if there
are numbers, or else a count if there are hits. -/
def shown (F : FloatOps φ α) (aggs : List AggSpec) (al : String) (rs : List (Record (Value φ ω))) :
    Option (AggValue α) :=
  if numbers aggs al rs = [] then (countEntry (hits aggs al rs)).map .int
  else if isAvg aggs al then
    some (.float64 (F.div (F.total (numbers aggs al rs)) (hits aggs al rs)))
  else some (.float64 (F.total (numbers aggs al rs)))

/-- The hits under the alias of a spec are those of the spec and those of the others. -/
theorem hits_append_cons (pre : List AggSpec) (spec : AggSpec) (post : List AggSpec)
    (rs : List (Record (Value φ ω))) :
    hits (pre ++ spec :: post) spec.effectiveAlias rs =
      (rs.filter spec.hits).length + hits (pre ++ post) spec.effectiveAlias rs := by
  rw [hits, hits, List.length_flatMap, List.length_flatMap]
  induction rs with
  | nil => rfl
  | cons r rs ih =>
      rw [List.map_cons, List.map_cons, List.sum_cons, List.sum_cons, ih]
      cases hr : spec.hits r
      · simp [hr]
        omega
      · simp [hr]
        omega

/-- A spec without a number in the records does not change the numbers. -/
theorem numbers_append_cons_of_none {pre post : List AggSpec} {spec : AggSpec}
    {rs : List (Record (Value φ ω))} (hnone : ∀ r ∈ rs, spec.numberIn r = none) (al : String) :
    numbers (pre ++ spec :: post) al rs = numbers (pre ++ post) al rs := by
  refine List.flatMap_congr fun r hr => ?_
  rw [List.filter_append, List.filter_append, List.filter_cons]
  split
  · simp [hnone r hr]
  · rfl

theorem hits_ne_zero_of_numbers {aggs : List AggSpec} {al : String}
    {rs : List (Record (Value φ ω))} (h : numbers aggs al rs ≠ []) : hits aggs al rs ≠ 0 := by
  obtain ⟨n, hn⟩ := List.exists_mem_of_ne_nil _ h
  obtain ⟨r, hr, hn⟩ := List.mem_flatMap.mp hn
  obtain ⟨spec, hspec, hn⟩ := List.mem_filterMap.mp hn
  rw [hits, Ne, List.length_eq_zero_iff]
  refine List.ne_nil_of_mem (List.mem_flatMap.mpr ⟨r, hr, List.mem_filter.mpr ⟨hspec, ?_⟩⟩)
  rw [AggSpec.hits, hn, Option.isSome_some, Bool.or_true]

theorem getElem?_renderGroup_groupAcc (F : FloatOps φ α) (aggs : List AggSpec)
    (rs : List (Record (Value φ ω))) (al : String) :
    (renderGroup F aggs (groupAcc F aggs rs))[al]? = shown F aggs al rs := by
  rw [getElem?_renderGroup, sums_groupAcc, shown]
  split
  · rw [counts_groupAcc, Option.map_none, Option.none_or]
  · next hne =>
      have hhits := hits_ne_zero_of_numbers hne
      rw [Option.map_some, Option.some_or, showSum, counts_groupAcc,
        countEntry_of_ne_zero hhits, Option.getD_some, if_neg hhits]
      split <;> rfl

namespace AggregateFuncsOperator

/-- The groups are those of the records. -/
theorem getElem?_groups (a : AggregateFuncsOperator) (fmt : Sprintf φ ω) (F : FloatOps φ α)
    (input : List (Record (Value φ ω))) (g : String) :
    (a.groups fmt F input)[g]? = if groupOf fmt a.key g input = [] then none
      else some (renderGroup F a.aggs (groupAcc F a.aggs (groupOf fmt a.key g input))) := by
  rw [groups, getElem?_render, group?_foldl_accumulate]
  split <;> rfl

end AggregateFuncsOperator

end StreamFlow.Processor
