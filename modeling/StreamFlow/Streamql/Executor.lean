import StreamFlow.Processor.TimeWindow
import StreamFlow.Streamql.Parser

/-!
# Running plans

`executor.go`: `BuildOperators` makes a filter of the condition of a plan, if it has one, and one
more operator. For a plan with aggregates and a `GROUP BY` this is one of three: a count by group
if `COUNT(*)` is the only aggregate, or else the aggregates by group, with or without windows.
`RunPlan` sends the records through these operators.

The three operators name a group by the text of the first field of the `GROUP BY`.
-/

namespace StreamFlow.Streamql

open Pattern Processor

variable {φ ω α : Type}

/-- A record of the stream that a plan reads. -/
abbrev Row (φ ω : Type) := Processor.Record (Value φ ω)

/-- A record with aggregates that a plan emits. -/
abbrev Emitted (α : Type) := Processor.Record (Aggregated α)

/-! ### The operators of a plan -/

/-- The comparison of an `int` with the number that the condition has. -/
def compareInt (op : String) (n iv : ℤ) : Bool :=
  if op = "=" ∨ op = "==" then n = iv
  else if op = ">" then n > iv
  else if op = "<" then n < iv
  else false

/-- `compilePredicate`: a condition of a field, a comparison and a value. A shorter one is always
true. -/
def compilePredicate (expr : String) (r : Row φ ω) : Bool :=
  match GoStrings.fields (GoStrings.trimSpace expr.toList) with
  | field :: op :: v :: vs =>
      let val := GoStrings.trim (fun c => c = '\x27' || c = '\x22') ([' '].intercalate (v :: vs))
      let op := String.ofList op
      match (fields r)[String.ofList field]? with
      | some (.int n) =>
          match GoStrings.atoi val with
          | some iv => compareInt op n iv
          | none => false
      | some (.string s) => (op = "=" ∨ op = "==") && s = String.ofList val
      | _ => false
  | _ => true

/-- The pattern of an aggregate in a select item. -/
def aggregateRe : Pattern :=
  seq [
    .many isBlank, .capture 1 (.alt (word "sum") (.alt (word "avg") (word "count"))),
    .many isBlank, lit '(', .many isBlank,
    .capture 2 (many1 fun c => isName c || c = '*'),
    .many isBlank, lit ')', .many isBlank,
    opt (seq [word "as", many1 isBlank, .capture 3 (many1 isName)]),
    .many isBlank]

def aggSpec? (item : String) : Option AggSpec :=
  (aggregateRe.find? item.toList).map fun m =>
    ⟨String.ofList (toLower (submatch m 1)), String.ofList (submatch m 2),
      String.ofList (submatch m 3)⟩

/-- The aggregates of a plan that are recognised. -/
def Plan.specs (p : Plan) : List AggSpec := p.aggregates.filterMap aggSpec?

/-- The only aggregate is `COUNT(*)`. -/
def onlyCountsAll : List AggSpec → Bool
  | [spec] => spec.func = "count" && spec.field = "*"
  | _ => false

/-- The function of the `MapOperator` of a plan without aggregates. -/
def project (projections : List String) (r : Row φ ω) : Row φ ω :=
  if projections = [] ∨ projections = ["*"] then r
  else some (projections.foldl (fun out f =>
    match (fields r)[f]? with
    | some v => out.insert f v
    | none => out) ∅)

/-- The last operator of a plan. -/
inductive LastOperator (φ ω : Type) where
  | map (m : MapOperator (Value φ ω))
  | aggregate (a : AggregateOperator)
  | aggregateFuncs (a : AggregateFuncsOperator)
  | timeWindow (t : TimeWindowAggregateOperator)

/-- The operators of a plan: a filter or none, and one more. -/
structure Operators (φ ω : Type) where
  filter : Option (FilterOperator (Value φ ω))
  last : LastOperator φ ω

def buildFilter (p : Plan) : Option (FilterOperator (Value φ ω)) :=
  if GoStrings.trimSpace p.filter.toList ≠ [] then some ⟨compilePredicate p.filter⟩ else none

def buildLast (p : Plan) : LastOperator φ ω :=
  match p.groupBy with
  | key :: _ =>
      if p.aggregates = [] then .map ⟨project p.projections⟩
      else if onlyCountsAll p.specs then .aggregate ⟨key⟩
      else if 0 < p.windowMs then .timeWindow ⟨key, p.specs, p.windowMs⟩
      else .aggregateFuncs ⟨key, p.specs⟩
  | [] => .map ⟨project p.projections⟩

def buildOperators (p : Plan) : Operators φ ω := ⟨buildFilter p, buildLast p⟩

/-- The records that pass the filter of a plan. -/
def passes (p : Plan) (r : Row φ ω) : Bool :=
  ((buildFilter p).map fun f => f.pred r).getD true

/-- What reaches the last operator: the records that pass, and the ticks of its own ticker. -/
def passed (p : Plan) (arrivals : List (Arrival (Value φ ω))) : List (Arrival (Value φ ω)) :=
  arrivals.filter fun x => (x.record?.map (passes p)).getD true

/-- `RunPlan`: the records that the last operator emits, plain ones or aggregates. `none` is a
panic. -/
def runPlan (p : Plan) (fmt : Sprintf φ ω) (F : FloatOps φ α)
    (arrivals : List (Arrival (Value φ ω))) :
    Option (List (Row φ ω ⊕ Emitted α)) :=
  let input := (passed p arrivals).filterMap Arrival.record?
  match (buildOperators p).last with
  | .map m => some (((Operator.map m).apply input).map .inl)
  | .aggregate a => some ((a.process fmt input).map .inr)
  | .aggregateFuncs a => some ((a.process fmt F input).map .inr)
  | .timeWindow t => (t.process fmt F (passed p arrivals)).map (List.map .inr)

theorem filterMap_record?_passed_eq_filter (p : Plan) (arrivals : List (Arrival (Value φ ω))) :
    (passed p arrivals).filterMap Arrival.record? =
      (arrivals.filterMap Arrival.record?).filter (passes p) := by
  rw [passed, List.filter_filterMap, List.filterMap_filter]
  refine List.filterMap_congr fun x _ => ?_
  cases x with
  | record r => cases hp : passes p r <;> simp [Arrival.record?, Option.filter, hp]
  | tick => rfl

theorem passed_map_record (p : Plan) (rs : List (Row φ ω)) :
    passed p (rs.map .record) = (rs.filter (passes p)).map .record := by
  rw [passed, List.filter_map]
  rfl

/-! ### The groups that a plan emits -/

/-- The groups of what an aggregate emits. -/
def hasGroup (g : String) : Aggregated α → Bool
  | .counts m => (m[g]?).isSome
  | .groups m => (m[g]?).isSome

/-- A record that a plan emits has a group. -/
def HasGroup (o : Row φ ω ⊕ Emitted α) (g : String) : Prop :=
  ∃ r, o = .inr r ∧ ∃ (name : String) (v : Aggregated α), (fields r)[name]? = some v ∧
    hasGroup g v = true

/-- The plan makes a group of some records that come without a tick between them. -/
def MakesGroup (p : Plan) (fmt : Sprintf φ ω) (F : FloatOps φ α)
    (rs : List (Row φ ω)) (g : String) : Prop :=
  ∃ outs, runPlan p fmt F (rs.map .record) = some outs ∧ ∃ o ∈ outs, HasGroup o g

/-- A record contributes to a group if the plan makes this group of it. -/
def Contributes (p : Plan) (fmt : Sprintf φ ω) (F : FloatOps φ α) (r : Row φ ω)
    (g : String) : Prop :=
  MakesGroup p fmt F [r] g

/-- The ticker of the plan, if it has one, gets a positive period. -/
def TickerOk (p : Plan) : Prop :=
  onlyCountsAll p.specs = true ∨ p.windowMs ≤ 0 ∨ 0 < (p.windowMs * 1000000).bmod (2 ^ 64)

instance (p : Plan) : Decidable (TickerOk p) := inferInstanceAs (Decidable (_ ∨ _ ∨ _))

/-- The group in which the last operator of a plan with aggregates files a record. -/
def filedAs (p : Plan) (fmt : Sprintf φ ω) (key : String) (r : Row φ ω) :
    Option String :=
  if onlyCountsAll p.specs then AggregateOperator.countedAs ⟨key⟩ fmt r
  else some (groupKey fmt key r)

theorem hasGroup_recordOf {name g : String} {v : Aggregated α} :
    HasGroup (.inr (recordOf name v) : Row φ ω ⊕ Emitted α) g ↔
      hasGroup g v = true := by
  constructor
  · rintro ⟨r, hr, n, w, hw, hg⟩
    obtain rfl := Sum.inr.inj hr
    rw [fields, recordOf, Option.getD_some, OrdMap.getElem?_insert,
      Std.ExtTreeMap.getElem?_empty] at hw
    obtain ⟨-, hw⟩ := Option.ite_none_right_eq_some.mp hw
    rwa [Option.some.inj hw]
  · intro hg
    refine ⟨_, rfl, name, v, ?_, hg⟩
    rw [fields, recordOf, Option.getD_some, OrdMap.getElem?_insert_self']

/-- The groups of a run are those of what the last operator emits. -/
theorem makesGroup_iff_of_runPlan {p : Plan} {fmt : Sprintf φ ω} {F : FloatOps φ α}
    {rs : List (Row φ ω)} {outs : List (Emitted α)}
    (h : runPlan p fmt F (rs.map .record) = some (outs.map .inr)) (g : String) :
    MakesGroup p fmt F rs g ↔ ∃ o ∈ outs, HasGroup (.inr o : Row φ ω ⊕ Emitted α) g := by
  rw [MakesGroup, h]
  simp only [Option.some.injEq, exists_eq_left', List.mem_map, exists_exists_and_eq_and]

theorem exists_hasGroup_counts (a : AggregateOperator) (fmt : Sprintf φ ω)
    (rs : List (Row φ ω)) (g : String) :
    (∃ o ∈ (a.process fmt rs : List (Emitted α)),
      HasGroup (.inr o : Row φ ω ⊕ Emitted α) g) ↔
      ∃ r ∈ rs, a.countedAs fmt r = some g := by
  simp only [AggregateOperator.process, List.mem_singleton, exists_eq_left, hasGroup_recordOf,
    hasGroup, a.getElem?_counts, Grouping.isSome_countEntry, Ne, List.length_eq_zero_iff,
    List.filter_eq_nil_iff, decide_eq_true_eq, not_forall, not_not, exists_prop]

theorem exists_hasGroup_groups (a : AggregateFuncsOperator) (fmt : Sprintf φ ω)
    (F : FloatOps φ α) (rs : List (Row φ ω)) (g : String) :
    (∃ o ∈ a.process fmt F rs,
      HasGroup (.inr o : Row φ ω ⊕ Emitted α) g) ↔
      ∃ r ∈ rs, groupKey fmt a.key r = g := by
  simp only [AggregateFuncsOperator.process, List.mem_singleton, exists_eq_left,
    hasGroup_recordOf, hasGroup]
  exact a.isSome_getElem?_groups fmt F rs g

/-- Without ticks the operator with windows makes the groups of the plain one. -/
theorem exists_hasGroup_loop (t : TimeWindowAggregateOperator) (fmt : Sprintf φ ω)
    (F : FloatOps φ α) (rs : List (Row φ ω)) (g : String) :
    (∃ o ∈ t.loop fmt F .empty (rs.map .record),
      HasGroup (.inr o : Row φ ω ⊕ Emitted α) g) ↔
      ∃ r ∈ rs, groupKey fmt t.key r = g := by
  rw [t.loop_map_record]
  by_cases hrs : rs = []
  · subst hrs
    simp
  · have hfilter : [rs].filter (· ≠ []) = [rs] := by simp [hrs]
    rw [hfilter, List.flatMap_singleton]
    exact exists_hasGroup_groups t.plain fmt F rs g

section Aggregates

variable {p : Plan} {key : String} {keys : List String}

/-- The three last operators of a plan with aggregates. -/
theorem buildLast_eq (hkey : p.groupBy = key :: keys) (haggs : p.aggregates ≠ []) :
    (buildLast p : LastOperator φ ω) =
      if onlyCountsAll p.specs then .aggregate ⟨key⟩
      else if 0 < p.windowMs then .timeWindow ⟨key, p.specs, p.windowMs⟩
      else .aggregateFuncs ⟨key, p.specs⟩ := by
  rw [buildLast, hkey]
  exact if_neg haggs

/-- What a plan with aggregates emits for records that come without a tick. -/
theorem runPlan_map_record (hkey : p.groupBy = key :: keys) (haggs : p.aggregates ≠ [])
    (fmt : Sprintf φ ω) (F : FloatOps φ α) (rs : List (Row φ ω)) :
    runPlan p fmt F (rs.map .record) =
      if onlyCountsAll p.specs then
        some ((AggregateOperator.process ⟨key⟩ fmt (rs.filter (passes p))).map .inr)
      else if 0 < p.windowMs then
        if 0 < (p.windowMs * 1000000).bmod (2 ^ 64) then
          some ((TimeWindowAggregateOperator.loop ⟨key, p.specs, p.windowMs⟩ fmt F .empty
            ((rs.filter (passes p)).map .record)).map .inr)
        else none
      else some ((AggregateFuncsOperator.process ⟨key, p.specs⟩ fmt F
        (rs.filter (passes p))).map .inr) := by
  rw [runPlan, buildOperators, buildLast_eq hkey haggs, passed_map_record,
    filterMap_record?_map_record]
  by_cases hcount : onlyCountsAll p.specs = true
  · simp only [if_pos hcount]
  · by_cases hwindow : 0 < p.windowMs
    · simp only [if_neg hcount, if_pos hwindow]
      rw [TimeWindowAggregateOperator.process, apply_ite (Option.map (List.map Sum.inr))]
      rfl
    · simp only [if_neg hcount, if_neg hwindow]

/-- The groups of a run are those in which the records that pass are filed. -/
theorem makesGroup_iff (hkey : p.groupBy = key :: keys) (haggs : p.aggregates ≠ [])
    (fmt : Sprintf φ ω) (F : FloatOps φ α) (rs : List (Row φ ω)) (g : String) :
    MakesGroup p fmt F rs g ↔
      TickerOk p ∧ ∃ r ∈ rs, passes p r = true ∧ filedAs p fmt key r = some g := by
  have hrun := runPlan_map_record hkey haggs fmt F rs
  unfold TickerOk filedAs
  by_cases hcount : onlyCountsAll p.specs = true
  · rw [if_pos hcount] at hrun
    rw [makesGroup_iff_of_runPlan hrun, exists_hasGroup_counts]
    simp [hcount, and_assoc]
  · rw [if_neg hcount] at hrun
    by_cases hwindow : 0 < p.windowMs
    · rw [if_pos hwindow] at hrun
      simp only [hcount, not_le.mpr hwindow, Bool.false_eq_true, false_or, if_false]
      by_cases hticker : 0 < (p.windowMs * 1000000).bmod (2 ^ 64)
      · rw [if_pos hticker] at hrun
        rw [makesGroup_iff_of_runPlan hrun, exists_hasGroup_loop, and_iff_right hticker]
        simp [and_assoc]
      · -- the ticker panics and nothing is emitted
        rw [if_neg hticker] at hrun
        rw [MakesGroup, hrun]
        exact iff_of_false (by simp) fun h => hticker h.1
    · rw [if_neg hwindow] at hrun
      rw [makesGroup_iff_of_runPlan hrun, exists_hasGroup_groups]
      simp [hcount, not_lt.mp hwindow, and_assoc]

/-- A record contributes to the group in which it is filed. -/
theorem contributes_iff (hkey : p.groupBy = key :: keys) (haggs : p.aggregates ≠ [])
    (fmt : Sprintf φ ω) (F : FloatOps φ α) {r : Row φ ω}
    (hr : ((fields r)[key]?).isSome) (g : String) :
    Contributes p fmt F r g ↔ TickerOk p ∧ passes p r = true ∧ groupKey fmt key r = g := by
  have hfiled : filedAs p fmt key r = some (groupKey fmt key r) := by
    obtain ⟨v, hv⟩ := Option.isSome_iff_exists.mp hr
    rw [filedAs, AggregateOperator.countedAs, groupKey, hv]
    exact ite_self _
  rw [Contributes, makesGroup_iff hkey haggs]
  simp only [List.mem_singleton, exists_eq_left, hfiled, Option.some.injEq]

/-- Two records contribute to the same group. -/
def SameGroup (p : Plan) (fmt : Sprintf φ ω) (F : FloatOps φ α) (r r' : Row φ ω) :
    Prop :=
  ∃ g, Contributes p fmt F r g ∧ Contributes p fmt F r' g

theorem sameGroup_iff (hkey : p.groupBy = key :: keys) (haggs : p.aggregates ≠ [])
    (fmt : Sprintf φ ω) (F : FloatOps φ α) {r r' : Row φ ω}
    (hr : ((fields r)[key]?).isSome) (hr' : ((fields r')[key]?).isSome)
    (hpass : passes p r = true) (hpass' : passes p r' = true) :
    SameGroup p fmt F r r' ↔ TickerOk p ∧ groupKey fmt key r = groupKey fmt key r' := by
  simp only [SameGroup, contributes_iff hkey haggs fmt F hr, contributes_iff hkey haggs fmt F hr',
    hpass, hpass', true_and]
  constructor
  · rintro ⟨g, ⟨hticker, hg⟩, -, hg'⟩
    exact ⟨hticker, hg.trans hg'.symm⟩
  · rintro ⟨hticker, hg⟩
    exact ⟨_, ⟨hticker, hg⟩, hticker, rfl⟩

end Aggregates

/-- Two records have the same value of the same type in each field. -/
def AgreeOn (keys : List String) (r r' : Row φ ω) : Prop :=
  ∀ k ∈ keys, (fields r)[k]? = (fields r')[k]?

instance [DecidableEq φ] [DecidableEq ω] (keys : List String) (r r' : Row φ ω) :
    Decidable (AgreeOn keys r r') :=
  inferInstanceAs (Decidable (∀ k ∈ keys, _))

end StreamFlow.Streamql
