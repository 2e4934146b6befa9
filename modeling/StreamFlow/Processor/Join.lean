import Mathlib.Data.List.Perm.Basic
import Mathlib.Data.List.ProdSigma
import StreamFlow.Processor.Timed

/-!
# The time-bounded join

`StreamJoinWithin` of `advanced_streaming.go`: two nested loops over the records of two
streams, which merge the records that have the same value under a key and are close in
time. The loops are compared with the pairs of records that should be merged, as a filter
of the product of both lists. They differ where `Sub` does not return the time between two
records: it saturates, and the absolute value of the least `Duration` is negative.

The comparison of two interface values panics if they have the same type and that type has
no equality; `Equality` stands for it.
-/

namespace StreamFlow.Processor

open OrdMap

/-- Go's comparison of interface values; `none` is the panic. -/
structure Equality (ν : Type) where
  eq : ν → ν → Option Bool
  symm : ∀ a b, eq a b = eq b a

section Merge

variable {ν : Type}

/-- The fields of a record under the names of the merged record. -/
def tagged (tag : String) (r : Record ν) : List (String × ν) :=
  (fields r).toList.map fun e => (tag ++ e.1, e.2)

/-- The merged record: the fields of both sides under new names. -/
def merged (l r : Record ν) : Record ν :=
  some (insertAll (insertAll ∅ (tagged "left." l)) (tagged "right." r))

end Merge

variable {ν : Type} (go : Equality ν) (key : String) (bound : ℤ)

/-- The check of two times in the inner loop. -/
def nearInTime (t u : Time) : Bool :=
  let delta := t.sub u
  let delta := if delta < 0 then negDuration delta else delta
  decide (delta ≤ bound)

/-- The inner loop, for a record of the left stream and its value under the key. -/
def joinRight (l : TimedRecord ν) (lv : ν) :
    List (TimedRecord ν) → List (Record ν) → Option (List (Record ν))
  | [], out => some out
  | r :: right, out =>
      match (fields r.record)[key]? with
      | none => joinRight l lv right out
      | some rv =>
          match go.eq rv lv with
          | none => none
          | some false => joinRight l lv right out
          | some true =>
              if nearInTime bound l.atTime r.atTime then
                joinRight l lv right (out ++ [merged l.record r.record])
              else joinRight l lv right out

/-- The outer loop. -/
def joinLeft (right : List (TimedRecord ν)) :
    List (TimedRecord ν) → List (Record ν) → Option (List (Record ν))
  | [], out => some out
  | l :: left, out =>
      match (fields l.record)[key]? with
      | none => joinLeft right left out
      | some lv =>
          match joinRight go key bound l lv right out with
          | none => none
          | some out => joinLeft right left out

/-- `StreamJoinWithin`; `none` is a panic. -/
def streamJoinWithin (left right : List (TimedRecord ν)) : Option (List (Record ν)) :=
  joinLeft go key bound right left []

/-- Whether both records carry the key with equal values; `none` if the values cannot be
compared. -/
def sameKey (l r : TimedRecord ν) : Option Bool :=
  match (fields l.record)[key]?, (fields r.record)[key]? with
  | some lv, some rv => go.eq rv lv
  | _, _ => some false

/-- The pairs of records with equal values under the key whose times are near, the records
of the left list one after the other. -/
def joinPairs (near : Time → Time → Bool) (left right : List (TimedRecord ν)) :
    List (TimedRecord ν × TimedRecord ν) :=
  (left ×ˢ right).filter fun p =>
    decide (sameKey go key p.1 p.2 = some true) && near p.1.atTime p.2.atTime

/-- The times are at most `bound` apart. -/
def withinBound (t u : Time) : Bool := decide (|t.between u| ≤ bound)

/-- The merged records of a list of pairs. -/
def mergeAll (pairs : List (TimedRecord ν × TimedRecord ν)) : List (Record ν) :=
  pairs.map fun p => merged p.1.record p.2.record

section Merge

variable {l r l' r' : Record ν}

theorem append_injective (tag : String) : Function.Injective (tag ++ ·) := by
  intro a b h
  have hlist := congrArg String.toList h
  dsimp only at hlist
  rw [String.toList_append, String.toList_append] at hlist
  exact String.toList_injective (List.append_cancel_left hlist)

theorem right_ne_left (a b : String) : "right." ++ a ≠ "left." ++ b := by
  intro h
  have hlist := congrArg String.toList h
  rw [String.toList_append, String.toList_append] at hlist
  exact absurd (List.cons.inj hlist).1 (by decide)

theorem getElem?_insertAll_tagged (m : OrdMap String ν) (tag : String) (r : Record ν)
    (k : String) :
    (insertAll m (tagged tag r))[tag ++ k]? = ((fields r)[k]?).or m[tag ++ k]? :=
  getElem?_insertAll_rename (append_injective tag) m (fields r) k

theorem getElem?_insertAll_tagged_of_ne (m : OrdMap String ν) {tag k : String} (r : Record ν)
    (h : ∀ name, tag ++ name ≠ k) : (insertAll m (tagged tag r))[k]? = m[k]? := by
  apply getElem?_insertAll_of_forall_ne
  intro e he
  obtain ⟨e', -, rfl⟩ := List.mem_map.mp he
  exact h e'.1

theorem getElem?_merged_left (l r : Record ν) (k : String) :
    (fields (merged l r))["left." ++ k]? = (fields l)[k]? := by
  rw [fields, merged, Option.getD_some,
    getElem?_insertAll_tagged_of_ne _ r fun name => right_ne_left name k,
    getElem?_insertAll_tagged, Std.ExtTreeMap.getElem?_empty, Option.or_none]

theorem getElem?_merged_right (l r : Record ν) (k : String) :
    (fields (merged l r))["right." ++ k]? = (fields r)[k]? := by
  rw [fields, merged, Option.getD_some, getElem?_insertAll_tagged,
    getElem?_insertAll_tagged_of_ne _ l fun name => (right_ne_left k name).symm,
    Std.ExtTreeMap.getElem?_empty, Option.or_none]

/-- A merged record determines the fields of both sides. -/
theorem fields_eq_of_merged_eq (h : merged l r = merged l' r') :
    fields l = fields l' ∧ fields r = fields r' := by
  constructor
  · apply Std.ExtTreeMap.ext_getElem?
    intro k
    rw [← getElem?_merged_left l r, h, getElem?_merged_left]
  · apply Std.ExtTreeMap.ext_getElem?
    intro k
    rw [← getElem?_merged_right l r, h, getElem?_merged_right]

end Merge

section Loops

variable {go key bound} {near : Time → Time → Bool} {l r : TimedRecord ν} {lv : ν}

theorem sameKey_of_left (hl : (fields l.record)[key]? = some lv) (r : TimedRecord ν) :
    sameKey go key l r =
      match (fields r.record)[key]? with
      | none => some false
      | some rv => go.eq rv lv := by
  rw [sameKey, hl]
  cases (fields r.record)[key]? <;> rfl

theorem sameKey_of_left_none (hl : (fields l.record)[key]? = none) (r : TimedRecord ν) :
    sameKey go key l r = some false := by
  rw [sameKey, hl]

theorem sameKey_comm (l r : TimedRecord ν) : sameKey go key l r = sameKey go key r l := by
  unfold sameKey
  cases (fields l.record)[key]? with
  | none => cases (fields r.record)[key]? <;> rfl
  | some lv =>
      cases (fields r.record)[key]? with
      | none => rfl
      | some rv => exact go.symm rv lv

theorem joinPairs_cons (l : TimedRecord ν) (left right : List (TimedRecord ν)) :
    joinPairs go key near (l :: left) right =
      joinPairs go key near [l] right ++ joinPairs go key near left right := by
  rw [joinPairs, joinPairs, joinPairs, List.product_cons, List.product_cons, List.nil_product,
    List.append_nil, List.filter_append]

theorem joinPairs_singleton_cons {same : Bool} (hsame : sameKey go key l r = some same)
    (right : List (TimedRecord ν)) :
    joinPairs go key near [l] (r :: right) =
      (if same && near l.atTime r.atTime then [(l, r)] else []) ++
        joinPairs go key near [l] right := by
  simp only [joinPairs, List.product_cons, List.nil_product, List.append_nil, List.map_cons,
    List.filter_cons, hsame]
  cases same with
  | false => simp
  | true => split <;> simp_all

theorem joinPairs_singleton_of_none (hl : (fields l.record)[key]? = none)
    (right : List (TimedRecord ν)) : joinPairs go key near [l] right = [] := by
  induction right with
  | nil => rfl
  | cons r right ih =>
      rw [joinPairs_singleton_cons (sameKey_of_left_none hl r), ih]
      rfl

/-- One round of the inner loop. -/
theorem joinRight_cons (hl : (fields l.record)[key]? = some lv) (right : List (TimedRecord ν))
    (out : List (Record ν)) :
    joinRight go key bound l lv (r :: right) out =
      match sameKey go key l r with
      | none => none
      | some same =>
          joinRight go key bound l lv right
            (if same && nearInTime bound l.atTime r.atTime then
              out ++ [merged l.record r.record] else out) := by
  rw [joinRight, sameKey_of_left hl]
  cases (fields r.record)[key]? with
  | none => rfl
  | some rv =>
      dsimp only
      cases go.eq rv lv with
      | none => rfl
      | some same =>
          cases same with
          | false => rfl
          | true =>
              cases nearInTime bound l.atTime r.atTime with
              | false => rfl
              | true => rfl

/-- The inner loop without a panic. -/
theorem joinRight_eq (hl : (fields l.record)[key]? = some lv) {right : List (TimedRecord ν)}
    (h : ∀ r ∈ right, sameKey go key l r ≠ none) (out : List (Record ν)) :
    joinRight go key bound l lv right out =
      some (out ++ mergeAll (joinPairs go key (nearInTime bound) [l] right)) := by
  induction right generalizing out with
  | nil => exact congrArg some (List.append_nil out).symm
  | cons r right ih =>
      obtain ⟨same, hsame⟩ := Option.ne_none_iff_exists'.mp (h r List.mem_cons_self)
      rw [joinRight_cons hl, joinPairs_singleton_cons hsame, hsame]
      dsimp only
      rw [ih fun r' hr' => h r' (List.mem_cons_of_mem r hr')]
      split
      · simp [mergeAll]
      · rfl

/-- The inner loop panics on values that cannot be compared. -/
theorem joinRight_eq_none (hl : (fields l.record)[key]? = some lv)
    {right : List (TimedRecord ν)} (h : ∃ r ∈ right, sameKey go key l r = none)
    (out : List (Record ν)) : joinRight go key bound l lv right out = none := by
  induction right generalizing out with
  | nil =>
      obtain ⟨r, hr, -⟩ := h
      cases hr
  | cons r right ih =>
      rw [joinRight_cons hl]
      cases hsame : sameKey go key l r with
      | none => rfl
      | some same =>
          obtain ⟨r', hr', hnone⟩ := h
          rcases List.mem_cons.mp hr' with rfl | hr'
          · rw [hsame] at hnone
            cases hnone
          · exact ih ⟨r', hr', hnone⟩ _

theorem joinLeft_eq {left right : List (TimedRecord ν)}
    (h : ∀ l ∈ left, ∀ r ∈ right, sameKey go key l r ≠ none) (out : List (Record ν)) :
    joinLeft go key bound right left out =
      some (out ++ mergeAll (joinPairs go key (nearInTime bound) left right)) := by
  induction left generalizing out with
  | nil => exact congrArg some (List.append_nil out).symm
  | cons l left ih =>
      have ih' := ih fun l' hl' => h l' (List.mem_cons_of_mem l hl')
      rw [joinPairs_cons, joinLeft]
      cases hl : (fields l.record)[key]? with
      | none => rw [joinPairs_singleton_of_none hl, List.nil_append, ih']
      | some lv =>
          dsimp only
          rw [joinRight_eq hl (h l List.mem_cons_self)]
          dsimp only
          rw [ih', mergeAll, mergeAll, mergeAll, List.map_append, List.append_assoc]

theorem joinLeft_eq_none {left right : List (TimedRecord ν)}
    (h : ∃ l ∈ left, ∃ r ∈ right, sameKey go key l r = none) (out : List (Record ν)) :
    joinLeft go key bound right left out = none := by
  induction left generalizing out with
  | nil =>
      obtain ⟨l, hl, -⟩ := h
      cases hl
  | cons l left ih =>
      rw [joinLeft]
      obtain ⟨l', hl', r, hr, hnone⟩ := h
      rcases List.mem_cons.mp hl' with rfl | hl'
      · cases hlv : (fields l'.record)[key]? with
        | none =>
            rw [sameKey_of_left_none hlv] at hnone
            cases hnone
        | some lv =>
            dsimp only
            rw [joinRight_eq_none hlv ⟨r, hr, hnone⟩]
      · cases (fields l.record)[key]? with
        | none => exact ih ⟨l', hl', r, hr, hnone⟩ out
        | some lv =>
            dsimp only
            cases joinRight go key bound l lv right out with
            | none => rfl
            | some out' => exact ih ⟨l', hl', r, hr, hnone⟩ out'

end Loops

section Exact

variable {go key bound} {near near' : Time → Time → Bool} {left right : List (TimedRecord ν)}

/-- The check accepts the times that are near, and some that are not: all for which the time
between is below the range of `Duration`, and with the greatest bound also those for which
it is above. -/
theorem nearInTime_iff (h0 : 0 ≤ bound) (hmax : bound ≤ maxDuration) (t u : Time) :
    nearInTime bound t u = true ↔
      |t.between u| ≤ bound ∨ t.between u < -maxDuration ∨
        maxDuration < t.between u ∧ bound = maxDuration := by
  have hM : (0 : ℤ) < maxDuration := by decide
  rw [nearInTime, decide_eq_true_iff]
  by_cases hlow : t.between u < -maxDuration
  · rw [Time.sub_of_lt hlow, if_pos (by decide), negDuration_minDuration]
    refine iff_of_true ?_ (.inr (.inl hlow))
    exact le_trans (by decide) h0
  · by_cases hhigh : maxDuration < t.between u
    · rw [Time.sub_of_gt hhigh, if_neg (not_lt.mpr hM.le), abs_of_pos (hM.trans hhigh)]
      omega
    · have habs : |t.between u| ≤ maxDuration := abs_le.mpr ⟨not_lt.mp hlow, not_lt.mp hhigh⟩
      have hdelta : (if t.between u < 0 then negDuration (t.between u) else t.between u) =
          |t.between u| := by
        split
        · next hneg =>
            have hmin : minDuration = -maxDuration - 1 := by decide
            rw [negDuration_of_lt (by omega) (not_lt.mp hhigh), abs_of_neg hneg]
        · next hneg => rw [abs_of_nonneg (not_lt.mp hneg)]
      rw [Time.sub_of_abs_le habs, hdelta]
      exact ⟨.inl, fun h => h.resolve_right fun h => h.elim hlow fun h => hhigh h.1⟩

/-- The time between two records is in the range of `Duration`, both ways. -/
def Representable (t u : Time) : Prop := |t.between u| ≤ maxDuration

instance (t u : Time) : Decidable (Representable t u) :=
  inferInstanceAs (Decidable (|t.between u| ≤ maxDuration))

theorem nearInTime_of_representable (h0 : 0 ≤ bound) (hmax : bound ≤ maxDuration) {t u : Time}
    (h : Representable t u) : nearInTime bound t u = withinBound bound t u := by
  obtain ⟨hlow, hhigh⟩ := abs_le.mp h
  rw [Bool.eq_iff_iff, nearInTime_iff h0 hmax, withinBound, decide_eq_true_iff]
  exact ⟨fun h => h.resolve_right fun h => by omega, .inl⟩

/-- A time between that is out of range is accepted one way or the other. -/
theorem representable_of_near (h0 : 0 ≤ bound) (hmax : bound ≤ maxDuration) {t u : Time}
    (h : nearInTime bound t u = true → withinBound bound t u = true)
    (h' : nearInTime bound u t = true → withinBound bound u t = true) : Representable t u := by
  rw [nearInTime_iff h0 hmax, withinBound, decide_eq_true_iff] at h h'
  rw [Time.abs_between_comm] at h'
  by_contra hout
  rw [Representable, abs_le, not_and_or, not_le, not_le] at hout
  have hfar : ¬ |t.between u| ≤ bound := by
    rw [abs_le]
    omega
  rcases hout with hlow | hhigh
  · exact hfar (h (.inr (.inl hlow)))
  · refine hfar (h' (.inr (.inl ?_)))
    rw [Time.between_comm]
    omega

theorem mem_joinPairs_iff {p : TimedRecord ν × TimedRecord ν} :
    p ∈ joinPairs go key near left right ↔
      (p.1 ∈ left ∧ p.2 ∈ right) ∧ sameKey go key p.1 p.2 = some true ∧
        near p.1.atTime p.2.atTime = true := by
  rw [joinPairs, List.mem_filter, List.mem_product, Bool.and_eq_true, decide_eq_true_iff]

/-- More times that count as near, more pairs. -/
theorem joinPairs_sublist (h : ∀ t u, near t u = true → near' t u = true) :
    List.Sublist (joinPairs go key near left right) (joinPairs go key near' left right) := by
  apply List.monotone_filter_right
  intro p hp
  rw [Bool.and_eq_true] at hp ⊢
  exact ⟨hp.1, h _ _ hp.2⟩

theorem product_swap_perm {α β : Type*} (l : List α) (r : List β) :
    (r ×ˢ l).Perm ((l ×ˢ r).map Prod.swap) := by
  induction l with
  | nil => simp
  | cons a l ih =>
      rw [List.product_cons, List.map_append, List.map_map]
      have hcons : r ×ˢ (a :: l) = r.flatMap fun b => (b, a) :: l.map fun a => (b, a) := rfl
      rw [hcons]
      refine (List.map_append_flatMap_perm r _ _).symm.trans ?_
      exact List.Perm.append (List.Perm.refl _) ih

/-- The pairs of the swapped lists. -/
theorem joinPairs_swap_perm (hnear : ∀ t u, near t u = near u t) :
    (joinPairs go key near right left).Perm ((joinPairs go key near left right).map Prod.swap) := by
  refine ((product_swap_perm left right).filter _).trans ?_
  rw [joinPairs, List.filter_map]
  apply List.Perm.of_eq
  congr 1
  apply List.filter_congr
  intro p _
  change (decide (sameKey go key p.2 p.1 = some true) && near p.2.atTime p.1.atTime) = _
  rw [sameKey_comm, hnear]

/-- An exact result leaves no room for values that cannot be compared, nor for a pair that is
accepted without being near. -/
theorem of_streamJoinWithin_eq (h0 : 0 ≤ bound) (hmax : bound ≤ maxDuration)
    (h : streamJoinWithin go key bound left right =
      some (mergeAll (joinPairs go key (withinBound bound) left right)))
    {l r : TimedRecord ν} (hl : l ∈ left) (hr : r ∈ right) :
    sameKey go key l r ≠ none ∧ (sameKey go key l r = some true →
      nearInTime bound l.atTime r.atTime = true → withinBound bound l.atTime r.atTime = true) := by
  have hcomparable : ∀ l ∈ left, ∀ r ∈ right, sameKey go key l r ≠ none := by
    intro l hl r hr hnone
    rw [streamJoinWithin, joinLeft_eq_none ⟨l, hl, r, hr, hnone⟩] at h
    cases h
  refine ⟨hcomparable l hl r hr, fun hsame hnear => ?_⟩
  rw [streamJoinWithin, joinLeft_eq hcomparable, List.nil_append] at h
  have hlen := congrArg List.length (Option.some.inj h)
  rw [mergeAll, mergeAll, List.length_map, List.length_map] at hlen
  have hsub : List.Sublist (joinPairs go key (withinBound bound) left right)
      (joinPairs go key (nearInTime bound) left right) :=
    joinPairs_sublist fun t u hw =>
      (nearInTime_iff h0 hmax t u).mpr (.inl (decide_eq_true_iff.mp hw))
  have hmem : (l, r) ∈ joinPairs go key (nearInTime bound) left right :=
    mem_joinPairs_iff.mpr ⟨⟨hl, hr⟩, hsame, hnear⟩
  rw [← hsub.eq_of_length hlen.symm] at hmem
  exact (mem_joinPairs_iff.mp hmem).2.2

theorem streamJoinWithin_eq (h0 : 0 ≤ bound) (hmax : bound ≤ maxDuration)
    (h : ∀ l ∈ left, ∀ r ∈ right, sameKey go key l r ≠ none ∧
      (sameKey go key l r = some true → Representable l.atTime r.atTime)) :
    streamJoinWithin go key bound left right =
      some (mergeAll (joinPairs go key (withinBound bound) left right)) := by
  rw [streamJoinWithin, joinLeft_eq fun l hl r hr => (h l hl r hr).1, List.nil_append]
  congr 2
  apply List.filter_congr
  rintro ⟨l, r⟩ hp
  obtain ⟨hl, hr⟩ := List.mem_product.mp hp
  by_cases hsame : sameKey go key l r = some true
  · rw [nearInTime_of_representable h0 hmax ((h l hl r hr).2 hsame)]
  · simp only [hsame, decide_false, Bool.false_and]

end Exact

/-- `StreamJoinWithin` returns one merged record for each pair with equal values under the key
and times at most `bound` apart, in the order of the left list. The merged records determine
the fields of both sides, and the swapped lists have the same pairs. -/
structure JoinsExactly (left right : List (TimedRecord ν)) : Prop where
  result : streamJoinWithin go key bound left right =
    some (mergeAll (joinPairs go key (withinBound bound) left right))
  determined : ∀ p ∈ joinPairs go key (withinBound bound) left right,
    ∀ p' ∈ joinPairs go key (withinBound bound) left right,
      merged p.1.record p.2.record = merged p'.1.record p'.2.record →
        fields p.1.record = fields p'.1.record ∧ fields p.2.record = fields p'.2.record
  swapped : streamJoinWithin go key bound right left =
    some (mergeAll (joinPairs go key (withinBound bound) right left))
  same_pairs : (joinPairs go key (withinBound bound) right left).Perm
    ((joinPairs go key (withinBound bound) left right).map Prod.swap)

/-- The join is exact if and only if no values under the key panic, and any two records with
equal values are less than 2⁶³ nanoseconds apart. -/
theorem joinsExactly_iff {bound : ℤ} (h0 : 0 ≤ bound) (hmax : bound ≤ maxDuration)
    (left right : List (TimedRecord ν)) :
    JoinsExactly go key bound left right ↔
      ∀ l ∈ left, ∀ r ∈ right, sameKey go key l r ≠ none ∧
        (sameKey go key l r = some true → Representable l.atTime r.atTime) := by
  constructor
  · rintro ⟨hresult, -, hswapped, -⟩ l hl r hr
    obtain ⟨hcomparable, hnear⟩ := of_streamJoinWithin_eq h0 hmax hresult hl hr
    refine ⟨hcomparable, fun hsame => representable_of_near h0 hmax (hnear hsame) ?_⟩
    rw [sameKey_comm] at hsame
    exact (of_streamJoinWithin_eq h0 hmax hswapped hr hl).2 hsame
  · intro h
    refine ⟨streamJoinWithin_eq h0 hmax h, fun _ _ _ _ heq => fields_eq_of_merged_eq heq,
      streamJoinWithin_eq h0 hmax fun r hr l hl => ?_, joinPairs_swap_perm fun t u => ?_⟩
    · rw [sameKey_comm, Representable, Time.abs_between_comm]
      exact h l hl r hr
    · rw [withinBound, withinBound, Time.abs_between_comm]

/-- Strings, which have an equality, and slices of strings, which have none. -/
def sampleEquality : Equality (String ⊕ List String) where
  eq
    | .inl a, .inl b => some (decide (a = b))
    | .inr _, .inr _ => none
    | _, _ => some false
  symm
    | .inl _, .inl _ => congrArg some (decide_eq_decide.mpr eq_comm)
    | .inl _, .inr _ | .inr _, .inl _ | .inr _, .inr _ => rfl

/-- A record with one field `id` at a time of the wall clock. -/
def sampleTimed (wall : ℤ) (id : String ⊕ List String) : TimedRecord (String ⊕ List String) :=
  ⟨⟨wall, none⟩, some ((∅ : OrdMap String (String ⊕ List String)).insert "id" id)⟩

/-- Two records half a second apart. -/
theorem joinsExactly_sample :
    (joinPairs sampleEquality "id" (withinBound 1000000000) [sampleTimed 0 (.inl "1")]
        [sampleTimed 500000000 (.inl "1"), sampleTimed 0 (.inr ["1"])]).length = 1 ∧
      JoinsExactly sampleEquality "id" 1000000000 [sampleTimed 0 (.inl "1")]
        [sampleTimed 500000000 (.inl "1"), sampleTimed 0 (.inr ["1"])] :=
  ⟨by decide +kernel,
    (joinsExactly_iff sampleEquality "id" (by decide) (by decide) _ _).mpr (by decide +kernel)⟩

/-- A record with the zero time is joined with one of the year 1970 within a second, but only
if it stands on the left. With slices as values the call panics. -/
theorem not_joinsExactly_zero :
    (streamJoinWithin sampleEquality "id" 1000000000 [sampleTimed Time.zero.wall (.inl "1")]
        [sampleTimed 0 (.inl "1")]).map List.length = some 1 ∧
      (streamJoinWithin sampleEquality "id" 1000000000 [sampleTimed 0 (.inl "1")]
        [sampleTimed Time.zero.wall (.inl "1")]).map List.length = some 0 ∧
      streamJoinWithin sampleEquality "id" 1000000000 [sampleTimed 0 (.inr ["1"])]
        [sampleTimed 0 (.inr ["1"])] = none ∧
      ¬ JoinsExactly sampleEquality "id" 1000000000 [sampleTimed Time.zero.wall (.inl "1")]
        [sampleTimed 0 (.inl "1")] := by
  have hone : (streamJoinWithin sampleEquality "id" 1000000000
      [sampleTimed Time.zero.wall (.inl "1")] [sampleTimed 0 (.inl "1")]).map List.length =
        some 1 := by decide +kernel
  refine ⟨hone, by decide +kernel, by decide +kernel, fun hexact => ?_⟩
  rw [hexact.result] at hone
  revert hone
  decide +kernel

end StreamFlow.Processor
