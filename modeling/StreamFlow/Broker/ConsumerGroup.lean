import Mathlib.Data.String.Basic
import StreamFlow.Foundation.OrdMap
import StreamFlow.Foundation.RoundRobin
import StreamFlow.Foundation.Run

/-!
# Consumer groups

`ConsumerGroupCoordinator` of `broker/consumer_group.go`. Two maps are kept apart: the
members of every group, and the partitions of the members as `Rebalance` dealt them
last. `Join` and `Leave` do not deal again, so between two calls of `Rebalance` a new
member has no partitions, and those of a member that left belong to nobody.
-/

namespace StreamFlow

open RoundRobin Run

/-- A set of members. -/
abbrev Members := OrdMap String Unit

/-- The partitions of every member. -/
abbrev Assignment := OrdMap String (List ℕ)

structure ConsumerGroupCoordinator where
  members : OrdMap String Members
  assignments : OrdMap String Assignment

namespace ConsumerGroupCoordinator

def newConsumerGroupCoordinator : ConsumerGroupCoordinator := ⟨∅, ∅⟩

/-- The members of a group; a group that nobody has joined has none. -/
def membersOf (c : ConsumerGroupCoordinator) (group : String) : Members :=
  (c.members[group]?).getD ∅

def join (c : ConsumerGroupCoordinator) (group member : String) : ConsumerGroupCoordinator :=
  { c with members := c.members.insert group ((c.membersOf group).insert member ()) }

def leave (c : ConsumerGroupCoordinator) (group member : String) : ConsumerGroupCoordinator :=
  match c.members[group]? with
  | none => c
  | some members =>
      { members := c.members.insert group (members.erase member)
        assignments :=
          match c.assignments[group]? with
          | none => c.assignments
          | some parts => c.assignments.insert group (parts.erase member) }

/-- The loop of `Rebalance` over the partitions. -/
def dealLoop (members : List String) : List ℕ → Assignment → Assignment
  | [], parts => parts
  | p :: ps, parts =>
      let m := members.getD (p % members.length) ""
      dealLoop members ps (parts.insert m ((parts[m]?).getD [] ++ [p]))

def rebalance (c : ConsumerGroupCoordinator) (group : String) (partitions : ℤ) :
    ConsumerGroupCoordinator :=
  let members := ((c.membersOf group).toList.map Prod.fst).insertionSort (· ≤ ·)
  let parts := members.foldl (fun parts m => parts.insert m []) ((c.assignments[group]?).getD ∅)
  { c with
    assignments := c.assignments.insert group
      (if members = [] then parts
      else dealLoop members (List.range partitions.toNat) parts) }

def assignment (c : ConsumerGroupCoordinator) (group : String) : Assignment :=
  (c.assignments[group]?).getD ∅

end ConsumerGroupCoordinator

/-- A call on the coordinator. -/
inductive GroupOp where
  | join (group member : String)
  | leave (group member : String)
  | rebalance (group : String) (partitions : ℤ)

def GroupOp.apply (c : ConsumerGroupCoordinator) : GroupOp → Option ConsumerGroupCoordinator
  | join group member => some (c.join group member)
  | leave group member => some (c.leave group member)
  | rebalance group partitions => some (c.rebalance group partitions)

namespace ConsumerGroupCoordinator

/-- Every partition of a group is held by one member at most, and only current members
hold partitions. -/
structure Disjoint (members : Members) (parts : Assignment) : Prop where
  current : ∀ (m : String) l, parts[m]? = some l → members[m]? = some ()
  disjoint : ∀ (m : String) l (m' : String) l' p, parts[m]? = some l → parts[m']? = some l' →
    p ∈ l → p ∈ l' → m = m'

/-- What `Rebalance` makes of the partitions below `n`. -/
structure Balanced (members : Members) (n : ℕ) (parts : Assignment) : Prop where
  current : ∀ m : String, (parts[m]?).isSome ↔ members[m]? = some ()
  increasing : ∀ (m : String) l, parts[m]? = some l → l.Pairwise (· < ·)
  once : (parts.toList.flatMap Prod.snd).Perm (List.range n)
  even : ∀ (m : String) l (m' : String) l', parts[m]? = some l → parts[m']? = some l' →
    l.length ≤ l'.length + 1

/-- The names of the members in increasing order. -/
def names (members : Members) : List String := members.toList.map Prod.fst

theorem insertionSort_names (members : Members) :
    (members.toList.map Prod.fst).insertionSort (· ≤ ·) = names members := by
  refine OrdMap.insertionSort_map_toList members Prod.fst (· ≤ ·) fun a b hlt => ?_
  exact le_of_lt (compareOfLessAndEq_eq_lt.mp hlt)

theorem mem_names {members : Members} {m : String} :
    m ∈ names members ↔ members[m]? = some () := by
  rw [names, List.mem_map]
  constructor
  · rintro ⟨⟨m, u⟩, hmem, rfl⟩
    exact (OrdMap.mem_toList_iff members).mp hmem
  · intro h
    exact ⟨(m, ()), (OrdMap.mem_toList_iff members).mpr h, rfl⟩

theorem nodup_names (members : Members) : (names members).Nodup := by
  rw [names, List.Nodup, List.pairwise_map]
  refine (OrdMap.ascending_toList members).imp fun hlt heq => ?_
  rw [heq] at hlt
  exact OrdMap.not_compare_self_lt _ hlt

/-- The partitions below `n`, dealt to the members in turn. -/
def dealt (names : List String) (n : ℕ) (m : String) : Option (List ℕ) :=
  if m ∈ names then some (deal names.length n (names.idxOf m)) else none

theorem dealLoop_append (names : List String) (ps ps' : List ℕ) (parts : Assignment) :
    dealLoop names (ps ++ ps') parts = dealLoop names ps' (dealLoop names ps parts) := by
  induction ps generalizing parts with
  | nil => rfl
  | cons p ps ih => exact ih _

/-- One turn of the loop deals one more partition. -/
theorem dealt_succ {names : List String} (hnodup : names.Nodup) (hne : names ≠ []) {n : ℕ}
    {parts : Assignment} (h : ∀ m : String, parts[m]? = dealt names n m) (m : String) :
    (dealLoop names [n] parts)[m]? = dealt names (n + 1) m := by
  have hlt : n % names.length < names.length := Nat.mod_lt n (List.length_pos_iff.mpr hne)
  have hget : names.getD (n % names.length) "" = names[n % names.length] := by
    rw [List.getD_eq_getElem?_getD, List.getElem?_eq_getElem hlt]
    rfl
  have hmem : names[n % names.length] ∈ names := List.getElem_mem hlt
  have hidx : names.idxOf names[n % names.length] = n % names.length :=
    hnodup.idxOf_getElem _ hlt
  rw [dealLoop, dealLoop, hget, OrdMap.getElem?_insert]
  split
  · next heq =>
      rw [h, dealt, dealt, ← heq, if_pos hmem, if_pos hmem, hidx, deal_succ, if_pos rfl]
      rfl
  · next hother =>
      rw [h, dealt, dealt]
      split
      · next hm =>
          have hne' : n % names.length ≠ names.idxOf m := by
            intro heq
            refine hother ?_
            simp only [heq]
            exact List.getElem_idxOf (List.idxOf_lt_length_of_mem hm)
          rw [deal_succ, if_neg hne']
      · rfl

theorem dealLoop_range {names : List String} (hnodup : names.Nodup) (hne : names ≠ []) (n : ℕ)
    {parts : Assignment} (h : ∀ m : String, parts[m]? = dealt names 0 m) (m : String) :
    (dealLoop names (List.range n) parts)[m]? = dealt names n m := by
  induction n generalizing m with
  | zero => exact h m
  | succ n ih =>
      rw [List.range_succ, dealLoop_append]
      exact dealt_succ hnodup hne ih m

theorem getElem?_foldl_insert_nil (names : List String) (parts : Assignment) (m : String) :
    (names.foldl (fun parts m => parts.insert m []) parts)[m]? =
      if m ∈ names then some [] else parts[m]? := by
  induction names generalizing parts with
  | nil => simp
  | cons name names ih =>
      rw [List.foldl_cons, ih, OrdMap.getElem?_insert]
      by_cases hm : m ∈ names
      · simp [hm]
      · by_cases heq : name = m
        · simp [heq]
        · simp [hm, heq, Ne.symm heq]

variable {c : ConsumerGroupCoordinator} {group : String}

theorem assignment_rebalance_self (c : ConsumerGroupCoordinator) (group : String) (P : ℤ) :
    (c.rebalance group P).assignment group =
      if names (c.membersOf group) = [] then c.assignment group
      else dealLoop (names (c.membersOf group)) (List.range P.toNat)
        ((names (c.membersOf group)).foldl (fun parts m => parts.insert m [])
          (c.assignment group)) := by
  rw [rebalance, assignment, insertionSort_names]
  dsimp only
  rw [OrdMap.getElem?_insert_self', Option.getD_some]
  split
  · next hnil =>
      rw [hnil]
      rfl
  · rfl

theorem assignment_rebalance_of_ne (c : ConsumerGroupCoordinator) {group other : String}
    (h : group ≠ other) (P : ℤ) :
    (c.rebalance group P).assignment other = c.assignment other := by
  rw [rebalance, assignment, OrdMap.getElem?_insert_of_ne _ _ h]
  rfl

/-- `Rebalance` deals the partitions to the current members, whatever was dealt before. -/
theorem getElem?_assignment_rebalance
    (h : ∀ (m : String) l, (c.assignment group)[m]? = some l → (c.membersOf group)[m]? = some ())
    (hne : names (c.membersOf group) ≠ []) (P : ℤ) (m : String) :
    ((c.rebalance group P).assignment group)[m]? =
      dealt (names (c.membersOf group)) P.toNat m := by
  rw [assignment_rebalance_self, if_neg hne]
  refine dealLoop_range (nodup_names _) hne _ (fun m' => ?_) m
  rw [getElem?_foldl_insert_nil, dealt, deal_zero]
  split
  · rfl
  · next hm =>
      cases hget : (c.assignment group)[m']? with
      | none => rfl
      | some l => exact absurd (mem_names.mpr (h m' l hget)) hm

theorem mem_of_dealt {names : List String} {n : ℕ} {m : String} {l : List ℕ}
    (h : dealt names n m = some l) : m ∈ names ∧ l = deal names.length n (names.idxOf m) := by
  rw [dealt] at h
  split at h
  · next hm => exact ⟨hm, (Option.some.inj h).symm⟩
  · cases h

theorem map_idxOf_self {names : List String} (hnodup : names.Nodup) :
    names.map (names.idxOf ·) = List.range names.length := by
  refine List.ext_getElem (by simp) fun i hi _ => ?_
  rw [List.getElem_map, List.getElem_range]
  exact hnodup.idxOf_getElem i (by simpa using hi)

/-- The assignment after `Rebalance`, in the order of the members. -/
theorem toList_of_dealt {members : Members} {n : ℕ} {parts : Assignment}
    (h : ∀ m : String, parts[m]? = dealt (names members) n m) :
    parts.toList = (names members).map fun m =>
      (m, deal (names members).length n ((names members).idxOf m)) := by
  refine OrdMap.toList_eq_of_ascending parts ?_ fun m l => ?_
  · rw [OrdMap.Ascending, List.pairwise_map, names, List.pairwise_map]
    exact OrdMap.ascending_toList members
  · rw [List.mem_map, h]
    constructor
    · rintro ⟨m', hm', heq⟩
      obtain ⟨rfl, rfl⟩ := Prod.mk.inj heq
      rw [dealt, if_pos hm']
    · intro hl
      obtain ⟨hm, rfl⟩ := mem_of_dealt hl
      exact ⟨m, hm, rfl⟩

theorem balanced_of_dealt {members : Members} (hne : names members ≠ []) {n : ℕ}
    {parts : Assignment} (h : ∀ m : String, parts[m]? = dealt (names members) n m) :
    Balanced members n parts := by
  have hpos : 0 < (names members).length := List.length_pos_iff.mpr hne
  refine ⟨fun m => ?_, fun m l hl => ?_, ?_, fun m l m' l' hl hl' => ?_⟩
  · rw [h, dealt, ← mem_names]
    split
    · next hm => exact iff_of_true rfl hm
    · next hm => exact iff_of_false Bool.false_ne_true hm
  · rw [h] at hl
    rw [(mem_of_dealt hl).2]
    exact pairwise_deal _ _ _
  · have hflat : parts.toList.flatMap Prod.snd =
        (List.range (names members).length).flatMap (deal (names members).length n) := by
      rw [toList_of_dealt h, ← map_idxOf_self (nodup_names members), List.flatMap_map,
        List.flatMap_map]
    rw [hflat]
    exact flatMap_deal_perm hpos n
  · rw [h] at hl hl'
    obtain ⟨hm, rfl⟩ := mem_of_dealt hl
    obtain ⟨hm', rfl⟩ := mem_of_dealt hl'
    exact length_deal_le (List.idxOf_lt_length_of_mem hm) (List.idxOf_lt_length_of_mem hm')

theorem disjoint_of_dealt {members : Members} {n : ℕ} {parts : Assignment}
    (h : ∀ m : String, parts[m]? = dealt (names members) n m) : Disjoint members parts := by
  refine ⟨fun m l hl => ?_, fun m l m' l' p hl hl' hp hp' => ?_⟩
  · rw [h] at hl
    exact mem_names.mp (mem_of_dealt hl).1
  · rw [h] at hl hl'
    obtain ⟨hm, rfl⟩ := mem_of_dealt hl
    obtain ⟨-, rfl⟩ := mem_of_dealt hl'
    have hidx := (mem_deal.mp hp).2.symm.trans (mem_deal.mp hp').2
    exact (List.idxOf_inj hm).mp hidx

/-- The assignment of every group is disjoint. -/
def Sound (c : ConsumerGroupCoordinator) : Prop :=
  ∀ group, Disjoint (c.membersOf group) (c.assignment group)

theorem membersOf_insert (members : OrdMap String Members) (assignments : OrdMap String Assignment)
    (group other : String) (ms : Members) :
    membersOf ⟨members.insert group ms, assignments⟩ other =
      if group = other then ms else membersOf ⟨members, assignments⟩ other := by
  rw [membersOf, OrdMap.getElem?_insert]
  split <;> rfl

theorem Sound.join (h : Sound c) (group member : String) : Sound (c.join group member) := by
  intro other
  have hmembers : ∀ m : String, (c.membersOf other)[m]? = some () →
      ((c.join group member).membersOf other)[m]? = some () := by
    intro m hm
    rw [ConsumerGroupCoordinator.join, membersOf_insert]
    split
    · next heq =>
        subst heq
        rw [OrdMap.getElem?_insert]
        split
        · rfl
        · exact hm
    · exact hm
  exact ⟨fun m l hl => hmembers m ((h other).current m l hl), (h other).disjoint⟩

theorem Disjoint.erase {members : Members} {parts : Assignment} (h : Disjoint members parts)
    (member : String) : Disjoint (members.erase member) (parts.erase member) := by
  refine ⟨fun m l hl => ?_, fun m l m' l' p hl hl' => ?_⟩
  · obtain ⟨hne, hl⟩ := OrdMap.getElem?_of_getElem?_erase hl
    rw [OrdMap.getElem?_erase, if_neg hne]
    exact h.current m l hl
  · exact h.disjoint m l m' l' p (OrdMap.getElem?_of_getElem?_erase hl).2
      (OrdMap.getElem?_of_getElem?_erase hl').2

theorem assignment_leave {members : Members} (hgroup : c.members[group]? = some members)
    (member other : String) :
    (c.leave group member).assignment other =
      if group = other then (c.assignment other).erase member else c.assignment other := by
  rw [leave, hgroup, assignment, assignment]
  dsimp only
  cases hparts : c.assignments[group]? with
  | none =>
      dsimp only
      split
      · next heq =>
          rw [← heq, hparts]
          rfl
      · rfl
  | some parts =>
      dsimp only
      rw [OrdMap.getElem?_insert]
      split
      · next heq =>
          rw [← heq, hparts]
          rfl
      · rfl

theorem membersOf_leave {members : Members} (hgroup : c.members[group]? = some members)
    (member other : String) :
    (c.leave group member).membersOf other =
      if group = other then (c.membersOf other).erase member else c.membersOf other := by
  rw [leave, hgroup, membersOf_insert]
  split
  · next heq =>
      rw [← heq, membersOf, hgroup]
      rfl
  · rfl

theorem Sound.leave (h : Sound c) (group member : String) : Sound (c.leave group member) := by
  cases hgroup : c.members[group]? with
  | none =>
      rw [ConsumerGroupCoordinator.leave, hgroup]
      exact h
  | some members =>
      intro other
      rw [assignment_leave hgroup, membersOf_leave hgroup]
      split
      · exact (h other).erase member
      · exact h other

theorem Sound.rebalance (h : Sound c) (group : String) (P : ℤ) : Sound (c.rebalance group P) := by
  intro other
  have hmembers : (c.rebalance group P).membersOf other = c.membersOf other := rfl
  rw [hmembers]
  by_cases hother : group = other
  · subst hother
    by_cases hnil : names (c.membersOf group) = []
    · rw [assignment_rebalance_self, if_pos hnil]
      exact h group
    · exact disjoint_of_dealt fun m =>
        getElem?_assignment_rebalance (h group).current hnil P m
  · rw [assignment_rebalance_of_ne c hother]
    exact h other

theorem Sound.run {ops : List GroupOp}
    (hrun : exec GroupOp.apply newConsumerGroupCoordinator ops = some c) : Sound c := by
  refine invariant Sound (fun c op c' h hstep => ?_) hrun ?_
  · cases op with
    | join group member =>
        obtain rfl := Option.some.inj hstep
        exact h.join group member
    | leave group member =>
        obtain rfl := Option.some.inj hstep
        exact h.leave group member
    | rebalance group P =>
        obtain rfl := Option.some.inj hstep
        exact h.rebalance group P
  · intro group
    refine ⟨fun m l hl => ?_, fun m l m' l' p hl => ?_⟩
    · cases hl
    · cases hl

end ConsumerGroupCoordinator

open ConsumerGroupCoordinator

/-- In every state reached, the partitions of a group are held by one member at most and by
current members only. `Rebalance` deals the partitions below `P` to the members evenly;
the result depends on the set of members and on `P` alone, and no other group changes. -/
theorem consumerGroup_assignment {ops : List GroupOp} {c : ConsumerGroupCoordinator}
    (hrun : exec GroupOp.apply newConsumerGroupCoordinator ops = some c) (group : String) :
    Disjoint (c.membersOf group) (c.assignment group) ∧
      ∀ P : ℤ,
        (c.membersOf group ≠ ∅ →
          Balanced (c.membersOf group) P.toNat ((c.rebalance group P).assignment group) ∧
          ∀ (ops' : List GroupOp) (c' : ConsumerGroupCoordinator),
            exec GroupOp.apply newConsumerGroupCoordinator ops' = some c' →
            c'.membersOf group = c.membersOf group →
            (c'.rebalance group P).assignment group = (c.rebalance group P).assignment group) ∧
        ∀ other, group ≠ other → (c.rebalance group P).assignment other = c.assignment other := by
  have h := Sound.run hrun
  refine ⟨h group, fun P => ⟨fun hne => ?_, fun other hother => ?_⟩⟩
  · have hnames : names (c.membersOf group) ≠ [] := by
      intro hnil
      refine hne (Std.ExtTreeMap.ext_getElem? fun m => ?_)
      rw [Std.ExtTreeMap.getElem?_empty]
      cases hm : (c.membersOf group)[m]? with
      | none => rfl
      | some u =>
          have hmem := mem_names.mpr hm
          rw [hnil] at hmem
          cases hmem
    have hdealt := getElem?_assignment_rebalance (h group).current hnames P
    refine ⟨balanced_of_dealt hnames hdealt, fun ops' c' hrun' hsame => ?_⟩
    apply Std.ExtTreeMap.ext_getElem?
    intro m
    rw [hdealt, getElem?_assignment_rebalance (Sound.run hrun' group).current (by rwa [hsame]),
      hsame]
  · exact assignment_rebalance_of_ne c hother P

/-- Members join and leave between two calls of `Rebalance`. -/
def groupSample : List GroupOp :=
  [.join "g" "b", .join "g" "a", .rebalance "g" 5, .leave "g" "b", .join "h" "x", .join "g" "c",
    .rebalance "h" 1]

theorem consumerGroup_assignment_sample :
    ∃ c, exec GroupOp.apply newConsumerGroupCoordinator groupSample = some c ∧
      Disjoint (c.membersOf "g") (c.assignment "g") ∧
      (c.assignment "g").toList = [("a", [0, 2, 4])] ∧
      Balanced (c.membersOf "g") 5 ((c.rebalance "g" 5).assignment "g") ∧
      ((c.rebalance "g" 5).assignment "g").toList = [("a", [0, 2, 4]), ("c", [1, 3])] ∧
      (c.rebalance "g" 5).assignment "h" = c.assignment "h" := by
  obtain ⟨c, hrun, hbefore, hne, hafter⟩ : ∃ c,
      exec GroupOp.apply newConsumerGroupCoordinator groupSample = some c ∧
        (c.assignment "g").toList = [("a", [0, 2, 4])] ∧
        (c.membersOf "g").toList ≠ [] ∧
        ((c.rebalance "g" 5).assignment "g").toList = [("a", [0, 2, 4]), ("c", [1, 3])] :=
    exists_exec_of_any (by decide +kernel)
  have hmembers : c.membersOf "g" ≠ ∅ := by
    intro hempty
    rw [hempty] at hne
    exact hne rfl
  obtain ⟨hdisjoint, hP⟩ := consumerGroup_assignment hrun "g"
  exact ⟨c, hrun, hdisjoint, hbefore, ((hP 5).1 hmembers).1, hafter,
    (hP 5).2 "h" (by decide)⟩

end StreamFlow
