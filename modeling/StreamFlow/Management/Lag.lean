import StreamFlow.Broker.Fetch
import StreamFlow.Broker.Offsets
import StreamFlow.Management.Api

/-!
# Consumer lag

`handleCommitOffset` of `management/api/server.go` and the gauge `consumer_lag`. After a commit the
handler reads one record from the committed offset on and sets the gauge of the topic and the group
to the distance of the two offsets. In a log without gaps the record that it reads has the committed
offset itself, so the distance is zero however many records follow; and nothing is set if there is
no record. The file of a committed offset is never one of a segment, so the logs are as before.
-/

namespace StreamFlow

open BigEndian ByteFile Segment Run

/-- The fields that `handleCommitOffset` decodes. -/
structure CommitRequest where
  topic : String
  group : String
  offset : Offset

/-- What `http.Error` writes: a fixed message, or the text of an error of `CommitOffset`. -/
structure CommitError where
  status : ℕ
  body : String ⊕ OffsetError
deriving DecidableEq, Repr

/-- The outcomes of the file operations of `CommitOffset`. -/
structure CommitEnv where
  mkdirOk : Bool
  outcome : ReplaceOutcome

/-- The gauges `consumer_lag` by topic and group. One that was not set yet has no value. -/
abbrev Gauges (α : Type) := String × String → Option α

/-- The lag that is computed from the offset of a record and a committed one, as an `int64`. -/
def lag (latest offset : ℤ) : ℤ :=
  let d := (latest - offset).bmod (2 ^ 64)
  if d < 0 then 0 else d

/-- The first record at an offset or after it, in a log without gaps. -/
theorem lag_toNat {o : ℤ} (h : Int64Range o) :
    lag o.toNat o = if 0 ≤ o ∨ o = -2 ^ 63 then 0 else -o := by
  obtain ⟨hlow, hhigh⟩ := h
  unfold lag
  by_cases hpos : 0 ≤ o
  · have hzero : (o.toNat : ℤ) - o = 0 := by omega
    rw [hzero, if_pos (Or.inl hpos)]
    rfl
  · have hneg : (o.toNat : ℤ) - o = -o := by omega
    rw [hneg]
    by_cases hmin : o = -2 ^ 63
    · subst hmin
      rw [if_pos (Or.inr rfl)]
      rfl
    · rw [if_neg (not_or.mpr ⟨hpos, hmin⟩), Int.bmod_eq_of_le (by omega) (by omega)]
      exact if_neg (by omega)

namespace World

variable {α : Type}

/-- The gauges after a commit: the record that `Consume` returns sets the one of its topic and
group. -/
def setLag (json : RecordJson) (float64 : ℤ → α) (w : World) (gauges : Gauges α)
    (req : CommitRequest) : Gauges α :=
  match w.consume json req.topic req.offset 1 with
  | .ok (latest :: _) =>
      Function.update gauges (req.topic, req.group) (some (float64 (lag latest.offset req.offset)))
  | _ => gauges

/-- `handleCommitOffset`, on the broker and the gauges; a body that is not decoded is `none`. -/
def handleCommitOffset (json : RecordJson) (float64 : ℤ → α) (env : CommitEnv) (w : World)
    (gauges : Gauges α) (method : Method) (body : Option CommitRequest) :
    World × Gauges α × Except CommitError (List (String × String)) :=
  if method ≠ .post then (w, gauges, .error ⟨405, .inl "method not allowed"⟩)
  else
    match body with
    | none => (w, gauges, .error ⟨400, .inl "invalid offset commit payload"⟩)
    | some req =>
        if req.topic = "" ∨ req.group = "" then
          (w, gauges, .error ⟨400, .inl "invalid offset commit payload"⟩)
        else
          match w.commitOffset env.mkdirOk env.outcome req.topic req.group req.offset with
          | (w, .error e) => (w, gauges, .error ⟨500, .inr e⟩)
          | (w, .ok _) => (w, w.setLag json float64 gauges req, .ok [("status", "committed")])

variable {json : RecordJson} {float64 : ℤ → α} {env : CommitEnv} {w w' : World}
  {gauges gauges' : Gauges α} {method : Method} {body : Option CommitRequest}
  {answer : Except CommitError (List (String × String))}

/-- A request that is not a commit changes nothing; a commit that fails changes no gauge. -/
theorem handleCommitOffset_cases
    (h : w.handleCommitOffset json float64 env gauges method body = (w', gauges', answer)) :
    (w' = w ∧ gauges' = gauges ∧ ∃ e, answer = .error e) ∨
    ∃ req, body = some req ∧
      w' = (w.commitOffset env.mkdirOk env.outcome req.topic req.group req.offset).1 ∧
      ((gauges' = gauges ∧ ∃ e, answer = .error e) ∨
        (gauges' = w'.setLag json float64 gauges req ∧ ∃ a, answer = .ok a)) := by
  have hrefused : ∀ {e : CommitError}, (w, gauges, .error e) = (w', gauges', answer) →
      w' = w ∧ gauges' = gauges ∧ ∃ e, answer = .error e := by
    rintro e ⟨⟩
    exact ⟨rfl, rfl, e, rfl⟩
  unfold handleCommitOffset at h
  split at h
  · exact Or.inl (hrefused h)
  · split at h
    · exact Or.inl (hrefused h)
    · next req =>
        split at h
        · exact Or.inl (hrefused h)
        · refine Or.inr ⟨req, rfl, ?_⟩
          split at h
          · next w₁ e hcommit =>
              cases h
              exact ⟨by rw [hcommit], Or.inl ⟨rfl, _, rfl⟩⟩
          · next w₁ a hcommit =>
              cases h
              exact ⟨by rw [hcommit], Or.inr ⟨rfl, _, rfl⟩⟩

/-! ### Files -/

/-- The file of a committed offset is not a file of a segment. -/
theorem offsetPath_notMem_files (dir : SlashPath) (x : String × String) (path : SlashPath) :
    offsetPath dir x ∉ files path := by
  obtain ⟨q, part, hpart, hpath⟩ :=
    SlashPath.exists_join_append (["groups", x.2].foldl SlashPath.join dir) x.1 ".offset"
  have hne : ∀ {file : String}, SlashPath.Plain file → file.toList.getLast? ≠ some 't' →
      offsetPath dir x ≠ path.join file := by
    intro file hplain hlast heq
    have hfile := ((SlashPath.join_eq_join_iff (plain_offset hpart) hplain).mp
      (hpath.symm.trans heq)).2
    rw [← hfile, String.toList_append, List.getLast?_append] at hlast
    exact hlast rfl
  simp only [files, List.mem_cons, List.not_mem_nil, or_false, not_or]
  exact ⟨hne plain_log (by decide), hne plain_index (by decide),
    hne plain_timeIndex (by decide)⟩

/-- A commit changes at most its own file. -/
theorem exists_commitOffset (w : World) (mkdirOk : Bool) (o : ReplaceOutcome)
    (topicName groupID : String) (offset : Offset) :
    ∃ fs, (w.commitOffset mkdirOk o topicName groupID offset).1 = ⟨fs, w.broker⟩ ∧
      FileTree.EqOff [offsetPath w.broker.dir (topicName, groupID)] w.fs fs := by
  cases mkdirOk with
  | false => exact ⟨w.fs, rfl, .refl _ _⟩
  | true =>
      rw [commitOffset_true]
      exact ⟨_, rfl, FileTree.eqOff_writeFile _ (List.mem_singleton_self _) _ _⟩

namespace Represents

variable {disk : SlashPath → List (ℤ × Record)}

theorem commitOffset (h : w.Represents json disk) (mkdirOk : Bool) (o : ReplaceOutcome)
    (topicName groupID : String) (offset : Offset) :
    (w.commitOffset mkdirOk o topicName groupID offset).1.Represents json disk := by
  obtain ⟨fs, hw, hoff⟩ := w.exists_commitOffset mkdirOk o topicName groupID offset
  rw [hw]
  refine h.congr_files fun name p hp => hoff.contents_eq ?_
  rw [List.mem_singleton]
  rintro rfl
  exact offsetPath_notMem_files _ _ _ hp

theorem handleCommitOffset (h : w.Represents json disk)
    (hstep : w.handleCommitOffset json float64 env gauges method body = (w', gauges', answer)) :
    w'.Represents json disk := by
  rcases handleCommitOffset_cases hstep with ⟨rfl, -, -⟩ | ⟨req, -, rfl, -⟩
  · exact h
  · exact h.commitOffset _ _ _ _ _

end Represents

/-! ### Gauges -/

/-- In a log whose records are numbered, the record at the committed offset is read. -/
theorem setLag_eq {req : CommitRequest} {log : List Record} {N : ℕ}
    (hconsume : w.consume json req.topic req.offset 1 =
      .ok ((log.drop req.offset.1.toNat).take 1))
    (hlog : log.map Record.offset = (List.range N).map Nat.cast) :
    w.setLag json float64 gauges req =
      if req.offset.1.toNat < N then Function.update gauges (req.topic, req.group)
        (some (float64 (lag req.offset.1.toNat req.offset)))
      else gauges := by
  have hlength : log.length = N := by simpa using congrArg List.length hlog
  rw [setLag, hconsume, List.take_one, List.head?_drop]
  by_cases hlt : req.offset.1.toNat < N
  · have hget := congrArg (fun l => l[req.offset.1.toNat]?) hlog
    rw [List.getElem?_map, List.getElem?_map, List.getElem?_range hlt, Option.map_some,
      Option.map_eq_some_iff] at hget
    obtain ⟨r, hr, hoffset⟩ := hget
    rw [hr, if_pos hlt, ← hoffset]
    rfl
  · rw [List.getElem?_eq_none (by omega), if_neg hlt]
    rfl

end World

/-! ### A server with its gauges -/

/-- The sections of the calls, and the gauges of the process. -/
structure Managed (α : Type) where
  sys : Sys
  gauges : Gauges α

inductive ManagedStep where
  | live (l : LifeStep)
  | commit (env : CommitEnv) (method : Method) (body : Option CommitRequest)

namespace Managed

variable {α : Type}

def init (w : World) : Managed α := ⟨.init w, fun _ => none⟩

/-- A new process begins without gauges. -/
def gaugesAfter (gauges : Gauges α) : LifeStep → Gauges α
  | .act _ => gauges
  | .restart => fun _ => none

def step (json : RecordJson) (float64 : ℤ → α) (m : Managed α) : ManagedStep → Option (Managed α)
  | .live l => (m.sys.live json l).map fun sys => ⟨sys, gaugesAfter m.gauges l⟩
  | .commit env method body =>
      let (w, gauges, _) :=
        m.sys.world.handleCommitOffset json float64 env m.gauges method body
      some ⟨{ m.sys with world := w }, gauges⟩

/-- A topic is created in a directory of its own. -/
def OwnDirs (m : Managed α) : ManagedStep → Prop
  | .live l => m.sys.LiveOwnDirs l
  | .commit _ _ _ => True

instance (m : Managed α) : ∀ a, Decidable (m.OwnDirs a)
  | .live l => inferInstanceAs (Decidable (m.sys.LiveOwnDirs l))
  | .commit _ _ _ => inferInstanceAs (Decidable True)

variable {json : RecordJson} {float64 : ℤ → α} {m m' : Managed α}

theorem represents_step {a : ManagedStep} {disk : SlashPath → List (ℤ × Record)}
    (h : m.sys.world.Represents json disk) (hown : m.OwnDirs a)
    (hstep : m.step json float64 a = some m') :
    ∃ disk', m'.sys.world.Represents json disk' := by
  cases a with
  | live l =>
      obtain ⟨sys, hlive, rfl⟩ := Option.map_eq_some_iff.mp hstep
      exact Sys.represents_live h hown hlive
  | commit env method body =>
      obtain rfl := Option.some.inj hstep
      exact ⟨disk, h.handleCommitOffset Prod.mk.eta.symm⟩

theorem exists_represents {fs : FileTree} {dir : SlashPath} {b : Broker}
    (hb : newBroker true dir = .ok b)
    (hfs : ∀ name, ∀ p ∈ files (b.segmentDir name), fs p = none) {steps : List ManagedStep}
    (hrun : exec (step json float64) (init ⟨fs, b⟩) steps = some m)
    (hown : Guarded (step json float64) OwnDirs (init ⟨fs, b⟩) steps) :
    ∃ disk, m.sys.world.Represents json disk :=
  invariant_of_guarded (fun m : Managed α => ∃ disk, m.sys.world.Represents json disk)
    (fun _ _ _ ⟨_, h⟩ hg hstep => represents_step h hg hstep) hrun hown
    ⟨_, .start (by rw [eq_fresh_of_newBroker hb]; rfl) hfs⟩

end Managed

section Reachable

variable {json : RecordJson} {f : Record → Record} {α : Type} {float64 : ℤ → α} (fs : FileTree)
  (dir : SlashPath) {b : Broker} {steps : List ManagedStep} {m : Managed α} {topic : Topic}
  {env : CommitEnv} {method : Method} {req : CommitRequest} {w' : World} {gauges' : Gauges α}
  {answer : List (String × String)} {N : ℕ}

/-- The gauge after a commit that succeeds is the distance from the committed offset to the end of
the log. In every state that a server reaches, over any restarts, commits and interleaving of calls
that create their topics in directories of their own, and for every topic whose records have the
offsets below `N`: this holds if and only if nothing is read and the gauge had that value before, or
a record is read and the value is that of the distance to this record, which is zero for an offset
in the log. -/
theorem lag_gauge_iff (hjson : json.Decodes f) (hb : newBroker true dir = .ok b)
    (hfs : ∀ name, ∀ p ∈ files (b.segmentDir name), fs p = none)
    (hrun : exec (Managed.step json float64) (.init ⟨fs, b⟩) steps = some m)
    (hown : Guarded (Managed.step json float64) Managed.OwnDirs (.init ⟨fs, b⟩) steps)
    (ht : m.sys.world.broker.topics[req.topic]? = some topic)
    (hN : ((m.sys.world.stored json req.topic).map fun e => e.record.offset) =
      (List.range N).map Nat.cast)
    (hok : m.sys.world.handleCommitOffset json float64 env m.gauges method (some req) =
      (w', gauges', .ok answer)) :
    gauges' (req.topic, req.group) = some (float64 (max 0 (N - req.offset))) ↔
      (N ≤ req.offset.1.toNat ∧
        m.gauges (req.topic, req.group) = some (float64 (max 0 (N - req.offset)))) ∨
      (req.offset.1.toNat < N ∧
        float64 (if 0 ≤ req.offset.1 ∨ req.offset.1 = -2 ^ 63 then 0 else -req.offset) =
          float64 (N - req.offset)) := by
  obtain ⟨disk, hrep⟩ := Managed.exists_represents hb hfs hrun hown
  obtain ⟨-, -, e, he⟩ | ⟨req', hreq, hw, ⟨-, e, he⟩ | ⟨hset, -⟩⟩ :=
    World.handleCommitOffset_cases hok
  · cases he
  · cases he
  · obtain rfl := Option.some.inj hreq
    have hrep' := hrep.handleCommitOffset hok
    have hbroker : w'.broker = m.sys.world.broker := by
      obtain ⟨fs', hcommit, -⟩ := m.sys.world.exists_commitOffset env.mkdirOk env.outcome
        req.topic req.group req.offset
      rw [hw, hcommit]
    have ht' : w'.broker.topics[req.topic]? = some topic := hbroker ▸ ht
    -- the commit leaves the log as it was
    have hlog : (w'.stored json req.topic).map StoredRecord.record =
        (m.sys.world.stored json req.topic).map StoredRecord.record := by
      rw [hrep'.map_record_stored hjson ht', hrep.map_record_stored hjson ht, hbroker]
    have hconsume := hrep'.consume_one hjson ht' req.offset
    rw [hlog] at hconsume
    rw [hset, World.setLag_eq hconsume (by rw [World.map_offset_eq, hN]), lag_toNat req.offset.2]
    by_cases hlt : req.offset.1.toNat < N
    · have hmax : max 0 ((N : ℤ) - req.offset) = N - req.offset := by omega
      simp [hlt, hmax]
    · have hle := not_lt.mp hlt
      simp [hlt, hle]

/-- A topic with one record. -/
def ManagedStep.sampleOne : List ManagedStep :=
  [.live (.act (.createTopic none "t")), .live (.sampleProduce .ok)]

def CommitRequest.sample (offset : Offset) : CommitRequest := ⟨"t", "g", offset⟩

/-- A topic with one record, and a commit at it. -/
def ManagedStep.sampleCommitted : List ManagedStep :=
  sampleOne ++ [.commit ⟨true, .done⟩ .post (some (.sample ⟨0, by decide⟩))]

/-- A commit for this topic whose file operations succeed. -/
def Managed.sampleCommit (m : Managed ℤ) (offset : Offset) :
    World × Gauges ℤ × Except CommitError (List (String × String)) :=
  m.sys.world.handleCommitOffset sampleJson id ⟨true, .done⟩ m.gauges .post (some (.sample offset))

/-- The end of the log is committed after the offset before it. -/
theorem lag_gauge_at_end :
    ∃ m : Managed ℤ, exec (Managed.step sampleJson id)
        (.init ⟨fun _ => none, .fresh ⟨true, ["d"]⟩⟩) ManagedStep.sampleCommitted = some m ∧
      (m.sampleCommit ⟨1, by decide⟩).2.2 = .ok [("status", "committed")] ∧
      (m.sampleCommit ⟨1, by decide⟩).2.1 ("t", "g") = some (max 0 (1 - 1)) := by
  obtain ⟨m, hrun, htopic, hN, hgauge, hok⟩ : ∃ m : Managed ℤ, exec (Managed.step sampleJson id)
        (.init ⟨fun _ => none, .fresh ⟨true, ["d"]⟩⟩) ManagedStep.sampleCommitted = some m ∧
      (m.sys.world.broker.topics["t"]?).isSome = true ∧
      ((m.sys.world.stored sampleJson "t").map fun e => e.record.offset) =
        (List.range 1).map Nat.cast ∧
      m.gauges ("t", "g") = some 0 ∧
      (m.sampleCommit ⟨1, by decide⟩).2.2 = .ok [("status", "committed")] :=
    exists_exec_of_any (by decide +kernel)
  obtain ⟨topic, ht⟩ := Option.isSome_iff_exists.mp htopic
  have hcommit : m.sampleCommit ⟨1, by decide⟩ = (_, _, .ok [("status", "committed")]) :=
    Prod.ext rfl (Prod.ext rfl hok)
  exact ⟨m, hrun, hok, (lag_gauge_iff (fun _ => none) ⟨true, ["d"]⟩ sampleJson_faithful rfl
    (fun _ _ _ => rfl) hrun (by decide +kernel) ht hN hcommit).mpr (Or.inl ⟨le_rfl, hgauge⟩)⟩

/-- A consumer that has not read the only record of the topic has a lag of zero, and one that has
read it has no lag yet. -/
theorem lag_gauge_zero :
    ∃ m : Managed ℤ, exec (Managed.step sampleJson id)
        (.init ⟨fun _ => none, .fresh ⟨true, ["d"]⟩⟩) ManagedStep.sampleOne = some m ∧
      ((m.sys.world.stored sampleJson "t").map fun e => e.record.offset) = [0] ∧
      ((m.sampleCommit ⟨0, by decide⟩).2.2 = .ok [("status", "committed")] ∧
        (m.sampleCommit ⟨0, by decide⟩).2.1 ("t", "g") = some 0 ∧
        some 0 ≠ some (max 0 ((1 : ℤ) - 0))) ∧
      (m.sampleCommit ⟨1, by decide⟩).2.2 = .ok [("status", "committed")] ∧
        (m.sampleCommit ⟨1, by decide⟩).2.1 ("t", "g") = none :=
  exists_exec_of_any (by decide +kernel)

end Reachable

end StreamFlow
