import StreamFlow.Broker.Logs
import StreamFlow.Broker.TxProtocol
import StreamFlow.Broker.Sample

/-!
# Reading what is committed

In the first process on a directory the log of a topic, as `Consume` reads it, consists
of the records that some call has written for the topic (`Sys.serves_run`). With it, what
`ConsumeReadCommitted` returns can be traced back to the transaction that staged it.

`ConsumeReadCommitted` is `Consume`, so it returns the records of a transaction from
the moment its commit has appended them, and goes on doing so when the commit fails.
-/

namespace StreamFlow

open BigEndian Run Segment

namespace Sys

variable {json : RecordJson} {s : Sys}

/-- Each record a `ConsumeReadCommitted` returns is the one at its place in the log,
and if a transaction has staged it, the transaction is committed. -/
def ReadCommitted (json : RecordJson) (s : Sys) (topic : String) : Prop :=
  ∀ fromOffset max recs, s.world.consumeReadCommitted json topic fromOffset max = .ok recs →
    ∀ (i : ℕ) (r : Record), recs[i]? = some r →
      ∃ w, (s.log topic)[fromOffset.toNat + i]? = some w ∧ w.record = r ∧
        ∀ e ∈ w.committed?,
          (s.world.broker.transactions[e.ptr]?).map Transaction.status = some .committed

/-- A commit that has not returned nil has written nothing for the topic. -/
def Settled (s : Sys) (topic : String) : Prop :=
  ∀ e ∈ s.commits.toList, e.2.phase ≠ .done →
    ∀ r ∈ recordsAt e.2.ptr s.txView.committed, r.topic ≠ topic

instance (s : Sys) (topic : String) : Decidable (s.Settled topic) :=
  inferInstanceAs (Decidable (∀ e ∈ s.commits.toList, _))

theorem topic_of_committed {w : Written} {e : Staged} (h : w.committed? = some e) :
    e.record.topic = w.topic := by
  obtain ⟨source, topic, record⟩ := w
  cases source with
  | commit call id p =>
      obtain rfl := Option.some.inj h
      rfl
  | produce => cases h
  | idem call a => cases h

theorem mem_committed {w : Written} {e : Staged} {topic : String} (hw : w ∈ s.log topic)
    (he : w.committed? = some e) : e ∈ s.txView.committed ∧ e.record.topic = topic := by
  rw [log, List.mem_filter] at hw
  exact ⟨List.mem_filterMap.mpr ⟨w, hw.1, he⟩,
    (topic_of_committed he).trans (of_decide_eq_true hw.2)⟩

/-- A call that reads one place of a log. -/
theorem consumeReadCommitted_of_mem (h : s.world.Serves json s.logs) (hjson : json.Faithful)
    {topic : String} {i : ℕ} {w : Written} (hi : (s.log topic)[i]? = some w) :
    ∃ recs, s.world.consumeReadCommitted json topic i 1 = .ok recs ∧
      recs[0]? = some w.record := by
  cases ht : s.world.broker.topics[topic]? with
  | none =>
      have hnil := h.unknown topic ht
      rw [logs, List.map_eq_nil_iff] at hnil
      rw [hnil] at hi
      cases hi
  | some t =>
      refine ⟨_, h.consume_eq hjson ht i 1, ?_⟩
      rw [List.map_id, List.getElem?_take_of_lt (by decide), List.getElem?_drop,
        Int.toNat_natCast, add_zero, logs, List.getElem?_map, hi, Option.map_some]

/-- Every record that is read comes from its place in the log. -/
theorem log_of_consumeReadCommitted (h : s.world.Serves json s.logs) (hjson : json.Faithful)
    {topic : String} {fromOffset max : ℤ} {recs : List Record}
    (hrecs : s.world.consumeReadCommitted json topic fromOffset max = .ok recs) {i : ℕ}
    {r : Record} (hr : recs[i]? = some r) :
    ∃ w, (s.log topic)[fromOffset.toNat + i]? = some w ∧ w.record = r := by
  cases ht : s.world.broker.topics[topic]? with
  | none =>
      rw [World.consumeReadCommitted, World.consume, ht] at hrecs
      cases hrecs
  | some t =>
      rw [World.consumeReadCommitted, h.consume_eq hjson ht] at hrecs
      obtain rfl := Except.ok.inj hrecs
      rw [List.map_id, List.getElem?_take] at hr
      split at hr
      · rw [List.getElem?_drop, logs, List.getElem?_map] at hr
        exact Option.map_eq_some_iff.mp hr
      · cases hr

/-- What is in a log is committed exactly when the log is settled. -/
theorem settled_iff (hinv : TxInv s.txView) (topic : String) :
    s.Settled topic ↔ ∀ w ∈ s.log topic, ∀ e ∈ w.committed?,
      (s.world.broker.transactions[e.ptr]?).map Transaction.status = some .committed := by
  constructor
  · intro hsettled w hw e he
    obtain ⟨hmem, htopic⟩ := mem_committed hw he
    obtain ⟨call, c, tx, hc, hptr, htx, hstatus⟩ := hinv.exists_call hmem
    change s.world.broker.transactions[e.ptr]? = some tx at htx
    rw [htx, Option.map_some, Option.some.injEq, hstatus]
    by_contra hphase
    exact hsettled (call, c) ((OrdMap.mem_toList_iff _).mpr hc) hphase e.record
      (mem_recordsAt.mpr ⟨e, hmem, hptr.symm, rfl⟩) htopic
  · rintro hall ⟨call, c⟩ hc hphase r hr rfl
    obtain ⟨e, he, hptr, rfl⟩ := mem_recordsAt.mp hr
    obtain ⟨w, hw, hwe⟩ := List.mem_filterMap.mp he
    have hlog : w ∈ s.log e.record.topic :=
      List.mem_filter.mpr ⟨hw, decide_eq_true (topic_of_committed hwe).symm⟩
    obtain ⟨⟨tx, htx, hstatus, -⟩, -⟩ := hinv.call call c ((OrdMap.mem_toList_iff _).mp hc)
    have hcommitted := hall w hlog e hwe
    change s.world.broker.transactions[c.ptr]? = some tx at htx
    rw [hptr, htx, Option.map_some, hstatus] at hcommitted
    cases hp : c.phase with
    | done => exact hphase hp
    | creating => rw [hp] at hcommitted; cases hcommitted
    | producing => rw [hp] at hcommitted; cases hcommitted
    | failed e => rw [hp] at hcommitted; cases hcommitted

end Sys

/-- Read-committed isolation. In the first process on a directory, in every
interleaving of any calls that create their topics in directories of their own: the
calls of `ConsumeReadCommitted` on a topic return only records of committed
transactions (or of none) exactly when no commit that is under way or has failed has
appended a record to the topic. -/
theorem readCommitted_iff (json : RecordJson) (hjson : json.Faithful) (fs : FileTree)
    (dir : SlashPath) {b : Broker} (hb : newBroker true dir = .ok b)
    (hfs : ∀ name, ∀ p ∈ files (b.segmentDir name), fs p = none) {actions : List Action}
    {s : Sys} (hrun : exec (Sys.step json) (.init ⟨fs, b⟩) actions = some s)
    (hown : Guarded (Sys.step json) Sys.OwnDirs (.init ⟨fs, b⟩) actions) (topic : String) :
    s.ReadCommitted json topic ↔ s.Settled topic := by
  have hserves := Sys.serves_run hb hfs hrun hown
  rw [Sys.settled_iff (Sys.txInv_run hrun)]
  constructor
  · intro hread w hw e he
    -- read the one record
    obtain ⟨i, hi⟩ := List.mem_iff_getElem?.mp hw
    obtain ⟨recs, hrecs, hget⟩ := Sys.consumeReadCommitted_of_mem hserves hjson hi
    obtain ⟨w', hw', -, hcommitted⟩ := hread i 1 recs hrecs 0 w.record hget
    rw [Int.toNat_natCast, add_zero, hi] at hw'
    obtain rfl := Option.some.inj hw'
    exact hcommitted e he
  · intro hall fromOffset max recs hrecs i r hr
    obtain ⟨w, hw, hrec⟩ := Sys.log_of_consumeReadCommitted hserves hjson hrecs hr
    exact ⟨w, hw, hrec, hall w (List.mem_of_getElem? hw)⟩

/-- A transaction with one record for the topic `t`, up to the append of its commit. -/
def appendedSample : List Action :=
  [.beginTransaction "p" 1 0 0, .txProduce "p-1-0" "t" (asciiBytes "k") (asciiBytes "v") ∅,
    .commitStart 0 "p-1-0", .commitCreate 0 none, .commitProduce 0 ⟨0, 0, .ok⟩]

theorem readCommitted_iff_sample :
    ∃ s, exec (Sys.step sampleJson) (.init ⟨fun _ => none, .fresh ⟨true, ["d"]⟩⟩)
        (appendedSample ++ [.commitFinish 0]) = some s ∧
      s.world.consumeReadCommitted sampleJson "t" 0 10 = .ok [sampleRecord 0] ∧
      s.ReadCommitted sampleJson "t" := by
  obtain ⟨s, hrun, hread, hsettled⟩ : ∃ s, exec (Sys.step sampleJson)
        (.init ⟨fun _ => none, .fresh ⟨true, ["d"]⟩⟩) (appendedSample ++ [.commitFinish 0]) =
          some s ∧
      s.world.consumeReadCommitted sampleJson "t" 0 10 = .ok [sampleRecord 0] ∧
      s.Settled "t" :=
    exists_exec_of_any (by decide +kernel)
  exact ⟨s, hrun, hread, (readCommitted_iff sampleJson sampleJson_faithful (fun _ => none)
    ⟨true, ["d"]⟩ rfl (fun _ _ _ => rfl) hrun (by decide +kernel) "t").mpr hsettled⟩

/-- Between the append of a record and the end of its commit the record can be
read. -/
theorem not_readCommitted_committing :
    ∃ s, exec (Sys.step sampleJson) (.init ⟨fun _ => none, .fresh ⟨true, ["d"]⟩⟩)
        appendedSample = some s ∧
      s.world.consumeReadCommitted sampleJson "t" 0 10 = .ok [sampleRecord 0] ∧
      (s.world.broker.transactions[0]?).map Transaction.status = some .committing ∧
      ¬ s.ReadCommitted sampleJson "t" := by
  obtain ⟨s, hrun, hread, hstatus, hlog⟩ : ∃ s, exec (Sys.step sampleJson)
        (.init ⟨fun _ => none, .fresh ⟨true, ["d"]⟩⟩) appendedSample = some s ∧
      s.world.consumeReadCommitted sampleJson "t" 0 10 = .ok [sampleRecord 0] ∧
      (s.world.broker.transactions[0]?).map Transaction.status = some .committing ∧
      (s.log "t")[0]? = some ⟨.commit 0 "p-1-0" 0, "t", sampleRecord 0⟩ :=
    exists_exec_of_any (by decide +kernel)
  refine ⟨s, hrun, hread, hstatus, fun h => ?_⟩
  obtain ⟨w, hw, -, hcommitted⟩ := h 0 10 _ hread 0 _ rfl
  obtain rfl := Option.some.inj (hlog.symm.trans hw)
  have hnot := hcommitted _ rfl
  rw [hstatus] at hnot
  cases hnot

end StreamFlow
