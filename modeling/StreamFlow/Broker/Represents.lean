import StreamFlow.Broker.Basic
import StreamFlow.Broker.Segment.Reopen

/-!
# What a broker stores

Seen from outside, a broker and its files are a table of logs, one list of
records for each segment directory. `World.Represents json w disk` relates the
two: a topic the process has created is open on the log of its directory, and the
log of every other directory lies on the disk, where a later process may find it.

The operations act on the table as expected: `CreateTopic` keeps every log up to
the records an incomplete index file has lost, `Produce` extends one log by at
most one record, and a restart changes nothing.
-/

namespace StreamFlow

open BigEndian ByteFile Segment

/-- The directory of the only segment of a topic. -/
def Broker.segmentDir (b : Broker) (name : String) : SlashPath :=
  (b.dir.join name).join "000000"

theorem Broker.segmentDir_congr {b b' : Broker} (h : b'.dir = b.dir) :
    b'.segmentDir = b.segmentDir := by
  funext name
  rw [segmentDir, segmentDir, h]

namespace Segment

theorem eq_of_mem_files {a b p : SlashPath} (ha : p ∈ files a) (hb : p ∈ files b) : a = b := by
  have hplain : ∀ {q : SlashPath}, p ∈ files q →
      ∃ file, SlashPath.Plain file ∧ p = q.join file := by
    intro q hq
    simp only [files, List.mem_cons, List.not_mem_nil, or_false] at hq
    rcases hq with rfl | rfl | rfl
    · exact ⟨_, plain_log, rfl⟩
    · exact ⟨_, plain_index, rfl⟩
    · exact ⟨_, plain_timeIndex, rfl⟩
  obtain ⟨f, hf, rfl⟩ := hplain ha
  obtain ⟨g, hg, heq⟩ := hplain hb
  exact ((SlashPath.join_eq_join_iff hf hg).mp heq).1

variable {json : RecordJson} {fs fs' : FileTree} {s : Segment} {stored : List (ℤ × Record)}

theorem InDir.mem_files (h : s.InDir) {p : SlashPath} :
    p ∈ files s.path ↔ p ∈ [s.logPath, s.indexPath, s.timeIndex] := by
  rw [files, h.logPath, h.indexPath, h.timeIndex]

/-- A segment depends on the files of its own directory only. -/
theorem Sound.congr (h : s.Sound json fs stored)
    (hfs : ∀ p ∈ files s.path, fs'.contents p = fs.contents p) : s.Sound json fs' stored := by
  have hlog := hfs s.logPath (h.inDir.mem_files.mpr (by simp))
  have hindex := hfs s.indexPath (h.inDir.mem_files.mpr (by simp))
  refine ⟨h.of_keepsBefore ?_, ?_⟩
  · rw [hlog]
    exact KeepsBefore.refl h.position_le h.size_le
  · rw [hindex]
    exact h.index

end Segment

theorem OnDisk.congr {json : RecordJson} {fs fs' : FileTree} {path : SlashPath} {base : ℤ}
    {stored : List (ℤ × Record)} (h : OnDisk json fs path base stored)
    (hfs : ∀ p ∈ files path, fs'.contents p = fs.contents p) :
    OnDisk json fs' path base stored := by
  have hlog := hfs (path.join "segment.log") (by simp [files])
  have hindex := hfs (path.join "segment.index") (by simp [files])
  exact ⟨by rw [hlog]; exact h.frames, by rw [hlog]; exact h.count_le,
    by rw [hlog]; exact h.size_le, by rw [hindex]; exact h.index⟩

theorem Segment.loadIndexes_none_of_some {fault : Option OpenFault} {fs : FileTree} {s s' : Segment}
    (h : s.loadIndexes fault fs = some s') : s.loadIndexes none fs = some s' := by
  unfold loadIndexes at h ⊢
  simp only [reduceCtorEq, if_false]
  split at h
  · cases h
  · dsimp only at h
    split at h
    · exact h
    · split at h
      · cases h
      · exact h

/-- Whatever fails, `newSegment` changes no contents, and a segment it returns is
the one the directory describes. -/
theorem newSegment_cases {fault : Option OpenFault} {fs fs' : FileTree} {path : SlashPath}
    {start : ℤ} {res : Except BrokerError Segment}
    (h : newSegment fault fs path start = (fs', res)) :
    (∀ p, fs'.contents p = fs.contents p) ∧
      ∀ seg, res = .ok seg → seg = opened fs path start := by
  have hnone := newSegment_none fs path start
  unfold newSegment at h hnone
  simp only [reduceCtorEq, if_false] at hnone
  split at h
  · obtain ⟨rfl, rfl⟩ := Prod.mk.inj h
    exact ⟨fun _ => rfl, fun _ hc => by cases hc⟩
  split at h
  · obtain ⟨rfl, rfl⟩ := Prod.mk.inj h
    exact ⟨fun _ => rfl, fun _ hc => by cases hc⟩
  dsimp only at h hnone
  split at h
  · obtain ⟨rfl, rfl⟩ := Prod.mk.inj h
    exact ⟨fun _ => by simp, fun _ hc => by cases hc⟩
  split at h
  · obtain ⟨rfl, rfl⟩ := Prod.mk.inj h
    exact ⟨fun _ => by simp, fun _ hc => by cases hc⟩
  split at h
  · obtain ⟨rfl, rfl⟩ := Prod.mk.inj h
    exact ⟨fun _ => by simp, fun _ hc => by cases hc⟩
  · next seg hload =>
      -- the indexes were read, so no fault matters any more
      rw [loadIndexes_none_of_some hload] at hnone
      dsimp only at hnone
      rw [h] at hnone
      obtain ⟨rfl, rfl⟩ := Prod.mk.inj hnone
      exact ⟨fun _ => by simp, fun _ hok => (Except.ok.inj hok).symm⟩

/-- Every record of a log carries its place as its offset. -/
def Numbered (log : List Record) : Prop :=
  ∀ (i : ℕ) (r : Record), log[i]? = some r → r.offset = i

theorem Numbered.append_singleton {log : List Record} (h : Numbered log) {r : Record}
    (hr : r.offset = log.length) : Numbered (log ++ [r]) := by
  intro i r' hr'
  rw [List.getElem?_append] at hr'
  split at hr'
  · exact h i r' hr'
  · next hge =>
      obtain ⟨hlt, rfl⟩ := List.getElem?_eq_some_iff.mp hr'
      rw [List.length_singleton] at hlt
      rw [List.getElem_singleton, hr]
      omega

theorem Numbered.take {log : List Record} (h : Numbered log) (k : ℕ) : Numbered (log.take k) := by
  intro i r hr
  rw [List.getElem?_take] at hr
  split at hr
  · exact h i r hr
  · cases hr

theorem Numbered.map_offset {log : List Record} (h : Numbered log) :
    log.map Record.offset = (List.range log.length).map fun i : ℕ => (i : ℤ) := by
  apply List.ext_getElem
  · simp
  · intro i hi _
    have hlt : i < log.length := by simpa using hi
    simp [h i log[i] (List.getElem?_eq_getElem hlt)]

namespace Topic

theorem lastSegment_of_segments {t : Topic} {s : Segment} (h : t.segments = [s]) :
    t.lastSegment = s := by
  simp only [lastSegment, h, List.getLast_singleton]

theorem segments_setLastSegment {t : Topic} {s : Segment} (h : t.segments = [s]) (s' : Segment) :
    (t.setLastSegment s').segments = [s'] := by
  simp only [setLastSegment, h, List.dropLast_singleton, List.nil_append]

theorem setLastSegment_eq_self {t : Topic} {s : Segment} (h : t.segments = [s]) :
    t.setLastSegment s = t := by
  obtain ⟨name, dir, segments, nextOffset, hne⟩ := t
  obtain rfl : segments = [s] := h
  rfl

end Topic

namespace World

/-- The broker and its files hold the logs `disk`. -/
structure Represents (json : RecordJson) (w : World)
    (disk : SlashPath → List (ℤ × Record)) : Prop where
  topic : ∀ name topic, w.broker.topics[name]? = some topic →
    ∃ seg, topic.segments = [seg] ∧ seg.path = w.broker.segmentDir name ∧
      seg.Sound json w.fs (disk (w.broker.segmentDir name))
  closed : ∀ name, (∀ name' topic, w.broker.topics[name']? = some topic →
      w.broker.segmentDir name' ≠ w.broker.segmentDir name) →
    OnDisk json w.fs (w.broker.segmentDir name) 0 (disk (w.broker.segmentDir name))
  distinct : ∀ name topic name' topic', w.broker.topics[name]? = some topic →
    w.broker.topics[name']? = some topic' →
    w.broker.segmentDir name = w.broker.segmentDir name' → name = name'

/-- The index file of every directory has an entry for each record of its log. -/
def Indexed (w : World) (disk : SlashPath → List (ℤ × Record)) : Prop :=
  ∀ name, (disk (w.broker.segmentDir name)).length ≤
    (w.fs.contents ((w.broker.segmentDir name).join "segment.index")).length / 16

/-- No other topic is open on the directory of `name`. -/
def OwnDir (w : World) (name : String) : Prop :=
  ∀ name' topic, w.broker.topics[name']? = some topic →
    w.broker.segmentDir name' = w.broker.segmentDir name → name' = name

instance (w : World) (name : String) : Decidable (w.OwnDir name) :=
  decidable_of_iff
    (∀ e ∈ w.broker.topics.toList, w.broker.segmentDir e.1 = w.broker.segmentDir name → e.1 = name)
    ⟨fun h name' topic ht => h (name', topic) ((OrdMap.mem_toList_iff _).mpr ht),
      fun h e he => h e.1 e.2 ((OrdMap.mem_toList_iff _).mp he)⟩

section Insert

variable {w w' : World} {name : String} {topic : Topic}
  (hb : w'.broker = { w.broker with topics := w.broker.topics.insert name topic })
include hb

theorem topics_of_insert (name' : String) :
    w'.broker.topics[name']? = if name = name' then some topic else w.broker.topics[name']? := by
  rw [hb]
  exact OrdMap.getElem?_insert _ _ _ _

theorem segmentDir_of_insert : w'.broker.segmentDir = w.broker.segmentDir := by
  rw [hb]
  rfl

variable {disk : SlashPath → List (ℤ × Record)} (stored : List (ℤ × Record))

/-- The open logs when one topic gets another log. -/
theorem logs_of_insert {logs : String → List Record} (hown : w.OwnDir name)
    (hlogs : ∀ name topic, w.broker.topics[name]? = some topic →
      (disk (w.broker.segmentDir name)).map Prod.snd = logs name) (name' : String) (topic' : Topic)
    (ht' : w'.broker.topics[name']? = some topic') :
    (Function.update disk (w.broker.segmentDir name) stored (w'.broker.segmentDir name')).map
      Prod.snd = Function.update logs name (stored.map Prod.snd) name' := by
  rw [segmentDir_of_insert hb]
  rw [hb] at ht'
  rcases OrdMap.getElem?_insert_cases ht' with ⟨rfl, -⟩ | ⟨hne, ht'⟩
  · rw [Function.update_self, Function.update_self]
  · have hne' : w.broker.segmentDir name' ≠ w.broker.segmentDir name :=
      fun hc => hne (hown name' topic' ht' hc).symm
    rw [Function.update_of_ne hne', Function.update_of_ne (Ne.symm hne), hlogs name' topic' ht']

/-- A directory that is closed after a topic got another log was closed before, and keeps its
log. -/
theorem closed_of_insert {name' : String}
    (hno : ∀ name'' topic'', w'.broker.topics[name'']? = some topic'' →
      w'.broker.segmentDir name'' ≠ w'.broker.segmentDir name') :
    (∀ name'' topic'', w.broker.topics[name'']? = some topic'' →
        w.broker.segmentDir name'' ≠ w.broker.segmentDir name') ∧
      w'.broker.segmentDir name' ≠ w.broker.segmentDir name ∧
      Function.update disk (w.broker.segmentDir name) stored (w'.broker.segmentDir name') =
        disk (w.broker.segmentDir name') := by
  have hget := topics_of_insert hb
  rw [segmentDir_of_insert hb] at hno ⊢
  have hne := hno name topic (by rw [hget, if_pos rfl])
  refine ⟨fun name'' topic'' ht'' => ?_, hne.symm, Function.update_of_ne hne.symm _ _⟩
  by_cases heq : name = name''
  · exact hno name'' topic (by rw [hget, if_pos heq])
  · exact hno name'' topic'' (by rw [hget, if_neg heq, ht''])

end Insert

theorem segmentDir_createTopic (fault : Option CreateFault) (w : World) (name : String) :
    (w.createTopic fault name).1.broker.segmentDir = w.broker.segmentDir := by
  rcases createTopic_broker fault w name with hb | ⟨-, topic, hb⟩
  · rw [hb]
  · exact segmentDir_of_insert hb

theorem contents_createTopic (fault : Option CreateFault) (w : World) (name : String)
    (p : SlashPath) : (w.createTopic fault name).1.fs.contents p = w.fs.contents p := by
  rcases hc : w.createTopic fault name with ⟨w', res⟩
  cases createTopic_cases hc with
  | known => rfl
  | noDir => rfl
  | noSegment _ hnew => exact (newSegment_cases hnew).1 p
  | opened _ hnew => exact (newSegment_cases hnew).1 p

/-- Every directory stays indexed when the files of one are replaced and its index
covers its new log. -/
theorem Indexed.update {w : World} {disk : SlashPath → List (ℤ × Record)} (h : w.Indexed disk)
    {name : String} {fs : FileTree}
    (hfs : ∀ p, p ∉ files (w.broker.segmentDir name) → fs.contents p = w.fs.contents p)
    {stored : List (ℤ × Record)}
    (hfull : stored.length ≤
      (fs.contents ((w.broker.segmentDir name).join "segment.index")).length / 16)
    (topics : OrdMap String Topic) :
    Indexed ⟨fs, { w.broker with topics := topics }⟩
      (Function.update disk (w.broker.segmentDir name) stored) := by
  intro name'
  change (Function.update disk _ stored (w.broker.segmentDir name')).length ≤
    (fs.contents ((w.broker.segmentDir name').join "segment.index")).length / 16
  by_cases hdir : w.broker.segmentDir name' = w.broker.segmentDir name
  · rw [hdir, Function.update_self]
    exact hfull
  · have hsame := hfs ((w.broker.segmentDir name').join "segment.index") fun hmem =>
      hdir (eq_of_mem_files (List.mem_cons_of_mem _ List.mem_cons_self) hmem)
    rw [Function.update_of_ne hdir, hsame]
    exact h name'

namespace Represents

variable {json : RecordJson} {w : World} {disk : SlashPath → List (ℤ × Record)}

theorem ownDir (h : w.Represents json disk) {name : String} {topic : Topic}
    (ht : w.broker.topics[name]? = some topic) : w.OwnDir name :=
  fun name' topic' ht' hdir => h.distinct name' topic' name topic ht' ht hdir

/-- Replace the segment of one topic and the files of its directory. -/
theorem insert (h : w.Represents json disk) {name : String} (hown : w.OwnDir name)
    {topic : Topic} {seg : Segment} {fs : FileTree} {stored : List (ℤ × Record)}
    (hfs : ∀ p, p ∉ files (w.broker.segmentDir name) → fs.contents p = w.fs.contents p)
    (hseg : topic.segments = [seg]) (hpath : seg.path = w.broker.segmentDir name)
    (hsound : seg.Sound json fs stored) :
    Represents json
      ⟨fs, { w.broker with topics := w.broker.topics.insert name topic }⟩
      (Function.update disk (w.broker.segmentDir name) stored) := by
  have hother : ∀ path, path ≠ w.broker.segmentDir name →
      ∀ p ∈ files path, fs.contents p = w.fs.contents p :=
    fun path hne p hp => hfs p fun hp' => hne (eq_of_mem_files hp hp')
  refine ⟨?_, ?_, ?_⟩
  · intro name' topic' ht'
    rcases OrdMap.getElem?_insert_cases ht' with ⟨rfl, rfl⟩ | ⟨hne, ht'⟩
    · refine ⟨seg, hseg, hpath, ?_⟩
      change seg.Sound json fs (Function.update disk _ stored (w.broker.segmentDir name))
      rw [Function.update_self]
      exact hsound
    · obtain ⟨s, hs, hspath, hssound⟩ := h.topic name' topic' ht'
      have hdir : w.broker.segmentDir name' ≠ w.broker.segmentDir name :=
        fun hc => hne (hown name' topic' ht' hc).symm
      refine ⟨s, hs, hspath, ?_⟩
      change s.Sound json fs (Function.update disk _ stored (w.broker.segmentDir name'))
      rw [Function.update_of_ne hdir]
      exact hssound.congr (hspath ▸ hother _ hdir)
  · intro name' hclosed
    change OnDisk json fs (w.broker.segmentDir name')
      0 (Function.update disk _ stored (w.broker.segmentDir name'))
    have hdir : w.broker.segmentDir name' ≠ w.broker.segmentDir name := by
      refine (hclosed name topic ?_).symm
      exact OrdMap.getElem?_insert_self' _ _ _
    rw [Function.update_of_ne hdir]
    refine (h.closed name' ?_).congr (hother _ hdir)
    intro name'' topic'' ht''
    by_cases heq : name = name''
    · exact heq ▸ hdir.symm
    · exact hclosed name'' topic'' ((OrdMap.getElem?_insert_of_ne _ _ heq).trans ht'')
  · intro n₁ t₁ n₂ t₂ h₁ h₂ hdir
    rcases OrdMap.getElem?_insert_cases h₁ with ⟨rfl, -⟩ | ⟨-, h₁⟩ <;>
      rcases OrdMap.getElem?_insert_cases h₂ with ⟨rfl, -⟩ | ⟨-, h₂⟩
    · rfl
    · exact (hown n₂ t₂ h₂ hdir.symm).symm
    · exact hown n₁ t₁ h₁ hdir
    · exact h.distinct n₁ t₁ n₂ t₂ h₁ h₂ hdir

/-- A broker without topics: all logs lie on the disk. -/
theorem of_no_topics (ht : w.broker.topics = ∅)
    (h : ∀ name, OnDisk json w.fs (w.broker.segmentDir name) 0 (disk (w.broker.segmentDir name))) :
    w.Represents json disk := by
  have hget : ∀ (name : String) (topic : Topic), w.broker.topics[name]? ≠ some topic := by
    simp [ht]
  exact ⟨fun name topic ht => absurd ht (hget name topic), fun name _ => h name,
    fun name topic _ _ ht => absurd ht (hget name topic)⟩

/-- A new broker holds empty logs when no topic has left files. -/
theorem start {fs : FileTree} {b : Broker} (hb : b.topics = ∅)
    (hfs : ∀ name, ∀ p ∈ files (b.segmentDir name), fs p = none) :
    Represents json ⟨fs, b⟩ fun _ => [] := by
  refine of_no_topics hb fun name => ?_
  have hempty : ∀ p ∈ files (b.segmentDir name), fs.contents p = [] := by
    intro p hp
    rw [FileTree.contents, hfs name p hp, Option.getD_none]
  have hlog := hempty ((b.segmentDir name).join "segment.log") (by simp [files])
  have hindex := hempty ((b.segmentDir name).join "segment.index") (by simp [files])
  refine ⟨by simp, by simp, ?_, ?_⟩
  · simp [hlog, maxSize]
  · dsimp only
    rw [hindex]
    exact List.nil_prefix

/-- After a restart all logs lie on the disk. -/
theorem restart (h : w.Represents json disk) {b : Broker} (hb : b.topics = ∅)
    (hdir : b.dir = w.broker.dir) : Represents json ⟨w.fs, b⟩ disk := by
  have hsame : b.segmentDir = w.broker.segmentDir := Broker.segmentDir_congr hdir
  refine of_no_topics hb fun name => ?_
  change OnDisk json w.fs (b.segmentDir name) 0 (disk (b.segmentDir name))
  rw [hsame]
  by_cases hopen : ∃ name' topic, w.broker.topics[name']? = some topic ∧
      w.broker.segmentDir name' = w.broker.segmentDir name
  · obtain ⟨name', topic, ht, hdir⟩ := hopen
    obtain ⟨seg, -, hpath, hsound⟩ := h.topic name' topic ht
    have hdisk := hsound.onDisk
    rwa [hpath, hdir] at hdisk
  · exact h.closed name fun name' topic ht hdir => hopen ⟨name', topic, ht, hdir⟩

/-- The relation depends on the files, the directory and the topics only. -/
theorem congr_broker (h : w.Represents json disk) {b : Broker}
    (htopics : b.topics = w.broker.topics) (hdir : b.dir = w.broker.dir) :
    Represents json ⟨w.fs, b⟩ disk := by
  refine ⟨?_, ?_, ?_⟩ <;> dsimp only <;> rw [htopics, Broker.segmentDir_congr hdir]
  · exact h.topic
  · exact h.closed
  · exact h.distinct

/-- The relation reads the files of the segments only. -/
theorem congr_files (h : w.Represents json disk) {fs : FileTree}
    (hfs : ∀ name, ∀ p ∈ files (w.broker.segmentDir name), fs.contents p = w.fs.contents p) :
    Represents json ⟨fs, w.broker⟩ disk where
  topic := fun name topic ht => by
    obtain ⟨seg, hseg, hpath, hsound⟩ := h.topic name topic ht
    exact ⟨seg, hseg, hpath, hsound.congr (hpath ▸ hfs name)⟩
  closed := fun name hclosed => (h.closed name hclosed).congr (hfs name)
  distinct := h.distinct

/-- The relation reads contents only. -/
theorem congr (h : w.Represents json disk) {fs : FileTree}
    (hfs : ∀ p, fs.contents p = w.fs.contents p) : Represents json ⟨fs, w.broker⟩ disk :=
  h.congr_files fun _ p _ => hfs p

/-- `CreateTopic` opens at most the directory of its topic. What it loads there is
the log up to the records missing from the index file. -/
theorem createTopic (h : w.Represents json disk) {fault : Option CreateFault} {name : String}
    {w' : World} {res : Except BrokerError Topic} (hown : w.OwnDir name)
    (hc : w.createTopic fault name = (w', res)) :
    (w'.broker = w.broker ∧ w'.Represents json disk ∧
        ∀ topic, res = .ok topic → w.broker.topics[name]? = some topic) ∨
      ∃ topic, w.broker.topics[name]? = none ∧ res = .ok topic ∧ topic.nextOffset = 0 ∧
        w'.broker = { w.broker with topics := w.broker.topics.insert name topic } ∧
        w'.Represents json (Function.update disk (w.broker.segmentDir name)
          ((disk (w.broker.segmentDir name)).take
            ((w.fs.contents ((w.broker.segmentDir name).join "segment.index")).length / 16))) := by
  cases createTopic_cases hc with
  | known ht => exact Or.inl ⟨rfl, h, fun _ hok => Except.ok.inj hok ▸ ht⟩
  | noDir => exact Or.inl ⟨rfl, h, fun _ hok => by cases hok⟩
  | noSegment _ hnew =>
      exact Or.inl ⟨rfl, h.congr (newSegment_cases hnew).1, fun _ hok => by cases hok⟩
  | @opened fs seg topic hnone hnew hsegs hnext =>
      obtain ⟨hfs, hseg⟩ := newSegment_cases hnew
      obtain rfl := hseg seg rfl
      have hdisk := h.closed name fun name' topic ht hdir => by
        rw [hown name' topic ht hdir, hnone] at ht
        cases ht
      exact Or.inr ⟨topic, hnone, rfl, hnext, rfl,
        h.insert hown (fun p _ => hfs p) hsegs rfl (hdisk.opened_sound hfs)⟩

/-- An append to the segment of a topic stores its record or leaves the logs as they
are. -/
theorem append (h : w.Represents json disk) {name : String} {topic : Topic} {seg : Segment}
    (ht : w.broker.topics[name]? = some topic) (hseg : topic.segments = [seg])
    (hpath : seg.path = w.broker.segmentDir name)
    (hsound : seg.Sound json w.fs (disk (w.broker.segmentDir name)))
    {io : AppendIO} {record : Record} {fs : FileTree} {seg' : Segment}
    {r : Except BrokerError ℤ} (happ : seg.append json io w.fs record = (fs, seg', r)) :
    (∃ e, (seg.writeFrame json io w.fs record).2 = .error e ∧ r = .error e ∧ seg' = seg ∧
        Represents json ⟨fs, w.broker⟩ disk ∧
        (w.Indexed disk → Indexed ⟨fs, w.broker⟩ disk)) ∨
      (seg.writeFrame json io w.fs record).2.isOk = true ∧
        (∀ topic' : Topic, topic'.segments = [seg'] →
          Represents json ⟨fs, { w.broker with topics := w.broker.topics.insert name topic' }⟩
            (Function.update disk (w.broker.segmentDir name)
              (disk (w.broker.segmentDir name) ++ [(seg.position, record)]))) ∧
        (∀ topics, io.index = .done → w.Indexed disk →
          Indexed ⟨fs, { w.broker with topics := topics }⟩
            (Function.update disk (w.broker.segmentDir name)
              (disk (w.broker.segmentDir name) ++ [(seg.position, record)]))) ∧
        (r = .ok ((disk (w.broker.segmentDir name)).length : ℤ) ∧
            io.index = .done ∧ io.timeIndex = .done ∨
          r = .error .persistIndex ∧ ¬ (io.index = .done ∧ io.timeIndex = .done)) := by
  have hfs : ∀ p, p ∉ files (w.broker.segmentDir name) → fs.contents p = w.fs.contents p := by
    intro p hnot
    refine (append_cases happ hsound.toStores).1.contents_eq ?_
    rw [← hsound.inDir.mem_files, hpath]
    exact hnot
  have hindexPath : seg.indexPath = (w.broker.segmentDir name).join "segment.index" := by
    rw [hsound.inDir.indexPath, hpath]
  rcases hsound.append happ with
    ⟨e, hw, hr, hs', hsound', hsame⟩ | ⟨hw, hpath', hsound', hres, hfull⟩
  · rw [hindexPath] at hsame
    refine Or.inl ⟨e, hw, hr, hs', ?_, fun hindexed => ?_⟩
    · have hrep := h.insert (h.ownDir ht) hfs hseg hpath hsound'
      rwa [OrdMap.insert_eq_self _ ht, Function.update_eq_self] at hrep
    · have hkept := hindexed.update hfs (hsame ▸ hindexed name) w.broker.topics
      rwa [Function.update_eq_self] at hkept
  · rw [hindexPath] at hfull
    refine Or.inr ⟨hw, ?_, ?_, hres⟩
    · exact fun topic' hseg' =>
        h.insert (h.ownDir ht) hfs hseg' (hpath'.trans hpath) hsound'
    · intro topics hdone hindexed
      refine hindexed.update hfs ?_ topics
      rw [hfull hdone, List.length_append, List.length_singleton]
      omega

/-- `Produce` extends the log of its topic by one record, or changes nothing. It
fails after storing the record exactly when an index file was not written. -/
theorem produce (h : w.Represents json disk) {env : ProduceEnv} {name : String}
    {key value : Bytes} {headers : OrdMap String String} {w' : World}
    {res : Except BrokerError Record}
    (hp : w.produce json env name key value headers = (w', res)) :
    (w.appended json env name key value headers = none ∧ (∃ e, res = .error e) ∧
        w'.broker = w.broker ∧ w'.Represents json disk ∧ (w.Indexed disk → w'.Indexed disk)) ∨
      ∃ topic topic', w.broker.topics[name]? = some topic ∧
        w.appended json env name key value headers =
          some (newRecord topic env.timestamp key value headers) ∧
        w'.broker = { w.broker with topics := w.broker.topics.insert name topic' } ∧
        w'.Represents json (Function.update disk (w.broker.segmentDir name)
          (disk (w.broker.segmentDir name) ++
            [(topic.lastSegment.position, newRecord topic env.timestamp key value headers)])) ∧
        (res = .ok { newRecord topic env.timestamp key value headers with
              offset := (disk (w.broker.segmentDir name)).length } ∧
            topic'.nextOffset = (disk (w.broker.segmentDir name)).length + 1 ∧
            env.io.index = .done ∧ env.io.timeIndex = .done ∨
          res = .error .persistIndex ∧ topic'.nextOffset = topic.nextOffset ∧
            ¬ (env.io.index = .done ∧ env.io.timeIndex = .done)) ∧
        (env.io.index = .done → w.Indexed disk →
          w'.Indexed (Function.update disk (w.broker.segmentDir name)
            (disk (w.broker.segmentDir name) ++
              [(topic.lastSegment.position,
                newRecord topic env.timestamp key value headers)]))) := by
  cases produce_cases hp with
  | draining hdrain => exact Or.inl ⟨if_pos hdrain, ⟨_, rfl⟩, rfl, h, id⟩
  | noTopic _ ht => exact Or.inl ⟨by simp [appended, ht], ⟨_, rfl⟩, rfl, h, id⟩
  | @failed topic fs seg' e hdrain ht happ =>
      obtain ⟨seg, hseg, hpath, hsound⟩ := h.topic name topic ht
      rw [appended_of_topic hdrain ht]
      have hlast := Topic.lastSegment_of_segments hseg
      rw [hlast] at happ ⊢
      rcases h.append ht hseg hpath hsound happ with
        ⟨e', hw, -, rfl, hrep, hindexed⟩ | ⟨hw, hrep, hindexed, ⟨hr, -⟩ | ⟨hr, hio⟩⟩
      · rw [hw, Topic.setLastSegment_eq_self hseg, OrdMap.insert_eq_self _ ht]
        exact Or.inl ⟨rfl, ⟨e, rfl⟩, rfl, hrep, hindexed⟩
      · cases hr
      · obtain rfl := Except.error.inj hr
        rw [if_pos hw]
        refine Or.inr ⟨topic, _, ht, rfl, rfl, ?_, Or.inr ⟨rfl, rfl, hio⟩, ?_⟩
        · rw [hlast]
          exact hrep _ (Topic.segments_setLastSegment hseg seg')
        · rw [hlast]
          exact hindexed _
  | @appended topic fs seg' offset hdrain ht happ =>
      obtain ⟨seg, hseg, hpath, hsound⟩ := h.topic name topic ht
      rw [appended_of_topic hdrain ht]
      have hlast := Topic.lastSegment_of_segments hseg
      rw [hlast] at happ ⊢
      rcases h.append ht hseg hpath hsound happ with
        ⟨e, -, hr, -⟩ | ⟨hw, hrep, hindexed, ⟨hr, hi, htime⟩ | ⟨hr, -⟩⟩
      · cases hr
      · obtain rfl := Except.ok.inj hr
        rw [if_pos hw]
        refine Or.inr ⟨topic, _, ht, rfl, rfl, ?_, Or.inl ⟨rfl, rfl, hi, htime⟩, ?_⟩
        · rw [hlast]
          exact hrep _ (Topic.segments_setLastSegment hseg seg')
        · rw [hlast]
          exact hindexed _
      · cases hr

/-- With one segment, `Consume` is `ReadRange`. -/
theorem consume_eq (h : w.Represents json disk) {name : String} {topic : Topic}
    (ht : w.broker.topics[name]? = some topic) (fromOffset max : ℤ) :
    ∃ seg, topic.segments = [seg] ∧ seg.path = w.broker.segmentDir name ∧
      seg.Sound json w.fs (disk (w.broker.segmentDir name)) ∧
      w.consume json name fromOffset max = seg.readRange json w.fs fromOffset max := by
  obtain ⟨seg, hseg, hpath, hsound⟩ := h.topic name topic ht
  refine ⟨seg, hseg, hpath, hsound, ?_⟩
  have hmax : effectiveMax (effectiveMax max - (0 : ℕ)) = effectiveMax max := by
    unfold effectiveMax
    split <;> simp_all
  rw [consume, ht]
  dsimp only
  rw [hseg, consumeLoop, List.length_nil, readRange, hmax, ← readRange]
  cases seg.readRange json w.fs fromOffset max with
  | error e => rfl
  | ok recs =>
      dsimp only [consumeLoop]
      rw [List.nil_append, ite_self]

/-- `FetchRaw` finds the payload of every record of a log. -/
theorem fetchRaw_eq (h : w.Represents json disk) {name : String} {topic : Topic}
    (ht : w.broker.topics[name]? = some topic) {i : ℕ} {e : ℤ × Record}
    (he : (disk (w.broker.segmentDir name))[i]? = some e) :
    ∃ payload, json.marshal e.2 = some payload ∧
      slice (w.fs.contents ((w.broker.segmentDir name).join "segment.log")) (e.1 + 4)
        payload.length = some payload ∧
      w.fetchRaw name i =
        .ok ((w.broker.segmentDir name).join "segment.log", e.1 + 4, payload.length) := by
  obtain ⟨seg, hseg, hpath, hsound⟩ := h.topic name topic ht
  obtain ⟨payload, hm, hlen, -, -, hsize, hbody⟩ := hsound.frames e (List.mem_of_getElem? he)
  have hoffset := hsound.getElem?_offsets he
  rw [zero_add] at hoffset
  have hlog : (w.broker.segmentDir name).join "segment.log" = seg.logPath := by
    rw [hsound.inDir.logPath, hpath]
  refine ⟨payload, hm, by rw [hlog, hbody], ?_⟩
  rw [fetchRaw, ht]
  dsimp only
  rw [hseg, fetchRawLoop, hoffset]
  dsimp only
  rw [hsize]
  dsimp only
  rw [uint32_putUint32 hlen, hlog]

/-- An offset that the index of a topic knows belongs to a record of its log. -/
theorem exists_of_getElem?_offsets (h : w.Represents json disk) {name : String} {topic : Topic}
    (ht : w.broker.topics[name]? = some topic) {seg : Segment} (hseg : seg ∈ topic.segments)
    {o pos : ℤ} (hpos : seg.offsets[o]? = some pos) :
    ∃ (i : ℕ) (e : ℤ × Record), (disk (w.broker.segmentDir name))[i]? = some e ∧ o = i := by
  obtain ⟨seg', hsegs, -, hsound⟩ := h.topic name topic ht
  obtain rfl : seg = seg' := by simpa [hsegs] using hseg
  obtain ⟨i, r, hget, hi⟩ := hsound.getElem?_offsets_iff.mp hpos
  exact ⟨i, (pos, r), hget, by rw [hi, zero_add]⟩

end Represents

/-- An extent that `FetchRaw` returns comes from an index entry of the topic. -/
theorem exists_of_fetchRaw_eq_ok {w : World} {name : String} {o : ℤ}
    {ext : SlashPath × ℤ × ℤ} (h : w.fetchRaw name o = .ok ext) :
    ∃ topic, w.broker.topics[name]? = some topic ∧
      ∃ seg ∈ topic.segments, ∃ pos, seg.offsets[o]? = some pos := by
  have hloop : ∀ segments : List Segment, fetchRawLoop w.fs o segments = .ok ext →
      ∃ seg ∈ segments, ∃ pos, seg.offsets[o]? = some pos := by
    intro segments hok
    induction segments with
    | nil => cases hok
    | cons seg segments ih =>
        rw [fetchRawLoop] at hok
        cases hpos : seg.offsets[o]? with
        | some pos => exact ⟨seg, List.mem_cons_self, pos, hpos⟩
        | none =>
            rw [hpos] at hok
            obtain ⟨seg', hmem, hfound⟩ := ih hok
            exact ⟨seg', List.mem_cons_of_mem _ hmem, hfound⟩
  rw [fetchRaw] at h
  cases ht : w.broker.topics[name]? with
  | none =>
      rw [ht] at h
      cases h
  | some topic =>
      rw [ht] at h
      exact ⟨topic, rfl, hloop topic.segments h⟩

/-- A broker in the first process on its directory holds the logs `logs`, one for
each topic name. -/
structure Serves (json : RecordJson) (w : World) (logs : String → List Record) : Prop where
  represents : ∃ disk, w.Represents json disk ∧
    (∀ name topic, w.broker.topics[name]? = some topic →
      (disk (w.broker.segmentDir name)).map Prod.snd = logs name) ∧
    ∀ name, (∀ name' topic, w.broker.topics[name']? = some topic →
        w.broker.segmentDir name' ≠ w.broker.segmentDir name) →
      disk (w.broker.segmentDir name) = []
  unknown : ∀ name, w.broker.topics[name]? = none → logs name = []

namespace Serves

variable {json : RecordJson} {w : World} {logs : String → List Record}

theorem start {fs : FileTree} {b : Broker} (hb : b.topics = ∅)
    (hfs : ∀ name, ∀ p ∈ files (b.segmentDir name), fs p = none) :
    Serves json ⟨fs, b⟩ fun _ => [] :=
  ⟨⟨fun _ => [], Represents.start hb hfs, fun _ _ _ => rfl, fun _ _ => rfl⟩, fun _ _ => rfl⟩

/-- The logs depend on the files and the topics of a broker only. -/
theorem congr_broker (h : w.Serves json logs) {b : Broker} (htopics : b.topics = w.broker.topics)
    (hdir : b.dir = w.broker.dir) : Serves json ⟨w.fs, b⟩ logs := by
  obtain ⟨⟨disk, hrep, hlogs, hclosed⟩, hunknown⟩ := h
  refine ⟨⟨disk, hrep.congr_broker htopics hdir, ?_, ?_⟩, ?_⟩ <;> dsimp only <;> rw [htopics]
  · rw [Broker.segmentDir_congr hdir]
    exact hlogs
  · rw [Broker.segmentDir_congr hdir]
    exact hclosed
  · exact hunknown

/-- Replace the topic `name` and its log. -/
theorem insert {disk : SlashPath → List (ℤ × Record)}
    (hlogs : ∀ name topic, w.broker.topics[name]? = some topic →
      (disk (w.broker.segmentDir name)).map Prod.snd = logs name)
    (hclosed : ∀ name, (∀ name' topic, w.broker.topics[name']? = some topic →
        w.broker.segmentDir name' ≠ w.broker.segmentDir name) →
      disk (w.broker.segmentDir name) = [])
    (hunknown : ∀ name, w.broker.topics[name]? = none → logs name = [])
    {name : String} (hown : w.OwnDir name) {w' : World} {topic : Topic}
    (hb : w'.broker = { w.broker with topics := w.broker.topics.insert name topic })
    {stored : List (ℤ × Record)}
    (hrep : w'.Represents json (Function.update disk (w.broker.segmentDir name) stored)) :
    w'.Serves json (Function.update logs name (stored.map Prod.snd)) := by
  refine ⟨⟨_, hrep, logs_of_insert hb stored hown hlogs, fun name' hno => ?_⟩, ?_⟩
  · obtain ⟨hno, -, hdisk⟩ := closed_of_insert hb stored hno
    rw [hdisk, hclosed name' hno]
  · intro name' hnone
    rw [topics_of_insert hb] at hnone
    split at hnone
    · cases hnone
    · next hne => rw [Function.update_of_ne (Ne.symm hne), hunknown name' hnone]

/-- Creating a topic changes no log: a new topic starts with an empty one. -/
theorem createTopic (h : w.Serves json logs) {fault : Option CreateFault} {name : String}
    {w' : World} {res : Except BrokerError Topic} (hown : w.OwnDir name)
    (hc : w.createTopic fault name = (w', res)) :
    w'.Serves json logs ∧
      (w'.broker = w.broker ∨ ∃ topic, w.broker.topics[name]? = none ∧ topic.nextOffset = 0 ∧
        w'.broker = { w.broker with topics := w.broker.topics.insert name topic }) := by
  obtain ⟨⟨disk, hrep, hlogs, hclosed⟩, hunknown⟩ := h
  rcases hrep.createTopic hown hc with
    ⟨hb, hrep', -⟩ | ⟨topic, hnone, -, hzero, hb, hrep'⟩
  · refine ⟨⟨⟨disk, hrep', ?_⟩, ?_⟩, Or.inl hb⟩
    · rw [hb]
      exact ⟨hlogs, hclosed⟩
    · rw [hb]
      exact hunknown
  · have hempty := hclosed name fun name' topic ht hdir => by
      rw [hown name' topic ht hdir, hnone] at ht
      cases ht
    have hserves := insert hlogs hclosed hunknown hown hb hrep'
    rw [hempty, List.take_nil, List.map_nil, ← hunknown name hnone, Function.update_eq_self]
      at hserves
    exact ⟨hserves, Or.inr ⟨topic, hnone, hzero, hb⟩⟩

/-- `Produce` extends one log by the record it has written, if any. -/
theorem produce (h : w.Serves json logs) {env : ProduceEnv} {name : String}
    {key value : Bytes} {headers : OrdMap String String} {w' : World}
    {res : Except BrokerError Record}
    (hp : w.produce json env name key value headers = (w', res)) :
    (w.appended json env name key value headers = none ∧ (∃ e, res = .error e) ∧
        w'.broker = w.broker ∧ w'.Serves json logs) ∨
      ∃ topic topic', w.broker.topics[name]? = some topic ∧
        w.appended json env name key value headers =
          some (newRecord topic env.timestamp key value headers) ∧
        w'.broker = { w.broker with topics := w.broker.topics.insert name topic' } ∧
        w'.Serves json (Function.update logs name
          (logs name ++ [newRecord topic env.timestamp key value headers])) ∧
        (res = .ok { newRecord topic env.timestamp key value headers with
              offset := (logs name).length } ∧
            topic'.nextOffset = (logs name).length + 1 ∧
            env.io.index = .done ∧ env.io.timeIndex = .done ∨
          res = .error .persistIndex ∧ topic'.nextOffset = topic.nextOffset ∧
            ¬ (env.io.index = .done ∧ env.io.timeIndex = .done)) := by
  obtain ⟨⟨disk, hrep, hlogs, hclosed⟩, hunknown⟩ := h
  rcases hrep.produce hp with
    ⟨hnone, herr, hb, hrep', -⟩ | ⟨topic, topic', ht, happ, hb, hrep', hres, -⟩
  · refine Or.inl ⟨hnone, herr, hb, ⟨disk, hrep', ?_⟩, ?_⟩
    · rw [hb]
      exact ⟨hlogs, hclosed⟩
    · rw [hb]
      exact hunknown
  · have hserves := insert hlogs hclosed hunknown (hrep.ownDir ht) hb hrep'
    have hlen : (disk (w.broker.segmentDir name)).length = (logs name).length := by
      rw [← hlogs name topic ht, List.length_map]
    rw [List.map_append, hlogs name topic ht] at hserves
    rw [hlen] at hres
    exact Or.inr ⟨topic, topic', ht, happ, hb, hserves, hres⟩

/-- `Consume` reads a block of a log. -/
theorem consume_eq (h : w.Serves json logs) {f : Record → Record} (hjson : json.Decodes f)
    {name : String} {topic : Topic} (ht : w.broker.topics[name]? = some topic)
    (fromOffset max : ℤ) :
    w.consume json name fromOffset max =
      .ok ((((logs name).map f).drop fromOffset.toNat).take (effectiveMax max).toNat) := by
  obtain ⟨⟨disk, hrep, hlogs, -⟩, -⟩ := h
  obtain ⟨seg, -, -, hsound, hread⟩ := hrep.consume_eq ht fromOffset max
  rw [hread, hsound.readRange_eq hjson, hlogs name topic ht, sub_zero]

end Serves

/-- The broker serves the logs, and the counters of its topics agree with them. -/
structure Counted (json : RecordJson) (w : World) (logs : String → List Record) : Prop where
  serves : w.Serves json logs
  counters : ∀ (name : String) (t : Topic), w.broker.topics[name]? = some t →
    t.nextOffset = (logs name).length

namespace Counted

variable {json : RecordJson} {w w' : World} {logs : String → List Record} {name : String}

theorem start {fs : FileTree} {b : Broker} (hb : b.topics = ∅)
    (hfs : ∀ name, ∀ p ∈ files (b.segmentDir name), fs p = none) :
    Counted json ⟨fs, b⟩ fun _ => [] :=
  ⟨Serves.start hb hfs, fun name t ht => by simp [hb] at ht⟩

theorem congr_broker (h : w.Counted json logs) {b : Broker} (htopics : b.topics = w.broker.topics)
    (hdir : b.dir = w.broker.dir) : Counted json ⟨w.fs, b⟩ logs :=
  ⟨h.serves.congr_broker htopics hdir, by rw [htopics]; exact h.counters⟩

/-- The counter of a topic just created is 0. -/
theorem createTopic (h : w.Counted json logs) {fault : Option CreateFault}
    {res : Except BrokerError Topic} (hown : w.OwnDir name)
    (hc : w.createTopic fault name = (w', res)) : w'.Counted json logs := by
  obtain ⟨hserves, hb⟩ := h.serves.createTopic hown hc
  refine ⟨hserves, ?_⟩
  rcases hb with hb | ⟨t, hnone, hzero, hb⟩
  · rw [hb]
    exact h.counters
  · intro name' t' ht'
    rw [hb] at ht'
    rcases OrdMap.getElem?_insert_cases ht' with ⟨rfl, rfl⟩ | ⟨-, ht'⟩
    · rw [hzero, h.serves.unknown name hnone]
      rfl
    · exact h.counters name' t' ht'

/-- A `Produce` that can write the index files adds the record it returns to the log, or
fails without a change. -/
theorem produce (h : w.Counted json logs) {env : ProduceEnv} {key value : Bytes}
    {headers : OrdMap String String} {res : Except BrokerError Record}
    (hindex : env.io.index = .done) (htime : env.io.timeIndex = .done)
    (hp : w.produce json env name key value headers = (w', res)) :
    (∃ e, res = .error e ∧ w'.broker = w.broker ∧ w'.Counted json logs) ∨
      ∃ rec topics, res = .ok rec ∧ rec.offset = (logs name).length ∧
        w'.broker = { w.broker with topics := topics } ∧
        w'.Counted json (Function.update logs name (logs name ++ [rec])) := by
  rcases h.serves.produce hp with ⟨-, ⟨e, rfl⟩, hb, hserves⟩ |
    ⟨t, t', ht, -, hb, hserves, ⟨rfl, hnext, -⟩ | ⟨-, -, hio⟩⟩
  · exact Or.inl ⟨e, rfl, hb, hserves, by rw [hb]; exact h.counters⟩
  · -- the counter of the topic is the offset that the segment gave the record
    rw [← h.counters name t ht]
    refine Or.inr ⟨_, _, rfl, rfl, hb, hserves, fun name' t'' ht'' => ?_⟩
    rw [hb] at ht''
    rcases OrdMap.getElem?_insert_cases ht'' with ⟨rfl, rfl⟩ | ⟨hne, ht''⟩
    · rw [Function.update_self, hnext]
      simp
    · rw [Function.update_of_ne (Ne.symm hne)]
      exact h.counters name' t'' ht''
  · exact absurd ⟨hindex, htime⟩ hio

end Counted

end World

end StreamFlow
