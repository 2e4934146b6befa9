import StreamFlow.Broker.Represents
import StreamFlow.Broker.Segment.Frame

/-!
# Where topics write

A topic has one segment, and all that `Produce` writes are the three files in the directory of
that segment (`World.produce_own`). The converse is `SameFiles`: two file trees that are alike in
a segment directory cannot be told apart by opening the directory, by appending to it or by
reading it, and stay alike. It does not matter to any of them whether an empty log or an empty
index is there or missing; a missing time index does matter to `newSegment`.
-/

namespace StreamFlow

open BigEndian ByteFile Segment

/-- A topic has one segment, whose files lie in the directory of the segment. -/
def Topic.InDir (t : Topic) (path : SlashPath) : Prop :=
  ∃ s, t.segments = [s] ∧ s.InDir ∧ s.path = path

/-- The files of a segment directory are the same to all operations. -/
structure SameFiles (path : SlashPath) (fs fs' : FileTree) : Prop where
  log : fs'.contents (path.join "segment.log") = fs.contents (path.join "segment.log")
  index : fs'.contents (path.join "segment.index") = fs.contents (path.join "segment.index")
  timeIndex : fs' (path.join "segment.timeindex") = fs (path.join "segment.timeindex")

namespace SameFiles

variable {path : SlashPath} {fs fs₁ fs₂ : FileTree}

theorem refl (path : SlashPath) (fs : FileTree) : SameFiles path fs fs := ⟨rfl, rfl, rfl⟩

theorem symm (h : SameFiles path fs fs₁) : SameFiles path fs₁ fs :=
  ⟨h.log.symm, h.index.symm, h.timeIndex.symm⟩

theorem trans (h : SameFiles path fs fs₁) (h' : SameFiles path fs₁ fs₂) : SameFiles path fs fs₂ :=
  ⟨h'.log.trans h.log, h'.index.trans h.index, h'.timeIndex.trans h.timeIndex⟩

/-- Writing in another directory. -/
theorem of_eqOff {path' : SlashPath} (h : FileTree.EqOff (files path') fs fs₁)
    (hne : path ≠ path') : SameFiles path fs fs₁ := by
  have hother : ∀ p ∈ files path, p ∉ files path' := fun p hp hp' => hne (eq_of_mem_files hp hp')
  exact ⟨h.contents_eq (hother _ (by simp [files])), h.contents_eq (hother _ (by simp [files])),
    h _ (hother _ (by simp [files]))⟩

/-- The same is written to a file in both trees. -/
theorem set {fs' : FileTree} (h : SameFiles path fs fs') (p : SlashPath) {c c' : Option Bytes}
    (hc : c'.getD [] = c.getD []) (htime : p = path.join "segment.timeindex" → c' = c) :
    SameFiles path (fs.set p c) (fs'.set p c') := by
  have hcontents : ∀ q, fs'.contents q = fs.contents q →
      (fs'.set p c').contents q = (fs.set p c).contents q := by
    intro q hq
    by_cases heq : q = p
    · subst heq
      rw [FileTree.contents, FileTree.contents, FileTree.set_self, FileTree.set_self, hc]
    · rw [FileTree.contents, FileTree.contents, FileTree.set_of_ne _ _ heq,
        FileTree.set_of_ne _ _ heq]
      exact hq
  refine ⟨hcontents _ h.log, hcontents _ h.index, ?_⟩
  by_cases heq : path.join "segment.timeindex" = p
  · rw [heq, FileTree.set_self, FileTree.set_self, htime heq.symm]
  · rw [FileTree.set_of_ne _ _ heq, FileTree.set_of_ne _ _ heq, h.timeIndex]

theorem writeAt {fs' : FileTree} (h : SameFiles path fs fs') (off : ℤ) (data : Bytes)
    (o : WriteOutcome) :
    (fs'.writeAt (path.join "segment.log") off data o).2 =
        (fs.writeAt (path.join "segment.log") off data o).2 ∧
      SameFiles path (fs.writeAt (path.join "segment.log") off data o).1
        (fs'.writeAt (path.join "segment.log") off data o).1 := by
  unfold FileTree.writeAt
  dsimp only
  rw [h.log]
  exact ⟨rfl, h.set _ rfl fun _ => rfl⟩

theorem writeFile {fs' : FileTree} (h : SameFiles path fs fs') {p : SlashPath}
    (hp : p = path.join "segment.index" ∨ p = path.join "segment.timeindex") (data : Bytes)
    (o : ReplaceOutcome) : SameFiles path (fs.writeFile p data o).1 (fs'.writeFile p data o).1 := by
  rw [FileTree.writeFile_eq, FileTree.writeFile_eq]
  have hold : (fs' p).getD [] = (fs p).getD [] := by
    rcases hp with rfl | rfl
    · exact h.index
    · rw [h.timeIndex]
  refine h.set p ?_ fun heq => ?_
  · cases o <;> first | rfl | exact hold
  · rw [heq, h.timeIndex]

end SameFiles

/-- Opening a segment changes no directory, its own included. -/
theorem sameFiles_newSegment {fault : Option OpenFault} {fs fs' : FileTree} {path : SlashPath}
    {start : ℤ} {res : Except BrokerError Segment}
    (h : newSegment fault fs path start = (fs', res)) (path' : SlashPath) :
    SameFiles path' fs fs' := by
  have hcreate : ∀ (fs : FileTree) (file : String), SlashPath.Plain file →
      file ≠ "segment.timeindex" → SameFiles path' fs (fs.create (path.join file)) := by
    intro fs file hplain hne
    refine ⟨FileTree.contents_create _ _ _, FileTree.contents_create _ _ _,
      FileTree.create_of_ne _ fun heq => hne ?_⟩
    exact (((SlashPath.join_eq_join_iff plain_timeIndex hplain).mp heq).2).symm
  have hlog := hcreate fs "segment.log" plain_log (by decide)
  have hboth := hlog.trans
    (hcreate (fs.create (path.join "segment.log")) "segment.index" plain_index (by decide))
  rw [show fs' = (newSegment fault fs path start).1 by rw [h], newSegment]
  dsimp only
  split
  · exact .refl _ _
  split
  · exact .refl _ _
  split
  · exact hlog
  split
  · exact hlog
  split
  · exact hboth
  · split <;> exact hboth

theorem Segment.loadIndexes_congr {fs fs' : FileTree} (s : Segment)
    (hindex : fs'.contents s.indexPath = fs.contents s.indexPath)
    (htime : fs' s.timeIndex = fs s.timeIndex) (fault : Option OpenFault) :
    s.loadIndexes fault fs' = s.loadIndexes fault fs := by
  unfold loadIndexes
  simp only [hindex, foldl_loadEntry, htime]

/-- What `newSegment` returns depends on the files of its directory. -/
theorem newSegment_congr {fs fs' : FileTree} {path : SlashPath} (h : SameFiles path fs fs')
    (fault : Option OpenFault) (start : ℤ) :
    (newSegment fault fs' path start).2 = (newSegment fault fs path start).2 := by
  unfold newSegment
  dsimp only
  split
  · rfl
  split
  · rfl
  split
  · rfl
  split
  · rfl
  have hload : ∀ s : Segment, s.indexPath = path.join "segment.index" →
      s.timeIndex = path.join "segment.timeindex" →
      s.loadIndexes fault
          ((fs'.create (path.join "segment.log")).create (path.join "segment.index")) =
        s.loadIndexes fault
          ((fs.create (path.join "segment.log")).create (path.join "segment.index")) := by
    intro s hindex htime
    refine s.loadIndexes_congr ?_ ?_ fault
    · simp [hindex, h.index]
    · rw [htime, create_timeIndex, create_timeIndex, h.timeIndex]
  simp only [FileTree.contents_create, h.log]
  rw [hload _ rfl rfl]
  split
  · rfl
  · split <;> rfl

namespace Segment

variable {fs fs' : FileTree} {s : Segment}

theorem writeFrame_congr (json : RecordJson) (hdir : s.InDir) (h : SameFiles s.path fs fs')
    (io : AppendIO) (record : Record) :
    (s.writeFrame json io fs' record).2 = (s.writeFrame json io fs record).2 ∧
      SameFiles s.path (s.writeFrame json io fs record).1
        (s.writeFrame json io fs' record).1 := by
  unfold writeFrame
  cases json.marshal record with
  | none => exact ⟨rfl, h⟩
  | some payload =>
      dsimp only
      split
      · exact ⟨rfl, h⟩
      · rw [hdir.logPath]
        obtain ⟨hok, h₁⟩ := h.writeAt s.position (putUint32 payload.length) io.lengthWrite
        rcases hw : fs.writeAt (s.path.join "segment.log") s.position
          (putUint32 payload.length) io.lengthWrite with ⟨fs₁, ok⟩
        rcases hw' : fs'.writeAt (s.path.join "segment.log") s.position
          (putUint32 payload.length) io.lengthWrite with ⟨fs₁', ok'⟩
        rw [hw, hw'] at hok h₁
        obtain rfl : ok' = ok := hok
        cases ok' with
        | false => exact ⟨rfl, h₁⟩
        | true =>
            obtain ⟨hok₂, h₂⟩ := h₁.writeAt (s.position + 4) payload io.payloadWrite
            rcases hv : fs₁.writeAt (s.path.join "segment.log") (s.position + 4) payload
              io.payloadWrite with ⟨fs₂, ok₂⟩
            rcases hv' : fs₁'.writeAt (s.path.join "segment.log") (s.position + 4) payload
              io.payloadWrite with ⟨fs₂', ok₂'⟩
            dsimp only at hok₂ h₂ ⊢
            rw [hv, hv'] at hok₂ h₂ ⊢
            obtain rfl : ok₂' = ok₂ := hok₂
            cases ok₂' <;> exact ⟨rfl, h₂⟩

theorem persistIndexes_congr (hdir : s.InDir) (h : SameFiles s.path fs fs') (io : AppendIO) :
    (s.persistIndexes io fs').2 = (s.persistIndexes io fs).2 ∧
      SameFiles s.path (s.persistIndexes io fs).1 (s.persistIndexes io fs').1 := by
  have hindex := h.writeFile (.inl hdir.indexPath) (indexBuf s.offsets) io.index
  have hboth := hindex.writeFile (.inr hdir.timeIndex) (timeBuf s.timeOffsets) io.timeIndex
  simp only [persistIndexes, FileTree.writeFile_eq] at hindex hboth ⊢
  cases hdone : decide (io.index = .done) with
  | false => exact ⟨rfl, hindex⟩
  | true => exact ⟨rfl, hboth⟩

/-- An append does the same where the files of its segment are the same. -/
theorem append_congr (json : RecordJson) (hdir : s.InDir) (h : SameFiles s.path fs fs')
    (io : AppendIO) (record : Record) :
    (s.append json io fs' record).2 = (s.append json io fs record).2 ∧
      SameFiles s.path (s.append json io fs record).1 (s.append json io fs' record).1 := by
  obtain ⟨hres, h₁⟩ := writeFrame_congr json hdir h io record
  unfold append
  rcases hw : s.writeFrame json io fs record with ⟨fs₁, res⟩
  rcases hw' : s.writeFrame json io fs' record with ⟨fs₁', res'⟩
  rw [hw, hw'] at hres h₁
  obtain rfl : res' = res := hres
  cases res' with
  | error e => exact ⟨rfl, h₁⟩
  | ok length =>
      have hdir' : (s.advance record length).InDir :=
        ⟨hdir.logPath, hdir.indexPath, hdir.timeIndex⟩
      obtain ⟨hok, h₂⟩ := persistIndexes_congr hdir' h₁ io
      dsimp only
      rcases hp : (s.advance record length).persistIndexes io fs₁ with ⟨fs₂, ok⟩
      rcases hp' : (s.advance record length).persistIndexes io fs₁' with ⟨fs₂', ok'⟩
      rw [hp, hp'] at hok h₂
      obtain rfl : ok' = ok := hok
      cases ok' <;> exact ⟨rfl, h₂⟩

end Segment

namespace Topic.InDir

variable {t : Topic} {path : SlashPath}

theorem setLastSegment {s s' : Segment} (hsegs : t.segments = [s]) (hdir : s.InDir)
    (hpath : s.path = path) {record : Record}
    (hs' : s' = s ∨ ∃ length, s' = s.advance record length) : (t.setLastSegment s').InDir path := by
  refine ⟨s', Topic.segments_setLastSegment hsegs s', ?_⟩
  rcases hs' with rfl | ⟨length, rfl⟩
  · exact ⟨hdir, hpath⟩
  · exact ⟨⟨hdir.logPath, hdir.indexPath, hdir.timeIndex⟩, hpath⟩

end Topic.InDir

namespace World

variable {json : RecordJson} {w w' : World} {name : String} {t : Topic} {path : SlashPath}

theorem produce_of_none (ht : w.broker.topics[name]? = none) (json : RecordJson) (env : ProduceEnv)
    (key value : Bytes) (headers : OrdMap String String) :
    (w.produce json env name key value headers).1 = w := by
  rcases hp : w.produce json env name key value headers with ⟨w', res⟩
  cases produce_cases hp with
  | draining => rfl
  | noTopic => rfl
  | failed _ ht' => rw [ht] at ht'; cases ht'
  | appended _ ht' => rw [ht] at ht'; cases ht'

/-- What `Produce` may change: its topic, which stays where it is, and the files there. -/
theorem produce_own (ht : w.broker.topics[name]? = some t) (hin : t.InDir path)
    (json : RecordJson) (env : ProduceEnv) (key value : Bytes) (headers : OrdMap String String) :
    FileTree.EqOff (files path) w.fs (w.produce json env name key value headers).1.fs ∧
      ∃ t' : Topic, t'.InDir path ∧ (w.produce json env name key value headers).1.broker =
        { w.broker with topics := w.broker.topics.insert name t' } := by
  obtain ⟨s, hsegs, hdir, hpath⟩ := hin
  have happend : ∀ {fs' : FileTree} {seg : Segment} {res : Except BrokerError ℤ},
      t.lastSegment.append json env.io w.fs (newRecord t env.timestamp key value headers) =
        (fs', seg, res) →
      FileTree.EqOff (files path) w.fs fs' ∧ (t.setLastSegment seg).InDir path := by
    intro fs' seg res happ
    obtain ⟨hoff, hseg⟩ :=
      s.append_own json env.io w.fs (newRecord t env.timestamp key value headers)
    rw [Topic.lastSegment_of_segments hsegs] at happ
    rw [happ] at hoff hseg
    refine ⟨fun p hp => hoff p fun hown => hp ?_, .setLastSegment hsegs hdir hpath hseg⟩
    rw [← hpath, hdir.mem_files]
    exact hown
  rcases hp : w.produce json env name key value headers with ⟨w', res⟩
  cases produce_cases hp with
  | draining => exact ⟨.refl _ _, t, ⟨s, hsegs, hdir, hpath⟩, by rw [OrdMap.insert_eq_self _ ht]⟩
  | noTopic _ ht' => rw [ht] at ht'; cases ht'
  | failed _ ht' happ =>
      obtain rfl := Option.some.inj (ht.symm.trans ht')
      obtain ⟨hfiles, hplace⟩ := happend happ
      exact ⟨hfiles, _, hplace, rfl⟩
  | @appended _ _ seg offset _ ht' happ =>
      obtain rfl := Option.some.inj (ht.symm.trans ht')
      obtain ⟨hfiles, hplace⟩ := happend happ
      exact ⟨hfiles, { t.setLastSegment seg with nextOffset := offset + 1 }, hplace, rfl⟩

/-- `Produce` does the same where its topic and the files of the topic are the same. -/
theorem produce_congr (ht : w.broker.topics[name]? = some t) (hin : t.InDir path)
    (ht' : w'.broker.topics[name]? = some t)
    (hdrain : w'.broker.drainingTill = w.broker.drainingTill) (hfiles : SameFiles path w.fs w'.fs)
    (json : RecordJson) (env : ProduceEnv) (key value : Bytes) (headers : OrdMap String String) :
    SameFiles path (w.produce json env name key value headers).1.fs
        (w'.produce json env name key value headers).1.fs ∧
      (w'.produce json env name key value headers).1.broker.topics[name]? =
        (w.produce json env name key value headers).1.broker.topics[name]? := by
  obtain ⟨s, hsegs, hdir, rfl⟩ := hin
  have hlast := Topic.lastSegment_of_segments hsegs
  obtain ⟨hres, hafter⟩ :=
    append_congr json hdir hfiles env.io (newRecord t env.timestamp key value headers)
  have hwait : w'.broker.isDrainingLocked env.now = w.broker.isDrainingLocked env.now := by
    unfold Broker.isDrainingLocked
    rw [hdrain]
  unfold produce
  rw [hwait, ht, ht']
  split
  · exact ⟨hfiles, ht'.trans ht.symm⟩
  · dsimp only
    rw [hlast]
    rcases happ : s.append json env.io w.fs (newRecord t env.timestamp key value headers) with
      ⟨fs₁, seg, res⟩
    rcases happ' : s.append json env.io w'.fs (newRecord t env.timestamp key value headers) with
      ⟨fs₁', seg', res'⟩
    rw [happ, happ'] at hres hafter
    obtain ⟨rfl, rfl⟩ := Prod.mk.inj hres
    cases res' with
    | error e => exact ⟨hafter, by simp⟩
    | ok offset => exact ⟨hafter, by simp⟩

theorem consumeLoop_congr {fs fs' : FileTree} {segments : List Segment}
    (h : ∀ s ∈ segments, fs'.contents s.logPath = fs.contents s.logPath) (fromOffset max : ℤ)
    (result : List Record) :
    consumeLoop json fs' fromOffset max segments result =
      consumeLoop json fs fromOffset max segments result := by
  induction segments generalizing result with
  | nil => rfl
  | cons s segments ih =>
      rw [consumeLoop, consumeLoop, Segment.readRange_congr (h s List.mem_cons_self)]
      simp only [ih fun s' hs' => h s' (List.mem_cons_of_mem s hs')]

/-- `Consume` depends on the topic and its logs only. -/
theorem consume_congr {name : String} (htopics : w'.broker.topics[name]? = w.broker.topics[name]?)
    (hlogs : ∀ t, w.broker.topics[name]? = some t → ∀ s ∈ t.segments,
      w'.fs.contents s.logPath = w.fs.contents s.logPath) (fromOffset max : ℤ) :
    w'.consume json name fromOffset max = w.consume json name fromOffset max := by
  unfold consume
  rw [htopics]
  cases ht : w.broker.topics[name]? with
  | none => rfl
  | some t => exact consumeLoop_congr (hlogs t ht) _ _ _

theorem log_eq_of_inDir (hin : t.InDir path) {fs fs' : FileTree} (h : SameFiles path fs fs') :
    ∀ s ∈ t.segments, fs'.contents s.logPath = fs.contents s.logPath := by
  obtain ⟨s, hsegs, hdir, rfl⟩ := hin
  intro s' hs'
  rw [hsegs, List.mem_singleton] at hs'
  rw [hs', hdir.logPath]
  exact h.log

end World

theorem World.Represents.inDir {json : RecordJson} {w : World}
    {disk : SlashPath → List (ℤ × Record)} (h : w.Represents json disk) {name : String} {t : Topic}
    (ht : w.broker.topics[name]? = some t) : t.InDir (w.broker.segmentDir name) := by
  obtain ⟨seg, hseg, hpath, hsound⟩ := h.topic name t ht
  exact ⟨seg, hseg, hsound.inDir, hpath⟩

end StreamFlow
