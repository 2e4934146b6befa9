import StreamFlow.Broker.Offsets

/-!
# Readers of a committed offset

`LoadOffset` takes no lock. `CommitOffset` holds the lock of the broker, but
`os.WriteFile` makes two steps on the file: it opens and thereby truncates it, and then
writes the new text. A reader can come between the two, and so can the end of the
process; a write that fails leaves the first bytes of the text.

`loadOffset_whole_iff` tells when a reader is served well. The history `cut` says what the
last call that has truncated the file, and not written it completely, has left there.
-/

namespace StreamFlow

open BigEndian ByteFile Run

/-- Where a call of `CommitOffset` is: `os.WriteFile` has not opened the file yet, or it
has not written it yet. -/
inductive WritePhase where
  | opening
  | writing
deriving DecidableEq

/-- The broker and the `CommitOffset` call for one pair that holds its lock. The histories
are the last offset committed, the offset of the last call since then, and the offset of
which the file has only the first bytes. -/
structure OffsetSys where
  world : World
  call : Option (Offset × WritePhase)
  completed : Option Offset
  current : Option Offset
  cut : Option (Offset × ℕ)

inductive OffsetStep where
  /-- A call takes the lock. -/
  | begin (offset : Offset)
  /-- The directory cannot be created or the file cannot be opened. -/
  | giveUp
  | truncate
  | write
  | writeFails (written : ℕ)
  /-- The process ends, and another one is started on the directory. -/
  | crash

namespace OffsetSys

def start (w : World) : OffsetSys := ⟨w, none, none, none, none⟩

/-- The file of the pair gets new contents. -/
def setFile (s : OffsetSys) (x : String × String) (data : Bytes) : OffsetSys :=
  { s with world.fs := s.world.fs.set (offsetPath s.world.broker.dir x) (some data) }

/-- One step of a `CommitOffset` call for the pair `x`; `none` when no call is at this
point. -/
def step (x : String × String) (s : OffsetSys) : OffsetStep → Option OffsetSys
  | .begin offset =>
      match s.call with
      | none => some { s with call := some (offset, .opening), current := some offset }
      | some _ => none
  | .giveUp =>
      match s.call with
      | some (_, .opening) => some { s with call := none }
      | _ => none
  | .truncate =>
      match s.call with
      | some (offset, .opening) =>
          some { s.setFile x [] with call := some (offset, .writing), cut := some (offset, 0) }
      | _ => none
  | .write =>
      match s.call with
      | some (offset, .writing) =>
          some { s.setFile x (Numeral.print offset) with
            call := none, completed := some offset, current := none, cut := none }
      | _ => none
  | .writeFails n =>
      match s.call with
      | some (offset, .writing) =>
          some { s.setFile x ((Numeral.print offset).take n) with
            call := none, cut := some (offset, n) }
      | _ => none
  | .crash =>
      match newBroker true s.world.broker.dir with
      | .ok b => some { s with world.broker := b, call := none }
      | .error _ => none

/-- The offsets a reader may get: the last one committed, and the one being committed. -/
def Allowed (s : OffsetSys) (a : Offset) : Prop := s.completed = some a ∨ s.current = some a

/-- What is left of an unfinished write is nonetheless the text of an allowed offset. -/
def Whole (s : OffsetSys) : Prop :=
  ∀ offset n, s.cut = some (offset, n) →
    ∃ a, s.Allowed a ∧ (Numeral.print offset).take n = Numeral.print a

end OffsetSys

/-- The steps of one call, by the outcomes of its file operations. -/
def OffsetCommit.steps (c : OffsetCommit) : List OffsetStep :=
  if c.mkdirOk then
    match c.outcome with
    | .done => [.begin c.offset, .truncate, .write]
    | .notOpened => [.begin c.offset, .giveUp]
    | .failed n => [.begin c.offset, .truncate, .writeFails n]
  else [.begin c.offset, .giveUp]

namespace OffsetSys

/-- Without interruption, the steps of a call have the effect of `CommitOffset`. -/
theorem exec_steps (s : OffsetSys) (hs : s.call = none) (c : OffsetCommit) :
    ∃ s', exec (step c.pair) s c.steps = some s' ∧ s'.call = none ∧
      s'.world = (s.world.commitOffset c.mkdirOk c.outcome c.topicName c.groupID c.offset).1 := by
  obtain ⟨w, call, completed, current, cut⟩ := s
  obtain rfl : call = none := hs
  obtain ⟨topicName, groupID, offset, mkdirOk, outcome⟩ := c
  cases mkdirOk with
  | false => exact ⟨_, rfl, rfl, rfl⟩
  | true =>
      rw [World.commitOffset_true]
      cases outcome with
      | done =>
          refine ⟨_, rfl, rfl, ?_⟩
          exact congrArg (World.mk · w.broker) (Function.update_idem _ _ _)
      | notOpened =>
          refine ⟨_, rfl, rfl, ?_⟩
          exact congrArg (World.mk · w.broker) (FileTree.set_eq_self rfl).symm
      | failed n =>
          refine ⟨_, rfl, rfl, ?_⟩
          exact congrArg (World.mk · w.broker) (Function.update_idem _ _ _)

/-- The file holds what the histories say. -/
structure Tracked (x : String × String) (s : OffsetSys) : Prop where
  whole : s.cut = none → ∀ c, s.completed = some c →
    s.world.fs (offsetPath s.world.broker.dir x) = some (Numeral.print c)
  cut : ∀ offset n, s.cut = some (offset, n) →
    s.world.fs (offsetPath s.world.broker.dir x) = some ((Numeral.print offset).take n)

variable {x : String × String} {s s' : OffsetSys}

theorem tracked_start (x : String × String) (w : World) : (start w).Tracked x :=
  ⟨fun _ _ h => (by cases h), fun _ _ h => (by cases h)⟩

theorem setFile_self (s : OffsetSys) (x : String × String) (data : Bytes) :
    (s.setFile x data).world.fs (offsetPath s.world.broker.dir x) = some data :=
  FileTree.set_self _ _ _

/-- The last step has left the first bytes of an offset. -/
theorem tracked_of_cut {offset : Offset} {n : ℕ} (hcut : s.cut = some (offset, n))
    (hfile : s.world.fs (offsetPath s.world.broker.dir x) =
      some ((Numeral.print offset).take n)) : s.Tracked x := by
  refine ⟨fun hnone => ?_, fun offset' n' hsome => ?_⟩
  · rw [hcut] at hnone
    cases hnone
  · obtain ⟨rfl, rfl⟩ := Prod.mk.inj (Option.some.inj (hcut.symm.trans hsome))
    exact hfile

theorem Tracked.step {a : OffsetStep} (h : s.Tracked x) (hstep : s.step x a = some s') :
    s'.Tracked x := by
  cases a with
  | begin offset =>
      unfold OffsetSys.step at hstep
      dsimp only at hstep
      split at hstep
      · obtain rfl := Option.some.inj hstep
        exact ⟨h.whole, h.cut⟩
      · cases hstep
  | giveUp =>
      unfold OffsetSys.step at hstep
      dsimp only at hstep
      split at hstep
      · obtain rfl := Option.some.inj hstep
        exact ⟨h.whole, h.cut⟩
      · cases hstep
  | truncate =>
      unfold OffsetSys.step at hstep
      dsimp only at hstep
      split at hstep
      · obtain rfl := Option.some.inj hstep
        exact tracked_of_cut rfl (s.setFile_self x [])
      · cases hstep
  | write =>
      unfold OffsetSys.step at hstep
      dsimp only at hstep
      split at hstep
      · obtain rfl := Option.some.inj hstep
        refine ⟨fun _ c hc => ?_, fun offset n hcut => (by cases hcut)⟩
        obtain rfl := Option.some.inj hc
        exact s.setFile_self x _
      · cases hstep
  | writeFails n =>
      unfold OffsetSys.step at hstep
      dsimp only at hstep
      split at hstep
      · obtain rfl := Option.some.inj hstep
        exact tracked_of_cut rfl (s.setFile_self x _)
      · cases hstep
  | crash =>
      obtain rfl := Option.some.inj hstep
      exact ⟨h.whole, h.cut⟩

/-- What is left of an offset is read as an allowed one exactly when it is its text. -/
theorem Tracked.loadOffset_iff (h : s.Tracked x) {c : Offset} (hc : s.completed = some c) :
    (∃ a, s.Allowed a ∧ s.world.loadOffset x.1 x.2 = .ok a.1) ↔ s.Whole := by
  cases hcut : s.cut with
  | none =>
      refine iff_of_true ⟨c, .inl hc, ?_⟩ fun offset n hsome => ?_
      · exact World.loadOffset_of_print (h.whole hcut c hc)
      · rw [hcut] at hsome
        cases hsome
  | some left =>
      obtain ⟨offset, n⟩ := left
      have hload : ∀ a : Offset, s.world.loadOffset x.1 x.2 = .ok a.1 ↔
          (Numeral.print offset).take n = Numeral.print a := by
        intro a
        have hscan := Numeral.scan_take_print_iff (m := a.1) offset.2 n
        rw [and_iff_right a.2] at hscan
        rw [← hscan, World.loadOffset, h.cut offset n hcut]
        dsimp only
        cases Numeral.scan ((Numeral.print offset).take n) with
        | none => simp
        | some m => simp
      constructor
      · rintro ⟨a, ha, hok⟩ offset' n' hsome
        obtain ⟨rfl, rfl⟩ := Prod.mk.inj (Option.some.inj (hcut.symm.trans hsome))
        exact ⟨a, ha, (hload a).mp hok⟩
      · intro hwhole
        obtain ⟨a, ha, htake⟩ := hwhole offset n hcut
        exact ⟨a, ha, (hload a).mpr htake⟩

end OffsetSys

/-- When `LoadOffset` is served well. In every state of every interleaving of the steps of
`CommitOffset` calls for a pair, with any outcome of their file operations and with
crashes, once a call has completed: `LoadOffset` returns the last committed offset or the
one being committed, if and only if the file has not been truncated since by a call that
has not written it, or what that call has left is the whole text of such an offset. -/
theorem loadOffset_whole_iff (x : String × String) (w : World) {steps : List OffsetStep}
    {s : OffsetSys} (hrun : exec (OffsetSys.step x) (.start w) steps = some s) {c : Offset}
    (hc : s.completed = some c) :
    (∃ a, s.Allowed a ∧ s.world.loadOffset x.1 x.2 = .ok a.1) ↔ s.Whole := by
  have htracked : s.Tracked x := invariant (fun s => s.Tracked x) (fun _ _ _ h hs => h.step hs)
    hrun (OffsetSys.tracked_start x w)
  exact htracked.loadOffset_iff hc

/-- A commit of 12, and a call that is broken off before it truncates the file. -/
def OffsetStep.sampleCrash : List OffsetStep :=
  [.begin ⟨12, by decide⟩, .truncate, .write, .begin ⟨-5, by decide⟩, .crash]

/-- A reader after the crash. -/
theorem loadOffset_whole_sample :
    ∃ s, exec (OffsetSys.step ("t", "g")) (.start ⟨fun _ => none, .fresh ⟨true, ["d"]⟩⟩)
        OffsetStep.sampleCrash = some s ∧
      ∃ a, s.Allowed a ∧ s.world.loadOffset "t" "g" = .ok a.1 := by
  obtain ⟨s, hrun, hc, hcut⟩ : ∃ s, exec (OffsetSys.step ("t", "g"))
        (.start ⟨fun _ => none, .fresh ⟨true, ["d"]⟩⟩) OffsetStep.sampleCrash = some s ∧
      s.completed.isSome = true ∧ s.cut = none :=
    exists_exec_of_any (by decide +kernel)
  obtain ⟨c, hc⟩ := Option.isSome_iff_exists.mp hc
  refine ⟨s, hrun, (loadOffset_whole_iff ("t", "g") _ hrun hc).mpr fun offset n hsome => ?_⟩
  rw [hcut] at hsome
  cases hsome

/-- A reader between the two steps of `os.WriteFile`, and one after a crash there, gets an
error, although an offset has been committed. -/
theorem not_loadOffset_truncated :
    (∃ s, exec (OffsetSys.step ("t", "g")) (.start ⟨fun _ => none, .fresh ⟨true, ["d"]⟩⟩)
        [.begin ⟨12, by decide⟩, .truncate, .write, .begin ⟨13, by decide⟩, .truncate] = some s ∧
      s.completed = some ⟨12, by decide⟩ ∧ s.world.loadOffset "t" "g" = .error .scan) ∧
    ∃ s, exec (OffsetSys.step ("t", "g")) (.start ⟨fun _ => none, .fresh ⟨true, ["d"]⟩⟩)
        [.begin ⟨12, by decide⟩, .truncate, .write, .begin ⟨13, by decide⟩, .truncate, .crash] =
          some s ∧
      s.completed = some ⟨12, by decide⟩ ∧ s.world.loadOffset "t" "g" = .error .scan :=
  ⟨exists_exec_of_any (by decide +kernel), exists_exec_of_any (by decide +kernel)⟩

end StreamFlow
