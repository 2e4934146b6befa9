import StreamFlow.Foundation.Run
import StreamFlow.Raft.Wal

/-!
# Torn appends

`AppendWAL` writes the header and the payload of a frame behind whatever `wal.log`
holds, and leaves there what it wrote when it fails on the way. `ReadWAL` stops at an
incomplete frame only if nothing follows it: bytes of a later call complete the torn
frame, and everything behind is read out of step. The calls that returned without an
error are read back as long as no call writes behind a torn frame.
-/

namespace StreamFlow.Raft

open BigEndian Frame Run

/-- Reading a directory without rotated files. -/
theorem readWAL_of_log {dir : Directory} (h : ∀ name, name ≠ "wal.log" → dir[name]? = none) :
    readWAL true dir 0 = .ok (split (walLog dir)).1.flatten := by
  rw [readWAL_zero, walLog]
  cases hlog : dir["wal.log"]? with
  | none =>
      have hempty : dir.toList = [] := by
        refine OrdMap.toList_eq_of_ascending dir .nil fun name f => ?_
        by_cases hname : name = "wal.log"
        · simp [hname, hlog]
        · simp [h name hname]
      rw [hempty]
      rfl
  | some f =>
      have hsingle : dir.toList = [("wal.log", f)] := by
        refine OrdMap.toList_eq_of_ascending dir (List.pairwise_singleton _ _) fun name f' => ?_
        by_cases hname : name = "wal.log"
        · simp [hname, hlog, eq_comm]
        · simp [h name hname, hname]
      rw [hsingle]
      simp [isWalName]

/-- A call of `AppendWAL` and the way its file operations end. -/
structure AppendCall where
  io : FrameIO
  payload : Bytes

/-- A call that fails has written a proper prefix of its frame. -/
def AppendCall.TornWhenFailed (c : AppendCall) : Prop :=
  c.io.succeeds = false → (writtenBytes c.io c.payload).length < (frame c.payload).length

instance (c : AppendCall) : Decidable c.TornWhenFailed :=
  inferInstanceAs (Decidable (_ → _))

/-- The directory, and the payloads of the calls so far that returned no error. -/
structure AppendRun where
  dir : Directory
  returned : List Bytes

namespace AppendRun

def step (s : AppendRun) (c : AppendCall) : Option AppendRun :=
  match appendWAL c.io s.dir c.payload with
  | (dir, .ok _) => some ⟨dir, s.returned ++ [c.payload]⟩
  | (dir, .error _) => some ⟨dir, s.returned⟩

/-- The call writes nothing, or it writes a payload shorter than `2 ^ 32` bytes behind
whole frames. -/
def BehindWholeFrames (s : AppendRun) (c : AppendCall) : Prop :=
  writtenBytes c.io c.payload = [] ∨ c.payload.length < 2 ^ 32 ∧ (split (walLog s.dir)).2 = []

instance (s : AppendRun) (c : AppendCall) : Decidable (s.BehindWholeFrames c) :=
  inferInstanceAs (Decidable (_ ∨ _))

/-- The log consists of the frames of the calls that returned no error and at most the
beginning of a further frame. -/
structure Whole (s : AppendRun) (torn : Bytes) : Prop where
  log : walLog s.dir = frames s.returned ++ torn
  incomplete : read torn = none
  short : ∀ p ∈ s.returned, p.length < 2 ^ 32
  only : ∀ name, name ≠ "wal.log" → s.dir[name]? = none

variable {s s' : AppendRun} {c : AppendCall} {torn : Bytes}

theorem Whole.split_log (h : s.Whole torn) : split (walLog s.dir) = (s.returned, torn) := by
  rw [h.log]
  exact split_frames_append h.short h.incomplete

theorem Whole.readWAL_eq (h : s.Whole torn) : readWAL true s.dir 0 = .ok s.returned.flatten := by
  rw [readWAL_of_log h.only, h.split_log]

theorem step_eq (s : AppendRun) (c : AppendCall) :
    s.step c = some
      { dir := if c.io.opened then
          s.dir.insert "wal.log" (walLog s.dir ++ writtenBytes c.io c.payload) else s.dir
        returned := if c.io.succeeds then s.returned ++ [c.payload] else s.returned } := by
  rw [step, appendWAL_eq]
  cases c.io.succeeds <;> rfl

/-- The log after a call, whether or not the file was opened. -/
theorem walLog_of_step (hstep : s.step c = some s') :
    walLog s'.dir = walLog s.dir ++ writtenBytes c.io c.payload := by
  rw [step_eq] at hstep
  obtain rfl := Option.some.inj hstep
  cases hopened : c.io.opened with
  | false => simp [writtenBytes, hopened]
  | true =>
      rw [if_pos rfl, walLog, OrdMap.getElem?_insert_self']
      rfl

theorem Whole.only_of_step (h : s.Whole torn) (hstep : s.step c = some s') {name : String}
    (hname : name ≠ "wal.log") : s'.dir[name]? = none := by
  rw [step_eq] at hstep
  obtain rfl := Option.some.inj hstep
  cases c.io.opened with
  | false => exact h.only name hname
  | true =>
      rw [if_pos rfl, OrdMap.getElem?_insert_of_ne _ _ (Ne.symm hname)]
      exact h.only name hname

/-- A call that does not write behind a torn frame leaves at most its own frame torn. -/
theorem Whole.step (h : s.Whole torn) (hc : c.TornWhenFailed) (hguard : s.BehindWholeFrames c)
    (hstep : s.step c = some s') : ∃ torn', s'.Whole torn' := by
  have hlog := walLog_of_step hstep
  have honly : ∀ name, name ≠ "wal.log" → s'.dir[name]? = none :=
    fun name hname => h.only_of_step hstep hname
  have hret : s'.returned = if c.io.succeeds then s.returned ++ [c.payload] else s.returned := by
    rw [step_eq] at hstep
    rw [← Option.some.inj hstep]
  cases hok : c.io.succeeds with
  | true =>
      have hwritten := writtenBytes_of_succeeds c.io c.payload hok
      rcases hguard with hnil | ⟨hshort, htorn⟩
      · have hlen := congrArg List.length hnil
        rw [hwritten, frame, List.length_append, length_header] at hlen
        simp at hlen
      · rw [h.split_log] at htorn
        obtain rfl : torn = [] := htorn
        rw [hok, if_pos rfl] at hret
        refine ⟨[], ?_, read_nil, ?_, honly⟩
        · rw [hlog, h.log, hwritten, hret, frames_append, frames_singleton, List.append_nil,
            List.append_nil]
        · rw [hret]
          intro p hp
          rcases List.mem_append.mp hp with hp | hp
          · exact h.short p hp
          · rwa [List.mem_singleton.mp hp]
  | false =>
      rw [hok, if_neg Bool.false_ne_true] at hret
      rcases hguard with hnil | ⟨hshort, htorn⟩
      · exact ⟨torn, by rw [hlog, hnil, List.append_nil, hret, h.log], h.incomplete,
          by rw [hret]; exact h.short, honly⟩
      · rw [h.split_log] at htorn
        obtain rfl : torn = [] := htorn
        refine ⟨writtenBytes c.io c.payload, ?_, ?_, by rw [hret]; exact h.short, honly⟩
        · rw [hlog, h.log, hret, List.append_nil]
        · exact read_of_prefix hshort (writtenBytes_prefix_frame c.io c.payload) (hc hok)

theorem Whole.start : (⟨∅, []⟩ : AppendRun).Whole [] :=
  ⟨rfl, read_nil, fun _ hp => absurd hp List.not_mem_nil,
    fun _ _ => Std.ExtTreeMap.getElem?_empty⟩

end AppendRun

open AppendRun

/-- The payloads of the calls that returned no error are read back, in order, in every
state reached without writing behind a torn frame. -/
theorem readWAL_of_behindWholeFrames {calls : List AppendCall} {s : AppendRun}
    (hcalls : ∀ c ∈ calls, c.TornWhenFailed)
    (hrun : exec AppendRun.step ⟨∅, []⟩ calls = some s)
    (hguard : Guarded AppendRun.step BehindWholeFrames ⟨∅, []⟩ calls) :
    readWAL true s.dir 0 = .ok s.returned.flatten := by
  have hsteps := guarded_and (guarded_of_forall_mem fun c hc _ => hcalls c hc) hguard
  obtain ⟨torn, h⟩ : ∃ torn, s.Whole torn := by
    refine invariant_of_guarded (fun s => ∃ torn, s.Whole torn) ?_ hrun hsteps ⟨[], Whole.start⟩
    rintro s c s' ⟨torn, h⟩ ⟨hc, hbehind⟩ hstep
    exact h.step hc hbehind hstep
  exact h.readWAL_eq

/-- A frame is torn at the end, after a call that could not open the file. -/
theorem readWAL_of_behindWholeFrames_sample :
    ∃ s, exec AppendRun.step ⟨∅, []⟩ [⟨⟨false, .done, .done⟩, [5]⟩, ⟨.ok, [1, 2]⟩,
        ⟨⟨true, .done, .failed 1⟩, [3, 4]⟩] = some s ∧
      readWAL true s.dir 0 = .ok [1, 2] := by
  obtain ⟨s, hrun, hreturned⟩ : ∃ s, exec AppendRun.step ⟨∅, []⟩
      [⟨⟨false, .done, .done⟩, [5]⟩, ⟨.ok, [1, 2]⟩, ⟨⟨true, .done, .failed 1⟩, [3, 4]⟩] = some s ∧
        s.returned = [[1, 2]] :=
    exists_exec_of_any (by decide +kernel)
  refine ⟨s, hrun, ?_⟩
  rw [readWAL_of_behindWholeFrames (by decide +kernel) hrun (by decide +kernel), hreturned]
  rfl

/-- A frame is torn behind its header, and the next call returns no error: the header of
its frame is read as the payload of the torn one, and its payload is lost. -/
theorem readWAL_behind_torn_frame :
    ∃ s, exec AppendRun.step ⟨∅, []⟩ [⟨⟨true, .done, .failed 0⟩, [1, 2]⟩, ⟨.ok, [7]⟩] = some s ∧
      (∀ c ∈ [⟨⟨true, .done, .failed 0⟩, [1, 2]⟩, (⟨.ok, [7]⟩ : AppendCall)], c.TornWhenFailed) ∧
      s.returned.flatten = [7] ∧ readWAL true s.dir 0 = .ok [0, 0] := by
  obtain ⟨s, hrun, hs⟩ : ∃ s, exec AppendRun.step ⟨∅, []⟩
      [⟨⟨true, .done, .failed 0⟩, [1, 2]⟩, ⟨.ok, [7]⟩] = some s ∧
        s.returned.flatten = [7] ∧ (readWAL true s.dir 0).toOption = some [0, 0] :=
    exists_exec_of_any (by decide +kernel)
  exact ⟨s, hrun, by decide +kernel, hs.1, eq_ok_of_toOption hs.2⟩

end StreamFlow.Raft
