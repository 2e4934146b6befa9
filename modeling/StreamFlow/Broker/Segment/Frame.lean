import StreamFlow.Broker.Segment.Basic

/-!
# What a segment touches

An append writes to the three files of its segment and to no others, whatever state
the segment is in and however the writes end. Reading depends on the log alone.
-/

namespace StreamFlow

open BigEndian ByteFile

namespace Segment

variable {json : RecordJson} {fs fs' : FileTree} {s : Segment}

/-- The files of a segment. -/
def ownFiles (s : Segment) : List SlashPath := [s.logPath, s.indexPath, s.timeIndex]

theorem eqOff_writeFrame (json : RecordJson) (io : AppendIO) (fs : FileTree) (s : Segment)
    (record : Record) :
    FileTree.EqOff s.ownFiles fs (s.writeFrame json io fs record).1 := by
  have hlog : s.logPath ∈ s.ownFiles := List.mem_cons_self
  unfold writeFrame
  split
  · exact .refl _ _
  · dsimp only
    split
    · exact .refl _ _
    · next payload _ _ =>
        have h₁ := fs.eqOff_writeAt hlog s.position (putUint32 payload.length) io.lengthWrite
        split
        · next fs₁ hw =>
            rw [hw] at h₁
            exact h₁
        · next fs₁ hw =>
            rw [hw] at h₁
            have h₂ := fs₁.eqOff_writeAt hlog (s.position + 4) payload io.payloadWrite
            split
            · next fs₂ hw₂ =>
                rw [hw₂] at h₂
                exact h₁.trans h₂
            · next fs₂ hw₂ =>
                rw [hw₂] at h₂
                exact h₁.trans h₂

theorem eqOff_persistIndexes (io : AppendIO) (fs : FileTree) (s : Segment) :
    FileTree.EqOff s.ownFiles fs (s.persistIndexes io fs).1 := by
  have h₁ : FileTree.EqOff s.ownFiles fs
      (fs.writeFile s.indexPath (indexBuf s.offsets) io.index).1 :=
    fs.eqOff_writeFile (by simp [ownFiles]) _ _
  unfold persistIndexes
  split
  · next fs₁ hw =>
      rw [hw] at h₁
      exact h₁
  · next fs₁ hw =>
      rw [hw] at h₁
      exact h₁.trans (fs₁.eqOff_writeFile (by simp [ownFiles]) _ _)

/-- An append writes to the files of its segment only, and leaves the segment there. -/
theorem append_own (json : RecordJson) (io : AppendIO) (fs : FileTree) (s : Segment)
    (record : Record) :
    FileTree.EqOff s.ownFiles fs (s.append json io fs record).1 ∧
      ((s.append json io fs record).2.1 = s ∨
        ∃ length, (s.append json io fs record).2.1 = s.advance record length) := by
  have h₁ := eqOff_writeFrame json io fs s record
  unfold append
  split
  · next fs₁ e hw =>
      rw [hw] at h₁
      exact ⟨h₁, .inl rfl⟩
  · next fs₁ length hw =>
      rw [hw] at h₁
      have h₂ := eqOff_persistIndexes io fs₁ (s.advance record length)
      dsimp only
      split
      · next fs₂ hp =>
          rw [hp] at h₂
          exact ⟨h₁.trans h₂, .inr ⟨length, rfl⟩⟩
      · next fs₂ hp =>
          rw [hp] at h₂
          exact ⟨h₁.trans h₂, .inr ⟨length, rfl⟩⟩

/-- Reading a segment depends on its log only. -/
theorem readRange_congr (h : fs'.contents s.logPath = fs.contents s.logPath)
    (fromOffset max : ℤ) :
    s.readRange json fs' fromOffset max = s.readRange json fs fromOffset max := by
  have hread : s.readByOffset json fs' = s.readByOffset json fs := by
    funext o
    unfold readByOffset
    rw [h]
  have hloop : ∀ (m : ℤ) keys result,
      s.readLoop json fs' m keys result = s.readLoop json fs m keys result := by
    intro m keys
    induction keys with
    | nil => exact fun result => rfl
    | cons offset keys ih =>
        intro result
        rw [readLoop, readLoop, hread]
        simp only [ih]
  exact hloop _ _ _

end Segment

end StreamFlow
