import StreamFlow.Foundation.CodecTable
import StreamFlow.Foundation.Decimal
import StreamFlow.Foundation.Run
import StreamFlow.Raft.Wal

/-!
# The directory as a list of entries

As long as no file operation fails, the directory of a write-ahead log stands for a
list of entries: `AppendWAL` appends to it, `RotateWAL` leaves it alone, and `Compact`
drops its beginning. A `Layout` says how the files are made up, and `WalInv` that
every file is a sequence of whole frames whose payloads together are the encoded list.
The files are read in the order in which they were written because the times in their
names increase and have the same number of digits.
-/

namespace StreamFlow.Raft

open BigEndian Frame Run

/-- A call on the log. -/
inductive WalOp where
  | append (batch : List Entry)
  | rotate (now : ℕ)
  | compact (compactIndex : ℕ)

/-- The directory, and the clock readings of the rotations so far. -/
structure WalRun where
  dir : Directory
  readings : List ℕ

/-- What a call makes of the list of entries. -/
def WalOp.apply (ents : List Entry) : WalOp → List Entry
  | append batch => ents ++ batch
  | rotate _ => ents
  | compact k =>
      if ents.any fun e => decide (0 < e.index) then ents.filter fun e => decide (k < e.index)
      else ents.drop k

namespace WalRun

/-- What a call makes of the directory when no file operation fails. A rotation reads
the clock only if there is a file to rotate. -/
def step (codec : EntryCodec) (s : WalRun) : WalOp → Option WalRun
  | .append batch =>
      match marshalEntries codec batch with
      | .error _ => none
      | .ok b => some { s with dir := (appendWAL .ok s.dir b).1 }
  | .rotate now =>
      some
        { dir := (rotateWAL true true now s.dir).1
          readings := if (s.dir["wal.log"]?).isSome then now :: s.readings else s.readings }
  | .compact k => some { s with dir := (compact codec .ok s.dir k).1 }

/-- An append that takes place has encoded its batch. -/
theorem append_of_step {codec : EntryCodec} {s s' : WalRun} {batch : List Entry}
    (hstep : s.step codec (.append batch) = some s') :
    ∃ bs, Encodings codec batch bs ∧ (marshalEntries codec batch).toOption = some (frames bs) ∧
      s' = { s with dir := (appendWAL .ok s.dir (frames bs)).1 } := by
  rw [step] at hstep
  cases hb : marshalEntries codec batch with
  | error e =>
      rw [hb] at hstep
      cases hstep
  | ok b =>
      rw [hb] at hstep
      obtain ⟨bs, hbs, rfl⟩ := marshalEntries_eq_ok_iff.mp hb
      exact ⟨bs, hbs, rfl, (Option.some.inj hstep).symm⟩

/-- The payloads are shorter than `2 ^ 32` bytes, and the clock readings increase and
have the same number of digits. -/
def Admissible (codec : EntryCodec) (s : WalRun) : WalOp → Prop
  | .append batch => ∀ b ∈ (marshalEntries codec batch).toOption, b.length < 2 ^ 32
  | .rotate now => (s.dir["wal.log"]?).isSome →
      ∀ t ∈ s.readings, t < now ∧ (toString t).length = (toString now).length
  | .compact k => ∀ b ∈ (compactData codec true s.dir k).toOption, b.length < 2 ^ 32

instance (codec : EntryCodec) (s : WalRun) : ∀ op, Decidable (s.Admissible codec op)
  | .append batch => inferInstanceAs (Decidable (∀ b ∈ (marshalEntries codec batch).toOption, _))
  | .rotate _ => inferInstanceAs (Decidable (_ → ∀ t ∈ s.readings, _))
  | .compact k =>
      inferInstanceAs (Decidable (∀ b ∈ (compactData codec true s.dir k).toOption, _))

end WalRun

/-- How the files are made up: the rotated files with their times, the payloads of
`wal.log` if it exists, and the encodings of the entries. -/
structure Layout where
  old : List (ℕ × List Bytes)
  cur : Option (List Bytes)
  encodings : List Bytes

namespace Layout

def oldFiles (y : Layout) : List (String × Bytes) :=
  y.old.map fun e => (rotatedName e.1, frames e.2)

/-- The payloads of all files, in order. -/
def payloads (y : Layout) : List Bytes := (y.old.map Prod.snd).flatten ++ y.cur.getD []

/-- All files in the order of their names. -/
def files (y : Layout) : List (String × Bytes) :=
  y.oldFiles ++ y.cur.toList.map fun ps => ("wal.log", frames ps)

end Layout

/-- The files follow the layout, and the layout encodes the list of entries. -/
structure WalInv (codec : EntryCodec) (s : WalRun) (ents : List Entry) (y : Layout) : Prop where
  rotated : ∃ rotated : Directory, rotated.toList = y.oldFiles ∧
    s.dir = y.cur.elim rotated fun ps => rotated.insert "wal.log" (frames ps)
  readings : ∀ e ∈ y.old, e.1 ∈ s.readings
  short : ∀ p ∈ y.payloads, p.length < 2 ^ 32
  encodings : Encodings codec ents y.encodings
  flatten : y.payloads.flatten = frames y.encodings
  shortEncodings : ∀ b ∈ y.encodings, b.length < 2 ^ 32

theorem rotatedName_lt_log (ts : ℕ) : compare (rotatedName ts) "wal.log" = .lt :=
  Decimal.compare_append_toString_of_letter "wal." ".log" "log" ts rfl (by decide)

theorem isPrefixOf_rotatedName (ts : ℕ) :
    "wal.".toList.isPrefixOf (rotatedName ts).toList = true := by
  rw [rotatedName, String.toList_append, String.toList_append, List.append_assoc]
  exact List.isPrefixOf_iff_prefix.mpr (List.prefix_append _ _)

theorem isWalName_rotatedName (ts : ℕ) : isWalName (rotatedName ts) = true := by
  have hlen : 4 < (rotatedName ts).length := by
    have hfirst : "wal.".length = 4 := rfl
    have hlast : ".log".length = 4 := rfl
    rw [rotatedName, String.length_append, String.length_append, hfirst, hlast]
    omega
  rw [isWalName, isPrefixOf_rotatedName]
  simp [hlen]

namespace Layout

variable (y : Layout)

theorem isWalName_of_mem_files {e : String × Bytes} (he : e ∈ y.files) :
    isWalName e.1 = true := by
  rcases List.mem_append.mp he with hold | hcur
  · obtain ⟨e', -, rfl⟩ := List.mem_map.mp hold
    exact isWalName_rotatedName e'.1
  · obtain ⟨ps, -, rfl⟩ := List.mem_map.mp hcur
    rfl

/-- The whole frames of all files. -/
theorem flatMap_split_files (hshort : ∀ p ∈ y.payloads, p.length < 2 ^ 32) :
    (y.files.flatMap fun e => (split e.2).1.flatten) = y.payloads.flatten := by
  have hold : ∀ e ∈ y.old, (split (frames e.2)).1.flatten = e.2.flatten := by
    intro e he
    rw [split_frames fun p hp => hshort p (List.mem_append_left _
      (List.mem_flatten.mpr ⟨e.2, List.mem_map_of_mem he, hp⟩))]
  have hcur : ∀ ps ∈ y.cur, (split (frames ps)).1.flatten = ps.flatten := by
    intro ps hps
    rw [split_frames fun p hp => hshort p (List.mem_append_right _ (by rw [hps]; exact hp))]
  rw [files, oldFiles, List.flatMap_append, payloads, List.flatten_append]
  congr 1
  · rw [List.flatMap_map, List.flatMap_congr hold, List.flatten_flatten, List.map_map,
      List.flatMap_def]
    rfl
  · cases hc : y.cur with
    | none => rfl
    | some ps => simp [hcur ps hc]

end Layout

namespace WalInv

variable {codec : EntryCodec} {s : WalRun} {ents : List Entry} {y : Layout}

theorem lt_log_of_mem {rotated : Directory} (h : rotated.toList = y.oldFiles)
    {e : String × Bytes} (he : e ∈ rotated.toList) : compare e.1 "wal.log" = .lt := by
  rw [h] at he
  obtain ⟨e', -, rfl⟩ := List.mem_map.mp he
  exact rotatedName_lt_log e'.1

theorem getElem?_log_of_rotated {rotated : Directory} (h : rotated.toList = y.oldFiles) :
    rotated["wal.log"]? = none := by
  cases hlog : rotated["wal.log"]? with
  | none => rfl
  | some f =>
      have hlt := lt_log_of_mem h ((OrdMap.mem_toList_iff rotated).mpr hlog)
      exact absurd hlt (OrdMap.not_compare_self_lt _)

theorem toList_dir (h : WalInv codec s ents y) : s.dir.toList = y.files := by
  obtain ⟨rotated, hrot, hdir⟩ := h.rotated
  rw [hdir, Layout.files]
  cases y.cur with
  | none =>
      rw [← hrot]
      exact (List.append_nil _).symm
  | some ps =>
      rw [← hrot]
      exact OrdMap.toList_insert_of_forall_lt rotated _ fun e he => lt_log_of_mem hrot he

/-- `ReadWAL(0)` returns the encoded list. -/
theorem readWAL_eq (h : WalInv codec s ents y) :
    readWAL true s.dir 0 = .ok (frames y.encodings) := by
  have hall : (y.files.filter fun e => isWalName e.1) = y.files :=
    List.filter_eq_self.mpr fun e he => y.isWalName_of_mem_files he
  rw [readWAL_zero, h.toList_dir, hall, y.flatMap_split_files h.short, h.flatten]

theorem unmarshal_readWAL (h : WalInv codec s ents y) (hcodec : codec.Faithful) :
    unmarshalEntries codec (frames y.encodings) = .ok ents :=
  unmarshalEntries_frames hcodec h.encodings h.shortEncodings

theorem getElem?_log (h : WalInv codec s ents y) : s.dir["wal.log"]? = y.cur.map frames := by
  obtain ⟨rotated, hrot, hdir⟩ := h.rotated
  rw [hdir]
  cases y.cur with
  | none => exact getElem?_log_of_rotated hrot
  | some ps => exact OrdMap.getElem?_insert_self' _ _ _

/-- One more frame in `wal.log`. -/
theorem append (h : WalInv codec s ents y) {batch : List Entry} {bs : List Bytes}
    (hbs : Encodings codec batch bs) (hlen : (frames bs).length < 2 ^ 32) :
    ∃ y', WalInv codec { s with dir := (appendWAL .ok s.dir (frames bs)).1 } (ents ++ batch)
      y' := by
  obtain ⟨rotated, hrot, hdir⟩ := h.rotated
  let y' : Layout := ⟨y.old, some (y.cur.getD [] ++ [frames bs]), y.encodings ++ bs⟩
  have hpayloads : y'.payloads = y.payloads ++ [frames bs] :=
    (List.append_assoc _ _ _).symm
  refine ⟨y', ⟨rotated, hrot, ?_⟩, h.readings, ?_, ?_, ?_, ?_⟩
  · have hlog : (s.dir["wal.log"]?).getD [] ++ frame (frames bs) =
        frames (y.cur.getD [] ++ [frames bs]) := by
      rw [h.getElem?_log, frames_append, frames_singleton]
      cases y.cur <;> rfl
    have hinsert : ∀ f, s.dir.insert "wal.log" f = rotated.insert "wal.log" f := by
      intro f
      rw [hdir]
      cases y.cur with
      | none => rfl
      | some ps => exact OrdMap.insert_insert_self _ _ _ _
    rw [appendWAL_ok, hlog, hinsert]
    rfl
  · rw [hpayloads]
    intro p hp
    rcases List.mem_append.mp hp with hp | hp
    · exact h.short p hp
    · rwa [List.mem_singleton.mp hp]
  · exact List.rel_append h.encodings hbs
  · rw [hpayloads, List.flatten_append, h.flatten, List.flatten_singleton]
    exact (frames_append _ _).symm
  · intro b hb
    rcases List.mem_append.mp hb with hb | hb
    · exact h.shortEncodings b hb
    · exact (length_le_length_frames hb).trans_lt hlen

/-- The name of `wal.log` changes, and an empty file takes its place. -/
theorem rotate (h : WalInv codec s ents y) {now : ℕ}
    (hnow : (s.dir["wal.log"]?).isSome →
      ∀ t ∈ s.readings, t < now ∧ (toString t).length = (toString now).length) :
    ∃ y', WalInv codec
      { dir := (rotateWAL true true now s.dir).1
        readings := if (s.dir["wal.log"]?).isSome then now :: s.readings else s.readings }
      ents y' := by
  obtain ⟨rotated, hrot, hdir⟩ := h.rotated
  have hlog := h.getElem?_log
  cases hcur : y.cur with
  | none =>
      rw [hcur] at hlog
      rw [rotateWAL, hlog]
      exact ⟨y, h⟩
  | some ps =>
      rw [hcur, Option.map_some] at hlog
      rw [hcur] at hdir
      rw [hlog] at hnow
      -- the new name comes behind the names of all files rotated before
      have hlast : ∀ e ∈ rotated.toList, compare e.1 (rotatedName now) = .lt := by
        intro e he
        rw [hrot] at he
        obtain ⟨e', he', rfl⟩ := List.mem_map.mp he
        obtain ⟨hlt, hdigits⟩ := hnow rfl e'.1 (h.readings e' he')
        exact Decimal.compare_append_toString "wal." ".log" hdigits hlt
      let y' : Layout := ⟨y.old ++ [(now, ps)], some [], y.encodings⟩
      have hpayloads : y'.payloads = y.payloads := by
        simp [y', Layout.payloads, hcur]
      rw [rotateWAL, hlog]
      refine ⟨y', ⟨rotated.insert (rotatedName now) (frames ps), ?_, ?_⟩, ?_, ?_, h.encodings, ?_,
        h.shortEncodings⟩
      · rw [OrdMap.toList_insert_of_forall_lt rotated _ hlast, hrot]
        simp [y', Layout.oldFiles]
      · change ((s.dir.erase "wal.log").insert (rotatedName now) (frames ps)).insert "wal.log" [] =
          _
        rw [hdir]
        change (((rotated.insert "wal.log" (frames ps)).erase "wal.log").insert _ _).insert _ _ = _
        rw [OrdMap.erase_insert_self rotated (getElem?_log_of_rotated hrot)]
        rfl
      · intro e he
        rcases List.mem_append.mp he with he | he
        · exact List.mem_cons_of_mem now (h.readings e he)
        · rw [List.mem_singleton.mp he]
          exact List.mem_cons_self
      · rw [hpayloads]
        exact h.short
      · rw [hpayloads]
        exact h.flatten

/-- What `Compact` computes from the directory. -/
theorem compactData_eq (h : WalInv codec s ents y) (hcodec : codec.Faithful) (k : ℕ) :
    compactData codec true s.dir k = marshalEntries codec (keepEntries k ents) := by
  rw [compactData, h.readWAL_eq]
  change (unmarshalEntries codec (frames y.encodings) >>= fun ents =>
    marshalEntries codec (keepEntries k ents)) = _
  rw [h.unmarshal_readWAL hcodec]
  rfl

/-- The only file after a compaction is `wal.log`. -/
theorem foldl_erase_obsolete (h : WalInv codec s ents y) (f : Bytes) :
    (obsoleteFiles (s.dir.insert "wal.log" f)).foldl (fun dir name => dir.erase name)
      (s.dir.insert "wal.log" f) = (∅ : Directory).insert "wal.log" f := by
  apply Std.ExtTreeMap.ext_getElem?
  intro name
  rw [OrdMap.getElem?_foldl_erase, OrdMap.getElem?_insert, OrdMap.getElem?_insert]
  by_cases hlog : "wal.log" = name
  · subst hlog
    simp [obsoleteFiles]
  · rw [if_neg hlog, if_neg hlog, Std.ExtTreeMap.getElem?_empty]
    split
    · rfl
    · next hkept =>
        -- every other file was rotated, and its name marks it as obsolete
        cases hname : s.dir[name]? with
        | none => rfl
        | some f' =>
            have hmem := (OrdMap.mem_toList_iff s.dir).mpr hname
            rw [h.toList_dir] at hmem
            rcases List.mem_append.mp hmem with hold | hcur
            · obtain ⟨e, -, he⟩ := List.mem_map.mp hold
              obtain ⟨rfl, rfl⟩ := Prod.mk.inj he
              refine absurd (List.mem_filter.mpr ⟨List.mem_map.mpr ⟨(rotatedName e.1, frames e.2),
                (OrdMap.mem_toList_iff _).mpr ?_, rfl⟩, ?_⟩) hkept
              · rw [OrdMap.getElem?_insert_of_ne _ _ hlog, hname]
              · rw [isPrefixOf_rotatedName]
                simpa using Ne.symm hlog
            · obtain ⟨ps, -, he⟩ := List.mem_map.mp hcur
              exact absurd (congrArg Prod.fst he) hlog

/-- `wal.log` holds the entries that are kept in one frame. -/
theorem compact (h : WalInv codec s ents y) (hcodec : codec.Faithful) {k : ℕ}
    (hlen : ∀ b ∈ (compactData codec true s.dir k).toOption, b.length < 2 ^ 32) :
    ∃ y', WalInv codec { s with dir := (Raft.compact codec .ok s.dir k).1 }
      (WalOp.apply ents (.compact k)) y' := by
  obtain ⟨bs, hbs⟩ := h.encodings.exists_of_subset
    fun e (he : e ∈ keepEntries k ents) => mem_of_mem_keepEntries he
  have hdata : compactData codec true s.dir k = .ok (frames bs) := by
    rw [h.compactData_eq hcodec, marshalEntries_eq_ok_iff]
    exact ⟨bs, hbs, rfl⟩
  rw [hdata] at hlen
  have hshort := hlen (frames bs) rfl
  rw [compact_ok codec s.dir hdata]
  rw [keepEntries_eq] at hbs
  refine ⟨⟨[], some [frames bs], bs⟩, ⟨∅, rfl, ?_⟩, ?_, ?_, hbs, ?_, ?_⟩
  · dsimp only
    rw [h.foldl_erase_obsolete, ← frames_singleton]
    rfl
  · intro e he
    cases he
  · intro p hp
    rwa [List.mem_singleton.mp hp]
  · exact List.append_nil _
  · exact fun b hb => (length_le_length_frames hb).trans_lt hshort

/-- Every admissible call acts on the list of entries. -/
theorem step (h : WalInv codec s ents y) (hcodec : codec.Faithful) {s' : WalRun} {op : WalOp}
    (hop : s.Admissible codec op) (hstep : s.step codec op = some s') :
    ∃ y', WalInv codec s' (op.apply ents) y' := by
  cases op with
  | append batch =>
      obtain ⟨bs, hbs, hb, rfl⟩ := WalRun.append_of_step hstep
      exact h.append hbs (hop (frames bs) hb)
  | rotate now =>
      obtain rfl := Option.some.inj hstep
      exact h.rotate hop
  | compact k =>
      obtain rfl := Option.some.inj hstep
      exact h.compact hcodec hop

theorem start : WalInv codec ⟨∅, []⟩ [] ⟨[], none, []⟩ := by
  refine ⟨⟨∅, rfl, rfl⟩, ?_, ?_, .nil, rfl, ?_⟩
  · exact fun e he => absurd he List.not_mem_nil
  · exact fun p hp => absurd hp List.not_mem_nil
  · exact fun b hb => absurd hb List.not_mem_nil

theorem run (hcodec : codec.Faithful) {ops : List WalOp} {s' : WalRun}
    (h : WalInv codec s ents y) (hrun : exec (WalRun.step codec) s ops = some s')
    (hops : Guarded (WalRun.step codec) (WalRun.Admissible codec) s ops) :
    ∃ y', WalInv codec s' (ops.foldl WalOp.apply ents) y' := by
  induction ops generalizing s ents y with
  | nil =>
      obtain rfl := Option.some.inj hrun
      exact ⟨y, h⟩
  | cons op ops ih =>
      obtain ⟨s₁, hstep, hrest⟩ := exec_cons_eq_some_iff.mp hrun
      obtain ⟨hop, hguard⟩ := (guarded_cons_of_step hstep).mp hops
      obtain ⟨y₁, h₁⟩ := h.step hcodec hop hstep
      exact ih h₁ hrest hguard

end WalInv

/-- The directory refines a list of entries. Whatever batches are appended, rotated
and compacted in any order on an empty directory, reading everything back and
decoding it gives the list on which the calls act. -/
theorem readWAL_refines (codec : EntryCodec) (hcodec : codec.Faithful) {ops : List WalOp}
    {s : WalRun} (hrun : exec (WalRun.step codec) ⟨∅, []⟩ ops = some s)
    (hops : Guarded (WalRun.step codec) (WalRun.Admissible codec) ⟨∅, []⟩ ops) :
    ∃ data, readWAL true s.dir 0 = .ok data ∧
      unmarshalEntries codec data = .ok (ops.foldl WalOp.apply []) := by
  obtain ⟨y, h⟩ := WalInv.start.run hcodec hrun hops
  exact ⟨_, h.readWAL_eq, h.unmarshal_readWAL hcodec⟩

/-- An entry of the first term without data. -/
def sampleEntry (index : ℕ) : Entry := ⟨1, index, .normal, []⟩

/-- The encoding of the first few of these entries: the fields `Type`, `Term` and `Index`,
each behind its tag. -/
def sampleCodec : EntryCodec :=
  let t := [1, 2, 3, 4].map fun i => (sampleEntry i, [8, 0, 16, 1, 24, UInt8.ofNat i])
  ⟨CodecTable.encode t, CodecTable.decode t⟩

theorem sampleCodec_faithful : sampleCodec.Faithful :=
  fun _ _ hb => CodecTable.decode_of_encode (by decide +kernel) hb

/-- Batches in several files, a compaction over all of them, and more batches. -/
def walSample : List WalOp :=
  [.rotate 7, .append [sampleEntry 1, sampleEntry 2], .rotate 98, .append [sampleEntry 3],
    .compact 1, .rotate 99, .append [], .append [sampleEntry 4]]

theorem readWAL_refines_sample :
    ∃ s data, exec (WalRun.step sampleCodec) ⟨∅, []⟩ walSample = some s ∧
      s.dir.toList.map Prod.fst = ["wal.99.log", "wal.log"] ∧
      readWAL true s.dir 0 = .ok data ∧
      unmarshalEntries sampleCodec data = .ok [sampleEntry 2, sampleEntry 3, sampleEntry 4] := by
  obtain ⟨s, hrun, hfiles⟩ : ∃ s, exec (WalRun.step sampleCodec) ⟨∅, []⟩ walSample = some s ∧
      s.dir.toList.map Prod.fst = ["wal.99.log", "wal.log"] :=
    exists_exec_of_any (by decide +kernel)
  obtain ⟨data, hdata, hents⟩ :=
    readWAL_refines sampleCodec sampleCodec_faithful hrun (by decide +kernel)
  exact ⟨s, data, hrun, hfiles, hdata, hents⟩

end StreamFlow.Raft
