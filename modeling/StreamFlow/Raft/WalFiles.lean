import StreamFlow.Raft.WalRefinement

/-!
# The files of a directory one by one

What a directory holds, without any assumption on the clock that names the rotated
files: every file of the log consists of whole frames with encoded entries, and all
entries are read, file by file. The names of rotated files come before `wal.log`, so
that its entries are the last ones.
-/

namespace StreamFlow.Raft

open BigEndian Frame Run

/-- `ReadWAL(0)` and then `unmarshalEntries`. -/
def readEntries (codec : EntryCodec) (dir : Directory) : Except WalError (List Entry) := do
  let data ← readWAL true dir 0
  unmarshalEntries codec data

/-- The entries that the whole frames of a file hold. -/
def fileEntries (codec : EntryCodec) (f : Bytes) : List Entry :=
  (unmarshalEntries codec (split f).1.flatten).toOption.getD []

/-- The entries of the files that `ReadWAL` reads, in the order of their names. -/
def dirEntries (codec : EntryCodec) (dir : Directory) : List Entry :=
  (dir.toList.filter fun e => isWalName e.1).flatMap fun e => fileEntries codec e.2

/-- The entries of all these files but `wal.log`. -/
def rotatedEntries (codec : EntryCodec) (dir : Directory) : List Entry :=
  dirEntries codec (dir.erase "wal.log")

/-- The payloads of the whole frames of a file together are the encoding of a list. -/
def Decodes (codec : EntryCodec) (f : Bytes) (ents : List Entry) : Prop :=
  ∃ bs, (split f).1.flatten = frames bs ∧ Encodings codec ents bs ∧ ∀ b ∈ bs, b.length < 2 ^ 32

/-- A file of the log without a torn frame. -/
structure WalFile (codec : EntryCodec) (name : String) (f : Bytes) : Prop where
  name : name = "wal.log" ∨ ∃ ts, name = rotatedName ts
  whole : ∃ ps, f = frames ps ∧ ∀ p ∈ ps, p.length < 2 ^ 32
  decodes : ∃ ents, Decodes codec f ents

/-- No file of the log has a torn frame. -/
def WalDir (codec : EntryCodec) (dir : Directory) : Prop :=
  ∀ name f, dir[name]? = some f → isWalName name = true → WalFile codec name f

variable {codec : EntryCodec} {dir : Directory}

namespace Decodes

variable {f : Bytes} {ents : List Entry}

theorem fileEntries_eq (h : Decodes codec f ents) (hcodec : codec.Faithful) :
    fileEntries codec f = ents := by
  obtain ⟨bs, hflat, hbs, hshort⟩ := h
  rw [fileEntries, hflat, unmarshalEntries_frames hcodec hbs hshort]
  rfl

/-- Nothing is read from an incomplete frame. -/
theorem of_read_none (h : read f = none) : Decodes codec f [] := by
  refine ⟨[], ?_, .nil, fun b hb => absurd hb List.not_mem_nil⟩
  rw [split_of_read_none h]
  rfl

theorem nil : Decodes codec [] [] := of_read_none read_nil

/-- One more frame with a batch. -/
theorem append_frame {ps : List Bytes} (h : Decodes codec (frames ps) ents)
    (hps : ∀ p ∈ ps, p.length < 2 ^ 32) {batch : List Entry} {bs : List Bytes}
    (hbs : Encodings codec batch bs) (hlen : (frames bs).length < 2 ^ 32) :
    Decodes codec (frames (ps ++ [frames bs])) (ents ++ batch) := by
  obtain ⟨bs', hflat, hbs', hshort⟩ := h
  have hall : ∀ p ∈ ps ++ [frames bs], p.length < 2 ^ 32 := by
    intro p hp
    rcases List.mem_append.mp hp with hp | hp
    · exact hps p hp
    · rwa [List.mem_singleton.mp hp]
  rw [split_frames hps] at hflat
  refine ⟨bs' ++ bs, ?_, List.rel_append hbs' hbs, ?_⟩
  · rw [split_frames hall, List.flatten_append, hflat, List.flatten_singleton, frames_append]
  · intro b hb
    rcases List.mem_append.mp hb with hb | hb
    · exact hshort b hb
    · exact (length_le_length_frames hb).trans_lt hlen

theorem frame {bs : List Bytes} (hbs : Encodings codec ents bs)
    (hlen : (frames bs).length < 2 ^ 32) : Decodes codec (Frame.frame (frames bs)) ents := by
  have h := append_frame nil (fun p hp => absurd hp List.not_mem_nil) hbs hlen
  rwa [List.nil_append, List.nil_append, frames_singleton] at h

end Decodes

section Read

/-- Several files one behind the other. -/
theorem decodes_flatMap (hcodec : codec.Faithful) {es : List (String × Bytes)}
    (h : ∀ e ∈ es, ∃ ents, Decodes codec e.2 ents) :
    ∃ bs, (es.flatMap fun e => (split e.2).1.flatten) = frames bs ∧
      Encodings codec (es.flatMap fun e => fileEntries codec e.2) bs ∧
        ∀ b ∈ bs, b.length < 2 ^ 32 := by
  induction es with
  | nil => exact ⟨[], rfl, .nil, fun b hb => absurd hb List.not_mem_nil⟩
  | cons e es ih =>
      obtain ⟨ents, hents⟩ := h e List.mem_cons_self
      obtain ⟨bs', hflat', hbs', hshort'⟩ := ih fun e' he' => h e' (List.mem_cons_of_mem e he')
      have heq := hents.fileEntries_eq hcodec
      obtain ⟨bs, hflat, hbs, hshort⟩ := hents
      refine ⟨bs ++ bs', ?_, ?_, ?_⟩
      · rw [List.flatMap_cons, hflat, hflat', frames_append]
      · rw [List.flatMap_cons, heq]
        exact List.rel_append hbs hbs'
      · intro b hb
        exact (List.mem_append.mp hb).elim (hshort b) (hshort' b)

/-- What `ReadWAL(0)` returns is the encoding of the entries of all files. -/
theorem exists_readWAL_eq (hcodec : codec.Faithful)
    (h : ∀ name f, dir[name]? = some f → isWalName name = true → ∃ ents, Decodes codec f ents) :
    ∃ bs, readWAL true dir 0 = .ok (frames bs) ∧ Encodings codec (dirEntries codec dir) bs ∧
      ∀ b ∈ bs, b.length < 2 ^ 32 := by
  have hfiles : ∀ e ∈ dir.toList.filter fun e => isWalName e.1, ∃ ents, Decodes codec e.2 ents := by
    intro e he
    obtain ⟨hget, hwal⟩ := (OrdMap.mem_filter_toList_iff dir).mp he
    exact h e.1 e.2 hget hwal
  obtain ⟨bs, hflat, hbs, hshort⟩ := decodes_flatMap hcodec hfiles
  exact ⟨bs, by rw [readWAL_zero, hflat], hbs, hshort⟩

/-- Reading and decoding a directory gives the entries of its files. -/
theorem readEntries_eq (hcodec : codec.Faithful)
    (h : ∀ name f, dir[name]? = some f → isWalName name = true → ∃ ents, Decodes codec f ents) :
    readEntries codec dir = .ok (dirEntries codec dir) := by
  obtain ⟨bs, hread, hbs, hshort⟩ := exists_readWAL_eq hcodec h
  rw [readEntries, hread]
  exact unmarshalEntries_frames hcodec hbs hshort

/-- Other files make no difference. -/
theorem dirEntries_congr {dir' : Directory}
    (h : ∀ name, isWalName name = true → dir[name]? = dir'[name]?) :
    dirEntries codec dir = dirEntries codec dir' := by
  rw [dirEntries, dirEntries, OrdMap.filter_toList_congr h]

end Read

namespace WalDir

theorem lt_log (h : WalDir codec dir) {e : String × Bytes} (he : e ∈ dir.toList)
    (hwal : isWalName e.1 = true) (hlog : e.1 ≠ "wal.log") : compare e.1 "wal.log" = .lt := by
  rcases (h e.1 e.2 ((OrdMap.mem_toList_iff dir).mp he) hwal).name with heq | ⟨ts, hts⟩
  · exact absurd heq hlog
  · rw [hts]
    exact rotatedName_lt_log ts

/-- The entries of `wal.log` come last. -/
theorem dirEntries_insert_log (h : WalDir codec dir) (f : Bytes) :
    dirEntries codec (dir.insert "wal.log" f) =
      rotatedEntries codec dir ++ fileEntries codec f := by
  rw [dirEntries, OrdMap.filter_toList_insert dir f rfl fun e he hwal hlog => h.lt_log he hwal hlog,
    List.flatMap_append, List.flatMap_singleton]
  rfl

theorem dirEntries_eq (h : WalDir codec dir) :
    dirEntries codec dir = rotatedEntries codec dir ++ fileEntries codec (walLog dir) := by
  cases hlog : dir["wal.log"]? with
  | none =>
      have hsame : rotatedEntries codec dir = dirEntries codec dir := by
        refine dirEntries_congr fun name _ => ?_
        rw [OrdMap.getElem?_erase]
        split
        · next heq => rw [← heq, hlog]
        · rfl
      have hnil : fileEntries codec (walLog dir) = [] := by
        rw [walLog, hlog]
        rfl
      rw [hsame, hnil, List.append_nil]
  | some f =>
      have hself : dir = dir.insert "wal.log" f := (OrdMap.insert_eq_self dir hlog).symm
      have hwal : walLog dir = f := by
        rw [walLog, hlog]
        rfl
      rw [hwal]
      nth_rewrite 1 [hself]
      exact h.dirEntries_insert_log f

theorem readEntries_eq (h : WalDir codec dir) (hcodec : codec.Faithful) :
    readEntries codec dir = .ok (dirEntries codec dir) :=
  Raft.readEntries_eq hcodec fun name f hf hwal => (h name f hf hwal).decodes

/-- What `Compact` computes from the directory. -/
theorem exists_compactData_eq (h : WalDir codec dir) (hcodec : codec.Faithful) (k : ℕ) :
    ∃ bs, compactData codec true dir k = .ok (frames bs) ∧
      Encodings codec (keepEntries k (dirEntries codec dir)) bs := by
  obtain ⟨bs, hread, hbs, hshort⟩ :=
    exists_readWAL_eq hcodec fun name f hf hwal => (h name f hf hwal).decodes
  obtain ⟨bs', hbs'⟩ := hbs.exists_of_subset
    fun e (he : e ∈ keepEntries k (dirEntries codec dir)) => mem_of_mem_keepEntries he
  refine ⟨bs', ?_, hbs'⟩
  rw [compactData, hread]
  change (unmarshalEntries codec (frames bs) >>= fun ents =>
    marshalEntries codec (keepEntries k ents)) = _
  rw [unmarshalEntries_frames hcodec hbs hshort]
  exact marshalEntries_eq_ok_iff.mpr ⟨bs', hbs', rfl⟩

theorem empty : WalDir codec ∅ := by
  intro name f hf
  rw [Std.ExtTreeMap.getElem?_empty] at hf
  cases hf

theorem insert (h : WalDir codec dir) {name : String} {f : Bytes}
    (hf : isWalName name = true → WalFile codec name f) : WalDir codec (dir.insert name f) := by
  intro name' f' hf' hwal
  rcases OrdMap.getElem?_insert_cases hf' with ⟨rfl, rfl⟩ | ⟨-, hf'⟩
  · exact hf hwal
  · exact h name' f' hf' hwal

theorem foldl_erase (h : WalDir codec dir) (names : List String) :
    WalDir codec (names.foldl (fun dir name => dir.erase name) dir) := by
  intro name f hf
  rw [OrdMap.getElem?_foldl_erase] at hf
  split at hf
  · cases hf
  · exact h name f hf

theorem erase (h : WalDir codec dir) (name : String) : WalDir codec (dir.erase name) :=
  h.foldl_erase [name]

/-- `wal.log`, also if there is no such file. -/
theorem walFile_log (h : WalDir codec dir) : WalFile codec "wal.log" (walLog dir) := by
  cases hlog : dir["wal.log"]? with
  | none =>
      rw [walLog, hlog]
      exact ⟨.inl rfl, ⟨[], rfl, fun p hp => absurd hp List.not_mem_nil⟩, [], .nil⟩
  | some f =>
      rw [walLog, hlog]
      exact h "wal.log" f hlog rfl

end WalDir

section Operations

theorem WalFile.append_frame {name : String} {f : Bytes} (h : WalFile codec name f)
    (hcodec : codec.Faithful) {batch : List Entry} {bs : List Bytes}
    (hbs : Encodings codec batch bs) (hlen : (frames bs).length < 2 ^ 32) :
    WalFile codec name (f ++ frame (frames bs)) ∧
      fileEntries codec (f ++ frame (frames bs)) = fileEntries codec f ++ batch := by
  obtain ⟨ents, hents⟩ := h.decodes
  have hold := hents.fileEntries_eq hcodec
  obtain ⟨ps, rfl, hps⟩ := h.whole
  have hnew := hents.append_frame hps hbs hlen
  have heq : frames ps ++ frame (frames bs) = frames (ps ++ [frames bs]) := by
    rw [frames_append, frames_singleton]
  rw [heq, hold]
  refine ⟨⟨h.name, ⟨_, rfl, ?_⟩, _, hnew⟩, hnew.fileEntries_eq hcodec⟩
  intro p hp
  rcases List.mem_append.mp hp with hp | hp
  · exact hps p hp
  · rwa [List.mem_singleton.mp hp]

/-- A file that consists of one frame with encoded entries. -/
theorem walFile_frame {ents : List Entry} {bs : List Bytes} (hbs : Encodings codec ents bs)
    (hlen : (frames bs).length < 2 ^ 32) : WalFile codec "wal.log" (frame (frames bs)) := by
  refine ⟨.inl rfl, ⟨[frames bs], (frames_singleton _).symm, ?_⟩, ents, .frame hbs hlen⟩
  intro p hp
  rwa [List.mem_singleton.mp hp]

/-- There are no rotated files. -/
def OnlyLog (dir : Directory) : Prop :=
  ∀ name, isWalName name = true → name ≠ "wal.log" → dir[name]? = none

theorem OnlyLog.rotatedEntries_eq (h : OnlyLog dir) : rotatedEntries codec dir = [] := by
  have hempty : rotatedEntries codec dir = dirEntries codec ∅ := by
    refine dirEntries_congr fun name hwal => ?_
    rw [OrdMap.getElem?_erase, Std.ExtTreeMap.getElem?_empty]
    split
    · rfl
    · next hne => exact h name hwal (Ne.symm hne)
  rw [hempty]
  rfl

variable (h : WalDir codec dir)
include h

/-- `AppendWAL` of an encoded batch. -/
theorem WalDir.append (hcodec : codec.Faithful) {batch : List Entry} {bs : List Bytes}
    (hbs : Encodings codec batch bs) (hlen : (frames bs).length < 2 ^ 32) :
    WalDir codec (appendWAL .ok dir (frames bs)).1 ∧
      dirEntries codec (appendWAL .ok dir (frames bs)).1 = dirEntries codec dir ++ batch := by
  obtain ⟨hfile, hents⟩ := h.walFile_log.append_frame hcodec hbs hlen
  rw [appendWAL_ok]
  refine ⟨h.insert fun _ => hfile, ?_⟩
  rw [h.dirEntries_eq, List.append_assoc, ← hents]
  exact h.dirEntries_insert_log _

/-- The directory after `wal.log` has got its new name. -/
theorem WalDir.rename {f : Bytes} (hlog : dir["wal.log"]? = some f) (now : ℕ) :
    WalDir codec ((dir.erase "wal.log").insert (rotatedName now) f) := by
  have hfile := h "wal.log" f hlog rfl
  exact (h.erase "wal.log").insert fun _ => ⟨.inr ⟨now, rfl⟩, hfile.whole, hfile.decodes⟩

theorem WalDir.rotate (now : ℕ) : WalDir codec (rotateWAL true true now dir).1 := by
  unfold rotateWAL
  cases hlog : dir["wal.log"]? with
  | none => exact h
  | some f => exact (h.rename hlog now).insert fun _ => empty.walFile_log

/-- A rotation changes nothing if it is the first one. -/
theorem WalDir.dirEntries_rotate (honly : OnlyLog dir) (now : ℕ) :
    dirEntries codec (rotateWAL true true now dir).1 = dirEntries codec dir := by
  unfold rotateWAL
  cases hlog : dir["wal.log"]? with
  | none => rfl
  | some f =>
      have hne : rotatedName now ≠ "wal.log" := by
        intro heq
        have hlt := rotatedName_lt_log now
        rw [heq] at hlt
        exact OrdMap.not_compare_self_lt _ hlt
      -- the rotated file is the only one besides the new `wal.log`
      have hone : rotatedEntries codec ((dir.erase "wal.log").insert (rotatedName now) f) =
          dirEntries codec ((∅ : Directory).insert (rotatedName now) f) := by
        refine dirEntries_congr fun name hwal => ?_
        rw [OrdMap.getElem?_erase, OrdMap.getElem?_insert, OrdMap.getElem?_insert,
          OrdMap.getElem?_erase, Std.ExtTreeMap.getElem?_empty]
        by_cases hname : "wal.log" = name
        · rw [if_pos hname, if_neg fun heq => hne (heq.trans hname.symm)]
        · rw [if_neg hname, if_neg hname, honly name hwal (Ne.symm hname)]
      have hsingle : dirEntries codec ((∅ : Directory).insert (rotatedName now) f) =
          fileEntries codec f := by
        rw [dirEntries,
          OrdMap.toList_insert_of_forall_lt ∅ f fun e he => absurd he List.not_mem_nil]
        simp [isWalName_rotatedName]
      have hnil : fileEntries codec [] = [] := rfl
      rw [h.dirEntries_eq, honly.rotatedEntries_eq, List.nil_append, walLog, hlog]
      change dirEntries codec (((dir.erase "wal.log").insert _ f).insert "wal.log" []) = _
      rw [(h.rename hlog now).dirEntries_insert_log, hone, hsingle, hnil, List.append_nil]
      rfl

/-- The files that are left after `Compact`. -/
theorem WalDir.onlyLog_foldl_erase (f : Bytes) :
    OnlyLog ((obsoleteFiles (dir.insert "wal.log" f)).foldl (fun dir name => dir.erase name)
      (dir.insert "wal.log" f)) := by
  intro name hwal hname
  rw [OrdMap.getElem?_foldl_erase]
  split
  · rfl
  · next hkept =>
      cases hget : (dir.insert "wal.log" f)[name]? with
      | none => rfl
      | some f' =>
          -- the name of a rotated file marks it as obsolete
          refine absurd (List.mem_filter.mpr ⟨List.mem_map.mpr ⟨(name, f'),
            (OrdMap.mem_toList_iff _).mpr hget, rfl⟩, ?_⟩) hkept
          rw [OrdMap.getElem?_insert_of_ne _ _ (Ne.symm hname)] at hget
          rcases (h name f' hget hwal).name with heq | ⟨ts, rfl⟩
          · exact absurd heq hname
          · rw [isPrefixOf_rotatedName]
            simpa using hname

/-- `Compact` leaves `wal.log` with the entries it keeps. -/
theorem WalDir.compact (hcodec : codec.Faithful) {k : ℕ}
    (hlen : ∀ b ∈ (compactData codec true dir k).toOption, b.length < 2 ^ 32) :
    WalDir codec (Raft.compact codec .ok dir k).1 ∧ OnlyLog (Raft.compact codec .ok dir k).1 ∧
      dirEntries codec (Raft.compact codec .ok dir k).1 =
        keepEntries k (dirEntries codec dir) := by
  obtain ⟨bs, hdata, hbs⟩ := h.exists_compactData_eq hcodec k
  rw [hdata] at hlen
  have hshort := hlen (frames bs) rfl
  rw [compact_ok codec dir hdata]
  have hdir := (h.insert fun _ => walFile_frame hbs hshort).foldl_erase
    (obsoleteFiles (dir.insert "wal.log" (frame (frames bs))))
  have honly := h.onlyLog_foldl_erase (frame (frames bs))
  refine ⟨hdir, honly, ?_⟩
  have hlog : ((obsoleteFiles (dir.insert "wal.log" (frame (frames bs)))).foldl
      (fun dir name => dir.erase name) (dir.insert "wal.log" (frame (frames bs))))["wal.log"]? =
      some (frame (frames bs)) := by
    rw [OrdMap.getElem?_foldl_erase, if_neg, OrdMap.getElem?_insert_self']
    simp [obsoleteFiles]
  rw [hdir.dirEntries_eq, honly.rotatedEntries_eq, List.nil_append, walLog, hlog]
  exact (Decodes.frame hbs hshort).fileEntries_eq hcodec

end Operations

end StreamFlow.Raft
