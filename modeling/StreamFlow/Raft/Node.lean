import StreamFlow.Raft.WalFiles

/-!
# The raft node

`Node` of `broker/internal/raft/node.go` with a `walStorage` without an offloader: what
`Start` recovers from the directory, what the loop does with a `Ready` of the raft
library, and `Compact`. `persistentMemory` of `persistent_mem.go` is the storage that
writes every batch to the log itself. It takes the place of the plain memory storage
when `Start` has found entries, and the loop goes on writing the batches to the log.

The memory storage of the raft library enters as a structure of functions. What its
documentation says about them are the properties `StartsEmpty`, `ReplacesSuffix`,
`PanicsOnGap` and `KeepsHardState`.
-/

namespace StreamFlow.Raft

open BigEndian ByteFile Frame

/-- `raftpb.HardState`. -/
structure HardState where
  term : ℕ
  vote : ℕ
  commit : ℕ
deriving DecidableEq, Repr

/-- `raftpb.Snapshot`. -/
structure Snapshot where
  index : ℕ
  term : ℕ
  data : Bytes
deriving DecidableEq, Repr

/-- `raftpb.Message`: the receiver, and what `proto.Marshal` makes of the message. -/
structure Message where
  receiver : ℕ
  encoded : Option Bytes
deriving DecidableEq, Repr

/-- `raft.Ready`. -/
structure Ready where
  hardState : HardState
  entries : List Entry
  snapshot : Snapshot
  messages : List Message
deriving DecidableEq, Repr

/-- `raft.MemoryStorage` with states `μ`. A result `none` of `append` is a panic; the node
never looks at an error. -/
structure MemoryStorage (μ : Type*) where
  fresh : μ
  append : μ → List Entry → Option μ
  applySnapshot : μ → Snapshot → μ
  firstIndex : μ → ℕ
  entries : μ → List Entry
  hardState : μ → HardState

namespace MemoryStorage

variable {μ : Type*} (ms : MemoryStorage μ)

def lastIndex (m : μ) : ℕ := ms.firstIndex m + (ms.entries m).length - 1

/-- The entry with an index. -/
def entryAt (m : μ) (i : ℕ) : Option Entry :=
  if i < ms.firstIndex m then none else (ms.entries m)[i - ms.firstIndex m]?

/-- A new storage holds a dummy entry of index 0 only, and a snapshot of index 0 changes
nothing. -/
structure StartsEmpty : Prop where
  firstIndex : ms.firstIndex ms.fresh = 1
  entries : ms.entries ms.fresh = []
  applySnapshot : ∀ term data, ms.applySnapshot ms.fresh ⟨0, term, data⟩ = ms.fresh

/-- `Append` replaces everything from the index of the first entry on, if that index
leaves no gap. -/
def ReplacesSuffix : Prop :=
  ∀ m e ents, ms.firstIndex m ≤ e.index → e.index ≤ ms.firstIndex m + (ms.entries m).length →
    ∃ m', ms.append m (e :: ents) = some m' ∧ ms.firstIndex m' = ms.firstIndex m ∧
      ms.entries m' = (ms.entries m).take (e.index - ms.firstIndex m) ++ e :: ents

/-- `Append` panics if the index of the first entry leaves a gap. -/
def PanicsOnGap : Prop :=
  ∀ m e ents, ms.firstIndex m + (ms.entries m).length < e.index → ms.append m (e :: ents) = none

/-- The hard state is empty until it is set. -/
structure KeepsHardState : Prop where
  fresh : ms.hardState ms.fresh = ⟨0, 0, 0⟩
  applySnapshot : ∀ m snap, ms.hardState (ms.applySnapshot m snap) = ms.hardState m

/-- The same entries at the same indices. -/
def SameLog (m m' : μ) : Prop :=
  (∀ i, ms.entryAt m i = ms.entryAt m' i) ∧ ms.lastIndex m = ms.lastIndex m'

theorem sameLog_iff {m m' : μ} (h : ms.firstIndex m = ms.firstIndex m') :
    ms.SameLog m m' ↔ ms.entries m = ms.entries m' := by
  constructor
  · rintro ⟨hat, -⟩
    apply List.ext_getElem?
    intro j
    have hle : ¬ ms.firstIndex m' + j < ms.firstIndex m' := by omega
    have hj := hat (ms.firstIndex m' + j)
    rwa [entryAt, entryAt, h, if_neg hle, if_neg hle, Nat.add_sub_cancel_left] at hj
  · intro hents
    refine ⟨fun i => ?_, ?_⟩
    · rw [entryAt, entryAt, h, hents]
    · rw [lastIndex, lastIndex, h, hents]

end MemoryStorage

/-- The state of the memory storage: the index of its dummy entry, and the entries behind
it. -/
structure MemoryLog where
  dummyIndex : ℕ
  entries : List Entry
deriving DecidableEq, Repr

/-- The memory storage as the raft library implements it. -/
def memoryLog : MemoryStorage MemoryLog where
  fresh := ⟨0, []⟩
  append m
    | [] => some m
    | e :: ents =>
        -- entries up to the dummy entry are cut off
        if e.index + ents.length ≤ m.dummyIndex then some m
        else
          let first := max e.index (m.dummyIndex + 1)
          if first ≤ m.dummyIndex + 1 + m.entries.length then
            some
              { m with
                entries := m.entries.take (first - (m.dummyIndex + 1)) ++
                  (e :: ents).drop (first - e.index) }
          else none
  applySnapshot m snap := if snap.index ≤ m.dummyIndex then m else ⟨snap.index, []⟩
  firstIndex m := m.dummyIndex + 1
  entries := MemoryLog.entries
  hardState _ := ⟨0, 0, 0⟩

theorem memoryLog_startsEmpty : memoryLog.StartsEmpty := ⟨rfl, rfl, fun _ _ => rfl⟩

theorem memoryLog_keepsHardState : memoryLog.KeepsHardState := ⟨rfl, fun _ _ => rfl⟩

theorem memoryLog_replacesSuffix : memoryLog.ReplacesSuffix := by
  intro m e ents hfirst hlast
  have hmax : max e.index (m.dummyIndex + 1) = e.index := max_eq_left hfirst
  refine ⟨{ m with entries := m.entries.take (e.index - (m.dummyIndex + 1)) ++ e :: ents }, ?_, rfl,
    rfl⟩
  change m.dummyIndex + 1 ≤ e.index at hfirst
  change e.index ≤ m.dummyIndex + 1 + m.entries.length at hlast
  simp only [memoryLog]
  rw [if_neg (by omega), hmax, if_pos hlast, Nat.sub_self, List.drop_zero]

theorem memoryLog_panicsOnGap : memoryLog.PanicsOnGap := by
  intro m e ents hgap
  change m.dummyIndex + 1 + m.entries.length < e.index at hgap
  have hmax : max e.index (m.dummyIndex + 1) = e.index := max_eq_left (by omega)
  simp only [memoryLog]
  rw [if_neg (by omega), hmax, if_neg (by omega)]

/-- The file names `LoadSnapshot` and `PurgeOldSnapshots` look for. -/
def isSnapshotName (name : String) : Bool :=
  9 < name.length && "snapshot.".toList.isPrefixOf name.toList

def snapshotNames (dir : Directory) : List String :=
  (dir.toList.map Prod.fst).filter isSnapshotName

def snapshotName (ts : ℕ) : String := "snapshot." ++ toString ts ++ ".snap"

/-- `SaveSnapshot` at the time `now`; it may fail to open the file or to write it. -/
def saveSnapshot (opened : Bool) (write : WriteOutcome) (now : ℕ) (dir : Directory)
    (data : Bytes) : Directory × Except WalError String :=
  if opened then
    match write with
    | .done => (dir.insert (snapshotName now) data, .ok (toString now))
    | .failed n => (dir.insert (snapshotName now) (data.take n), .error .io)
  else (dir, .error .io)

/-- `LoadSnapshot`: the contents of the file with the greatest name. -/
def loadSnapshot (listed : Bool) (dir : Directory) : Except WalError Bytes :=
  if listed then
    let latest := (snapshotNames dir).foldl
      (fun latest name => if latest = "" || latest < name then name else latest) ""
    if latest = "" then .error .io else .ok ((dir[latest]?).getD [])
  else .error .io

/-- `PurgeOldSnapshots`; it does not look whether it could remove a file. -/
def purgeOldSnapshots (listed : Bool) (removed : String → Bool) (keep : ℕ) (dir : Directory) :
    Directory × Except WalError Unit :=
  if listed then
    let snaps := snapshotNames dir
    if snaps.length ≤ keep then (dir, .ok ())
    else
      (((snaps.take (snaps.length - keep)).filter removed).foldl
        (fun dir name => dir.erase name) dir, .ok ())
  else (dir, .error .io)

/-- How the file operations of `Node.Compact` end, and when the log is rotated. -/
structure NodeCompactIO where
  compact : CompactIO
  renamed : Bool
  created : Bool
  now : ℕ
  listed : Bool
  removed : String → Bool

def NodeCompactIO.ok (now : ℕ) : NodeCompactIO := ⟨.ok, true, true, now, true, fun _ => true⟩

/-- `Node.Compact`. -/
def nodeCompact (codec : EntryCodec) (io : NodeCompactIO) (dir : Directory) (index : ℕ) :
    Directory × Except WalError Unit :=
  match compact codec io.compact dir index with
  | (dir, .error e) => (dir, .error e)
  | (dir, .ok _) =>
      match rotateWAL io.renamed io.created io.now dir with
      | (dir, .error e) => (dir, .error e)
      | (dir, .ok _) => purgeOldSnapshots io.listed io.removed 2 dir

section Loop

variable {μ : Type*} (codec : EntryCodec) (ms : MemoryStorage μ)

/-- `persistentMemory.Append`; no result is a panic. -/
def persistentAppend (io : FrameIO) (dir : Directory) (mem : μ) (ents : List Entry) :
    Directory × Option (μ × Except WalError Unit) :=
  if ents = [] then (dir, some (mem, .ok ()))
  else
    match marshalEntries codec ents with
    | .error e => (dir, some (mem, .error e))
    | .ok b =>
        match appendWAL io dir b with
        | (dir, .error e) => (dir, some (mem, .error e))
        | (dir, .ok _) => (dir, (ms.append mem ents).map fun mem => (mem, .ok ()))

/-- A running node: its directory, its memory storage, and whether raft's storage is the
one that writes to the log itself. -/
structure Node (μ : Type*) where
  dir : Directory
  mem : μ
  persistent : Bool

/-- How the file operations of `Start` end; `snapshot` is what is read of a snapshot
file, if it can be opened. -/
structure StartIO where
  listed : Bool
  snapshot : Bytes → Option Bytes
  readable : Bool
  append : FrameIO

def StartIO.ok : StartIO := ⟨true, some, true, .ok⟩

/-- The memory storage after the snapshot, whose index and term are not stored. -/
def recoverSnapshot (io : StartIO) (dir : Directory) : μ :=
  match loadSnapshot io.listed dir with
  | .error _ => ms.fresh
  | .ok f =>
      match io.snapshot f with
      | none => ms.fresh
      | some data => if data = [] then ms.fresh else ms.applySnapshot ms.fresh ⟨0, 0, data⟩

/-- The entries that `Start` reads from the log; it does without them on an error. -/
def recoverEntries (io : StartIO) (dir : Directory) : List Entry :=
  match readWAL io.readable dir 0 with
  | .error _ => []
  | .ok data =>
      if data = [] then []
      else
        match unmarshalEntries codec data with
        | .error _ => []
        | .ok ents => ents

/-- `Start`, up to the start of the raft library; no result is a panic. -/
def start (io : StartIO) (dir : Directory) : Option (Node μ) :=
  let mem := recoverSnapshot ms io dir
  let ents := recoverEntries codec io dir
  if ents = [] then some ⟨dir, mem, false⟩
  else
    match persistentAppend codec ms io.append dir mem ents with
    | (_, none) => none
    | (dir, some (mem, _)) => some ⟨dir, mem, true⟩

/-- How the file operations for a `Ready` end, and what is written into a snapshot and
when. -/
structure ReadyIO where
  wal : FrameIO
  persistent : FrameIO
  snapshotOpened : Bool
  snapshotWrite : WriteOutcome
  snapshotData : Bytes
  snapshotTime : ℕ
  compact : NodeCompactIO

/-- Everything succeeds. -/
def ReadyIO.ok (data : Bytes) (snapshotTime rotationTime : ℕ) : ReadyIO :=
  ⟨.ok, .ok, true, .done, data, snapshotTime, .ok rotationTime⟩

/-- What the loop does with a `Ready` before it sends the messages; no result is a
panic. -/
def storeReady (io : ReadyIO) (n : Node μ) (rd : Ready) : Option (Node μ) :=
  let mem := if rd.snapshot.index = 0 then n.mem else ms.applySnapshot n.mem rd.snapshot
  if rd.entries = [] then some { n with mem }
  else
    let dir :=
      match marshalEntries codec rd.entries with
      | .error _ => n.dir
      | .ok b => (appendWAL io.wal n.dir b).1
    if n.persistent then
      match persistentAppend codec ms io.persistent dir mem rd.entries with
      | (_, none) => none
      | (dir, some (mem, _)) => some { n with dir, mem }
    else (ms.append mem rd.entries).map fun mem => { n with dir, mem }

/-- The transport of a node: whether it has one, and the addresses it was given. -/
structure Peers where
  transport : Bool
  addrs : OrdMap ℕ String

/-- The messages that are passed to `Transport.Send`, with their addresses. -/
def sentMessages (peers : Peers) (rd : Ready) : List (String × Bytes) :=
  if peers.transport then
    rd.messages.filterMap fun m =>
      m.encoded.map fun b => ((peers.addrs[m.receiver]?).getD (toString m.receiver), b)
  else []

/-- What the loop does with a `Ready` after it has sent the messages: a batch of 50
entries makes it save a snapshot and compact the log. -/
def checkpoint (io : ReadyIO) (n : Node μ) (rd : Ready) : Node μ :=
  if 50 ≤ rd.entries.length then
    match saveSnapshot io.snapshotOpened io.snapshotWrite io.snapshotTime n.dir
        io.snapshotData with
    | (dir, .error _) => { n with dir }
    | (dir, .ok _) => { n with dir := (nodeCompact codec io.compact dir 0).1 }
  else n

/-- The loop for one `Ready`: the messages sent and the node afterwards. -/
def handleReady (peers : Peers) (io : ReadyIO) (n : Node μ) (rd : Ready) :
    Option (List (String × Bytes) × Node μ) :=
  (storeReady codec ms io n rd).map fun n => (sentMessages peers rd, checkpoint codec io n rd)

end Loop

section Snapshots

variable {codec : EntryCodec} {dir : Directory}

theorem isWalName_of_isSnapshotName {name : String} (h : isSnapshotName name = true) :
    isWalName name = false := by
  rw [isSnapshotName, Bool.and_eq_true] at h
  obtain ⟨rest, hrest⟩ := List.isPrefixOf_iff_prefix.mp h.2
  have hlog : name ≠ "wal.log" := by
    rintro rfl
    simp at hrest
  have hother : "wal.".toList.isPrefixOf ("snapshot.".toList ++ rest) = false := rfl
  rw [isWalName, ← hrest, hother]
  simp [hlog]

theorem isSnapshotName_snapshotName (ts : ℕ) : isSnapshotName (snapshotName ts) = true := by
  have hfirst : "snapshot.".length = 9 := rfl
  have hlast : ".snap".length = 5 := rfl
  rw [isSnapshotName, snapshotName, String.length_append, String.length_append, hfirst, hlast,
    String.toList_append, String.toList_append, List.append_assoc, Bool.and_eq_true]
  refine ⟨by simp; omega, ?_⟩
  exact List.isPrefixOf_iff_prefix.mpr (List.prefix_append _ _)

/-- Files that are not part of the log make no difference. -/
theorem WalDir.congr {dir' : Directory} (h : WalDir codec dir)
    (hsame : ∀ name, isWalName name = true → dir'[name]? = dir[name]?) : WalDir codec dir' := by
  intro name f hf hwal
  rw [hsame name hwal] at hf
  exact h name f hf hwal

theorem getElem?_saveSnapshot {name : String} (hwal : isWalName name = true) (opened : Bool)
    (write : WriteOutcome) (now : ℕ) (data : Bytes) :
    (saveSnapshot opened write now dir data).1[name]? = dir[name]? := by
  have hne : snapshotName now ≠ name := by
    rintro rfl
    rw [isWalName_of_isSnapshotName (isSnapshotName_snapshotName now)] at hwal
    cases hwal
  unfold saveSnapshot
  split
  · cases write with
    | done => exact OrdMap.getElem?_insert_of_ne _ _ hne
    | failed n => exact OrdMap.getElem?_insert_of_ne _ _ hne
  · rfl

theorem getElem?_purgeOldSnapshots {name : String} (hwal : isWalName name = true) (listed : Bool)
    (removed : String → Bool) (keep : ℕ) :
    (purgeOldSnapshots listed removed keep dir).1[name]? = dir[name]? := by
  unfold purgeOldSnapshots
  dsimp only
  split
  · split
    · rfl
    · rw [OrdMap.getElem?_foldl_erase, if_neg]
      intro hmem
      have hsnap := (List.mem_filter.mp (List.mem_of_mem_take (List.mem_filter.mp hmem).1)).2
      rw [isWalName_of_isSnapshotName hsnap] at hwal
      cases hwal
  · rfl

end Snapshots

section NodeOperations

variable {μ : Type*} {codec : EntryCodec} {ms : MemoryStorage μ} {dir : Directory}

/-- A list of entries is encoded in fewer than `2 ^ 32` bytes. -/
def Fits (codec : EntryCodec) (ents : List Entry) : Prop :=
  ∃ b ∈ (marshalEntries codec ents).toOption, b.length < 2 ^ 32

instance (codec : EntryCodec) (ents : List Entry) : Decidable (Fits codec ents) :=
  inferInstanceAs (Decidable (∃ b ∈ _, _))

theorem fits_iff {ents : List Entry} :
    Fits codec ents ↔ ∃ bs, Encodings codec ents bs ∧ (frames bs).length < 2 ^ 32 := by
  rw [Fits]
  constructor
  · rintro ⟨b, hb, hlen⟩
    obtain ⟨bs, hbs, rfl⟩ := marshalEntries_eq_ok_iff.mp (eq_ok_of_toOption hb)
    exact ⟨bs, hbs, hlen⟩
  · rintro ⟨bs, hbs, hlen⟩
    rw [marshalEntries_eq_ok_iff.mpr ⟨bs, hbs, rfl⟩]
    exact ⟨frames bs, rfl, hlen⟩

theorem Fits.length_lt {ents : List Entry} (h : Fits codec ents) {bs : List Bytes}
    (hbs : Encodings codec ents bs) : (frames bs).length < 2 ^ 32 := by
  obtain ⟨b, hb, hlen⟩ := h
  rw [marshalEntries_eq_ok_iff.mpr ⟨bs, hbs, rfl⟩] at hb
  rwa [Option.some.inj hb]

/-- What `Start` reads from a directory. -/
theorem recoverEntries_ok (hcodec : codec.Faithful)
    (h : ∀ name f, dir[name]? = some f → isWalName name = true → ∃ ents, Decodes codec f ents) :
    recoverEntries codec .ok dir = dirEntries codec dir := by
  obtain ⟨bs, hread, hbs, hshort⟩ := exists_readWAL_eq hcodec h
  have hents := unmarshalEntries_frames hcodec hbs hshort
  rw [recoverEntries, StartIO.ok, hread]
  dsimp only
  split
  · next hnil =>
      rw [hnil] at hents
      exact Except.ok.inj hents
  · rw [hents]

/-- The snapshot is stored without its index, and has no effect. -/
theorem recoverSnapshot_eq (hms : ms.StartsEmpty) (io : StartIO) (dir : Directory) :
    recoverSnapshot ms io dir = ms.fresh := by
  unfold recoverSnapshot
  split
  · rfl
  · split
    · rfl
    · split
      · rfl
      · exact hms.applySnapshot 0 _

theorem hardState_recoverSnapshot (hms : ms.KeepsHardState) (io : StartIO) (dir : Directory) :
    ms.hardState (recoverSnapshot ms io dir) = ⟨0, 0, 0⟩ := by
  unfold recoverSnapshot
  split
  · exact hms.fresh
  · split
    · exact hms.fresh
    · split
      · exact hms.fresh
      · rw [hms.applySnapshot, hms.fresh]

/-- `persistentMemory.Append` without errors of the file system. -/
theorem persistentAppend_ok (mem : μ) {ents : List Entry} (hne : ents ≠ []) {bs : List Bytes}
    (hbs : Encodings codec ents bs) :
    persistentAppend codec ms .ok dir mem ents =
      ((appendWAL .ok dir (frames bs)).1, (ms.append mem ents).map fun mem => (mem, .ok ())) := by
  rw [persistentAppend, if_neg hne, marshalEntries_eq_ok_iff.mpr ⟨bs, hbs, rfl⟩]
  dsimp only
  rw [appendWAL_ok]

/-- `Start` writes the entries it has read to the log again. -/
theorem WalDir.start_eq (h : WalDir codec dir) (hcodec : codec.Faithful) :
    ∃ bs, Encodings codec (dirEntries codec dir) bs ∧
      start codec ms .ok dir =
        if dirEntries codec dir = [] then some ⟨dir, recoverSnapshot ms .ok dir, false⟩
        else (ms.append (recoverSnapshot ms .ok dir) (dirEntries codec dir)).map fun mem =>
          ⟨(appendWAL .ok dir (frames bs)).1, mem, true⟩ := by
  have hdecodes : ∀ name f, dir[name]? = some f → isWalName name = true →
      ∃ ents, Decodes codec f ents := fun name f hf hwal => (h name f hf hwal).decodes
  obtain ⟨bs, -, hbs, -⟩ := exists_readWAL_eq hcodec hdecodes
  refine ⟨bs, hbs, ?_⟩
  rw [start, recoverEntries_ok hcodec hdecodes]
  split
  · rfl
  · next hne =>
      have happend : StartIO.ok.append = .ok := rfl
      rw [happend, persistentAppend_ok _ hne hbs]
      cases ms.append (recoverSnapshot ms .ok dir) (dirEntries codec dir) <;> rfl

/-- The payload that `Compact` writes. -/
theorem WalDir.short_compactData (h : WalDir codec dir) (hcodec : codec.Faithful) {k : ℕ}
    (hfits : Fits codec (keepEntries k (dirEntries codec dir))) :
    ∀ b ∈ (compactData codec true dir k).toOption, b.length < 2 ^ 32 := by
  obtain ⟨bs, hdata, hbs⟩ := h.exists_compactData_eq hcodec k
  rw [hdata]
  intro b hb
  rw [← Option.some.inj hb]
  exact hfits.length_lt hbs

theorem nodeCompact_eq {k now : ℕ} (hcompact : (compact codec .ok dir k).2 = .ok ())
    (hrotate : (rotateWAL true true now (compact codec .ok dir k).1).2 = .ok ()) :
    (nodeCompact codec (.ok now) dir k).1 =
      (purgeOldSnapshots true (fun _ => true) 2
        (rotateWAL true true now (compact codec .ok dir k).1).1).1 := by
  unfold nodeCompact NodeCompactIO.ok
  dsimp only
  cases hc : compact codec .ok dir k with
  | mk dir₁ res₁ =>
      rw [hc] at hcompact hrotate
      dsimp only at hcompact hrotate
      subst hcompact
      dsimp only
      cases hr : rotateWAL true true now dir₁ with
      | mk dir₂ res₂ =>
          rw [hr] at hrotate
          dsimp only at hrotate
          subst hrotate
          rfl

/-- `Node.Compact` keeps what `walStorage.Compact` keeps. -/
theorem WalDir.nodeCompact (h : WalDir codec dir) (hcodec : codec.Faithful) {k : ℕ}
    (hfits : Fits codec (keepEntries k (dirEntries codec dir))) (now : ℕ) :
    WalDir codec (Raft.nodeCompact codec (.ok now) dir k).1 ∧
      dirEntries codec (Raft.nodeCompact codec (.ok now) dir k).1 =
        keepEntries k (dirEntries codec dir) := by
  obtain ⟨hdir, honly, hents⟩ := h.compact hcodec (h.short_compactData hcodec hfits)
  obtain ⟨bs, hdata, -⟩ := h.exists_compactData_eq hcodec k
  have hcompact : (Raft.compact codec .ok dir k).2 = .ok () := by
    rw [compact_ok codec dir hdata]
  have hrotate : (rotateWAL true true now (Raft.compact codec .ok dir k).1).2 = .ok () := by
    unfold rotateWAL
    split <;> rfl
  have hsame : ∀ name, isWalName name = true →
      (Raft.nodeCompact codec (.ok now) dir k).1[name]? =
        (rotateWAL true true now (Raft.compact codec .ok dir k).1).1[name]? := by
    intro name hwal
    rw [nodeCompact_eq hcompact hrotate, getElem?_purgeOldSnapshots hwal]
  refine ⟨(hdir.rotate now).congr hsame, ?_⟩
  rw [dirEntries_congr hsame, hdir.dirEntries_rotate honly, hents]

/-- What a batch adds to the log: persistent memory writes it once more. -/
def written (persistent : Bool) (ents : List Entry) : List Entry :=
  if persistent then ents ++ ents else ents

/-- Storing a batch without errors of the file system. -/
theorem WalDir.storeReady {n n' : Node μ} (h : WalDir codec n.dir) (hcodec : codec.Faithful)
    {rd : Ready} (hfits : Fits codec rd.entries) {data : Bytes} {t₁ t₂ : ℕ}
    (hstore : Raft.storeReady codec ms (.ok data t₁ t₂) n rd = some n') :
    WalDir codec n'.dir ∧ n'.persistent = n.persistent ∧
      dirEntries codec n'.dir = dirEntries codec n.dir ++ written n.persistent rd.entries := by
  obtain ⟨bs, hbs, hlen⟩ := fits_iff.mp hfits
  rw [Raft.storeReady] at hstore
  dsimp only at hstore
  split at hstore
  · next hnil =>
      obtain rfl := Option.some.inj hstore
      refine ⟨h, rfl, ?_⟩
      rw [hnil]
      cases n.persistent <;> simp [written]
  · next hne =>
      rw [marshalEntries_eq_ok_iff.mpr ⟨bs, hbs, rfl⟩] at hstore
      obtain ⟨hdir, hents⟩ := h.append hcodec hbs hlen
      split at hstore
      · next hpers =>
          obtain ⟨hdir', hents'⟩ := hdir.append hcodec hbs hlen
          dsimp only [ ReadyIO.ok] at hstore
          rw [persistentAppend_ok _ hne hbs] at hstore
          split at hstore
          · cases hstore
          · next dir' mem' res heq =>
              obtain ⟨rfl, -⟩ := Prod.mk.inj heq
              obtain rfl := Option.some.inj hstore
              refine ⟨hdir', rfl, ?_⟩
              rw [hents', hents, written, if_pos hpers, List.append_assoc]
      · next hpers =>
          obtain ⟨mem', -, rfl⟩ := Option.map_eq_some_iff.mp hstore
          exact ⟨hdir, rfl, by rw [written, if_neg hpers]; exact hents⟩

theorem mem_checkpoint (io : ReadyIO) (n : Node μ) (rd : Ready) :
    (checkpoint codec io n rd).mem = n.mem := by
  unfold checkpoint
  split
  · split <;> rfl
  · rfl

theorem persistent_checkpoint (io : ReadyIO) (n : Node μ) (rd : Ready) :
    (checkpoint codec io n rd).persistent = n.persistent := by
  unfold checkpoint
  split
  · split <;> rfl
  · rfl

/-- What the loop does after it has sent the messages, without errors of the file
system. -/
theorem WalDir.checkpoint {n : Node μ} (h : WalDir codec n.dir) (hcodec : codec.Faithful)
    {rd : Ready}
    (hfits : 50 ≤ rd.entries.length → Fits codec (keepEntries 0 (dirEntries codec n.dir)))
    (data : Bytes) (t₁ t₂ : ℕ) :
    WalDir codec (Raft.checkpoint codec (.ok data t₁ t₂) n rd).dir ∧
      dirEntries codec (Raft.checkpoint codec (.ok data t₁ t₂) n rd).dir =
        if 50 ≤ rd.entries.length then keepEntries 0 (dirEntries codec n.dir)
        else dirEntries codec n.dir := by
  unfold Raft.checkpoint
  split
  · next hlen =>
      have hsame : ∀ name, isWalName name = true →
          (saveSnapshot true .done t₁ n.dir data).1[name]? = n.dir[name]? :=
        fun name hwal => getElem?_saveSnapshot hwal true .done t₁ data
      have hents : dirEntries codec (saveSnapshot true .done t₁ n.dir data).1 =
          dirEntries codec n.dir := dirEntries_congr hsame
      have hfits' := hfits hlen
      rw [← hents] at hfits' ⊢
      exact (h.congr hsame).nodeCompact hcodec hfits' t₂
  · exact ⟨h, rfl⟩

end NodeOperations

end StreamFlow.Raft
