import StreamFlow.Foundation.Run
import StreamFlow.Raft.Node

/-!
# The snapshots of a storage

`SaveSnapshot`, `LoadSnapshot` and `PurgeOldSnapshots` of `wal.go`, with an offloader or without
one. Snapshots are files that have the time in their names, and the greatest name counts. When no
file is left, the offloader is asked for its greatest key, and the object is written back to the
directory. Both `SaveSnapshot` and this download write to the file under its final name.

A run of `SnapshotRun.step` is any mix of these calls, each with its failures. `returnsLatest_iff`
shows which of them keep `LoadSnapshot` from returning something else than the last snapshot
that was saved.
-/

namespace StreamFlow.Raft

open BigEndian ByteFile Decimal Run

inductive SnapshotError where
  /-- `os.ErrNotExist`. -/
  | notExist
  | io
deriving DecidableEq, Repr

/-- `storage.Offloader` with states `ω`, for the bucket of the snapshots. No result is an error,
and the result of `Upload` is not looked at. -/
structure Offloader (ω : Type) where
  upload : ω → String → Bytes → ω
  download : ω → String → Option Bytes
  list : ω → String → Option (List String)

/-- `LocalOffloader`: the files of a directory, which the first `Upload` makes. -/
def localOffloader : Offloader (Option Directory) where
  upload bucket key data := some ((bucket.getD ∅).insert key data)
  download bucket key := bucket.bind fun dir => dir[key]?
  list bucket start := bucket.map fun dir =>
    (dir.toList.map Prod.fst).filter fun name => start.toList.isPrefixOf name.toList

/-- What is in the file when `io.Copy` returns. -/
def copiedBytes (data : Bytes) : WriteOutcome → Bytes
  | .done => data
  | .failed n => data.take n

/-- The loop of `LoadSnapshot` over the directory. -/
def latestSnapshot (names : List String) : String :=
  names.foldl (fun latest name => if latest = "" || latest < name then name else latest) ""

/-- The loop of `LoadSnapshot` over the keys of the offloader. -/
def latestKey : List String → Option String
  | [] => none
  | k :: keys => some ((k :: keys).foldl (fun latest k => if latest < k then k else latest) k)

/-- How the file operations of `SaveSnapshot` end. -/
structure SaveIO where
  opened : Bool
  copied : WriteOutcome
  reopened : Bool
deriving DecidableEq

def SaveIO.ok : SaveIO := ⟨true, .done, true⟩

/-- How the file operations of `LoadSnapshot` end; the first file that it opens is the one for
the download. -/
structure LoadIO where
  listed : Bool
  created : Bool
  copied : WriteOutcome
  opened : Bool
deriving DecidableEq

def LoadIO.ok : LoadIO := ⟨true, true, .done, true⟩

/-- The directory of a `walStorage`, and the objects of its offloader. -/
structure SnapshotStore (ω : Type) where
  dir : Directory
  remote : ω

namespace SnapshotStore

variable {ω : Type} (off : Option (Offloader ω))

def saveSnapshot (io : SaveIO) (now : ℕ) (s : SnapshotStore ω) (data : Bytes) :
    SnapshotStore ω × Except WalError String :=
  match Raft.saveSnapshot io.opened io.copied now s.dir data with
  | (dir, .error e) => (⟨dir, s.remote⟩, .error e)
  | (dir, .ok id) =>
      match off with
      | none => (⟨dir, s.remote⟩, .ok id)
      | some o =>
          if io.reopened then
            (⟨dir, o.upload s.remote (snapshotName now) ((dir[snapshotName now]?).getD [])⟩, .ok id)
          else (⟨dir, s.remote⟩, .ok id)

/-- The object with the greatest key. -/
def fetch (remote : ω) : Option (String × Bytes) := do
  let o ← off
  let keys ← o.list remote "snapshot."
  let key ← latestKey keys
  let data ← o.download remote key
  return (key, data)

def loadSnapshot (io : LoadIO) (s : SnapshotStore ω) :
    SnapshotStore ω × Except SnapshotError Bytes :=
  if io.listed then
    let latest := latestSnapshot (snapshotNames s.dir)
    if latest = "" then
      match fetch off s.remote with
      | none => (s, .error .notExist)
      | some (key, data) =>
          if io.created then
            -- the error of the copy is not looked at
            let dir := s.dir.insert key (copiedBytes data io.copied)
            (⟨dir, s.remote⟩, if io.opened then .ok ((dir[key]?).getD []) else .error .io)
          else (s, .error .notExist)
    else (s, if io.opened then .ok ((s.dir[latest]?).getD []) else .error .io)
  else (s, .error .io)

def purgeOldSnapshots (keep : ℕ) (s : SnapshotStore ω) : SnapshotStore ω :=
  ⟨(Raft.purgeOldSnapshots true (fun _ => true) keep s.dir).1, s.remote⟩

/-- Somebody deletes the snapshots of the directory. -/
def deleteLocal (s : SnapshotStore ω) : SnapshotStore ω :=
  ⟨(snapshotNames s.dir).foldl (fun dir name => dir.erase name) s.dir, s.remote⟩

end SnapshotStore

/-- The file with the greatest snapshot name. -/
def newestSnapshot (dir : Directory) : Option (String × Bytes) := dir.lastWith isSnapshotName

/-- The snapshots of the directory, in the order of their names. -/
def localSnapshots (dir : Directory) : List (String × Bytes) :=
  dir.toList.filter fun e => isSnapshotName e.1

section Newest

variable {dir : Directory} {name : String} {e : String × Bytes}

theorem mem_localSnapshots_iff :
    e ∈ localSnapshots dir ↔ dir[e.1]? = some e.2 ∧ isSnapshotName e.1 = true :=
  OrdMap.mem_filter_toList_iff dir

theorem snapshotNames_eq (dir : Directory) :
    snapshotNames dir = (localSnapshots dir).map Prod.fst :=
  List.filter_map

theorem foldl_latest {names : List String} (h : names.Pairwise (· < ·)) (latest : String)
    (hlatest : latest = "" ∨ ∀ name ∈ names, latest < name) :
    names.foldl (fun latest name => if latest = "" || latest < name then name else latest) latest =
      names.getLast?.getD latest := by
  induction names generalizing latest with
  | nil => rfl
  | cons name names ih =>
      obtain ⟨hfirst, hrest⟩ := List.pairwise_cons.mp h
      have hif : (latest = "" || latest < name) = true := by
        rcases hlatest with hempty | hlt
        · simp [hempty]
        · simp [hlt name List.mem_cons_self]
      rw [List.foldl_cons, if_pos hif, ih hrest name (Or.inr hfirst), List.getLast?_cons,
        Option.getD_some]

theorem ne_empty_of_isSnapshotName (h : isSnapshotName name = true) : name ≠ "" := by
  rintro rfl
  simp [isSnapshotName] at h

/-- `LoadSnapshot` finds the file with the greatest name. -/
theorem latestSnapshot_eq (dir : Directory) :
    latestSnapshot (snapshotNames dir) = ((newestSnapshot dir).map Prod.fst).getD "" := by
  have hasc : ((localSnapshots dir).map Prod.fst).Pairwise (· < ·) :=
    List.pairwise_map.mpr ((OrdMap.ascending_filter_toList dir _).imp compare_eq_lt_iff.mp)
  rw [latestSnapshot, snapshotNames_eq, foldl_latest hasc "" (Or.inl rfl), List.getLast?_map]
  rfl

theorem getElem?_of_newestSnapshot (h : newestSnapshot dir = some e) :
    dir[e.1]? = some e.2 ∧ isSnapshotName e.1 = true :=
  (OrdMap.lastWith_eq_some_iff.mp h).1

theorem newestSnapshot_insert_of_lt (h : newestSnapshot dir = some e) (hlt : name < e.1)
    (data : Bytes) : newestSnapshot (dir.insert name data) = some e :=
  OrdMap.lastWith_insert_of_lt h (compare_eq_lt_iff.mpr hlt) data

theorem newestSnapshot_insert (hname : isSnapshotName name = true)
    (h : ∀ e ∈ newestSnapshot dir, ¬ name < e.1) (data : Bytes) :
    newestSnapshot (dir.insert name data) = some (name, data) :=
  OrdMap.lastWith_insert_of_not_lt hname
    (fun e he hlt => h e he (compare_eq_lt_iff.mp hlt)) data

/-- Removing snapshots by their names. -/
theorem localSnapshots_foldl_erase (dir : Directory) (names : List String) :
    localSnapshots (names.foldl (fun dir name => dir.erase name) dir) =
      (localSnapshots dir).filter fun e => e.1 ∉ names := by
  refine (OrdMap.ascending_filter_toList _ _).ext
    ((OrdMap.ascending_filter_toList dir _).sublist List.filter_sublist) fun e => ?_
  change e ∈ localSnapshots _ ↔ _
  rw [List.mem_filter, mem_localSnapshots_iff, mem_localSnapshots_iff, OrdMap.getElem?_foldl_erase]
  by_cases hmem : e.1 ∈ names
  · simp [hmem]
  · simp [hmem]

theorem filter_not_mem_take {l : List (String × Bytes)} (hl : (l.map Prod.fst).Nodup) (k : ℕ) :
    (l.filter fun e => e.1 ∉ (l.map Prod.fst).take k) = l.drop k := by
  induction l generalizing k with
  | nil => simp
  | cons e l ih =>
      obtain ⟨hnew, hl⟩ := List.nodup_cons.mp hl
      cases k with
      | zero => simp
      | succ k =>
          rw [List.map_cons, List.take_succ_cons, List.drop_succ_cons, ← ih hl,
            List.filter_cons_of_neg (by simp)]
          refine List.filter_congr fun e' he' => ?_
          have hne : e'.1 ≠ e.1 := fun heq => hnew (heq ▸ List.mem_map_of_mem he')
          simp [hne]

theorem localSnapshots_nodup (dir : Directory) : ((localSnapshots dir).map Prod.fst).Nodup := by
  refine List.pairwise_map.mpr ((OrdMap.ascending_filter_toList dir _).imp fun {a b} hlt heq => ?_)
  rw [heq] at hlt
  exact OrdMap.not_compare_self_lt _ hlt

/-- `PurgeOldSnapshots` removes the files with the smallest names. -/
theorem localSnapshots_purge (keep : ℕ) (dir : Directory) :
    localSnapshots (purgeOldSnapshots true (fun _ => true) keep dir).1 =
      (localSnapshots dir).drop ((localSnapshots dir).length - keep) := by
  unfold purgeOldSnapshots
  rw [if_pos rfl, snapshotNames_eq]
  dsimp only
  rw [List.length_map]
  split
  · next hle => rw [Nat.sub_eq_zero_of_le hle, List.drop_zero]
  · rw [List.filter_true, localSnapshots_foldl_erase,
      filter_not_mem_take (localSnapshots_nodup dir)]

theorem newestSnapshot_purge {keep : ℕ} (hkeep : 0 < keep) (dir : Directory) :
    newestSnapshot (purgeOldSnapshots true (fun _ => true) keep dir).1 = newestSnapshot dir := by
  change (localSnapshots _).getLast? = (localSnapshots dir).getLast?
  rw [localSnapshots_purge, List.getLast?_drop]
  split
  · next hle =>
      have hempty : localSnapshots dir = [] := List.eq_nil_of_length_eq_zero (by omega)
      rw [hempty, List.getLast?_nil]
  · rfl

theorem newestSnapshot_purge_zero (dir : Directory) :
    newestSnapshot (purgeOldSnapshots true (fun _ => true) 0 dir).1 = none := by
  change (localSnapshots _).getLast? = none
  rw [localSnapshots_purge, Nat.sub_zero, List.drop_length, List.getLast?_nil]

theorem newestSnapshot_deleteLocal (dir : Directory) :
    newestSnapshot ((snapshotNames dir).foldl (fun dir name => dir.erase name) dir) = none := by
  change (localSnapshots _).getLast? = none
  rw [localSnapshots_foldl_erase, List.getLast?_eq_none_iff, List.filter_eq_nil_iff,
    snapshotNames_eq]
  intro e he
  simpa using ⟨e.2, he⟩

end Newest

namespace SnapshotStore

variable {ω : Type} {off : Option (Offloader ω)} {s : SnapshotStore ω}

/-- What there is to load: the newest file, or the object with the greatest key. -/
def held (off : Option (Offloader ω)) (s : SnapshotStore ω) : Option Bytes :=
  ((newestSnapshot s.dir).or (fetch off s.remote)).map Prod.snd

theorem fetch_some (o : Offloader ω) (remote : ω) :
    fetch (some o) remote = (latestKey ((o.list remote "snapshot.").getD [])).bind fun key =>
      (o.download remote key).map fun data => (key, data) := by
  change ((o.list remote "snapshot.").bind fun keys => (latestKey keys).bind fun key =>
    (o.download remote key).bind fun data => some (key, data)) = _
  cases o.list remote "snapshot." with
  | none => rfl
  | some keys =>
      dsimp only [Option.bind_some, Option.getD_some]
      cases latestKey keys with
      | none => rfl
      | some key => exact Option.map_eq_bind.symm

theorem latestSnapshot_eq_empty_iff (dir : Directory) :
    latestSnapshot (snapshotNames dir) = "" ↔ newestSnapshot dir = none := by
  rw [latestSnapshot_eq]
  cases hnew : newestSnapshot dir with
  | none => simp
  | some e => simpa using ne_empty_of_isSnapshotName (getElem?_of_newestSnapshot hnew).2

theorem held_of_newest {name : String} {data : Bytes}
    (h : newestSnapshot s.dir = some (name, data)) : held off s = some data := by
  rw [held, h, Option.some_or, Option.map_some]

theorem held_of_none (h : newestSnapshot s.dir = none) :
    held off s = (fetch off s.remote).map Prod.snd := by
  rw [held, h, Option.none_or]

theorem loadSnapshot_of_newest {e : String × Bytes} (h : newestSnapshot s.dir = some e)
    (io : LoadIO) :
    s.loadSnapshot off io = (s, if io.listed && io.opened then .ok e.2 else .error .io) := by
  have hne : latestSnapshot (snapshotNames s.dir) ≠ "" := by
    rw [Ne, latestSnapshot_eq_empty_iff, h]
    simp
  have hlatest : latestSnapshot (snapshotNames s.dir) = e.1 := by
    rw [latestSnapshot_eq, h]
    rfl
  unfold loadSnapshot
  dsimp only
  rw [if_neg hne, hlatest, (getElem?_of_newestSnapshot h).1]
  cases io.listed <;> rfl

theorem loadSnapshot_of_none (h : newestSnapshot s.dir = none) (io : LoadIO) :
    s.loadSnapshot off io =
      if io.listed then
        match fetch off s.remote with
        | none => (s, .error .notExist)
        | some (key, data) =>
            if io.created then
              (⟨s.dir.insert key (copiedBytes data io.copied), s.remote⟩,
                if io.opened then .ok (copiedBytes data io.copied) else .error .io)
            else (s, .error .notExist)
      else (s, .error .io) := by
  unfold loadSnapshot
  dsimp only
  rw [if_pos ((latestSnapshot_eq_empty_iff _).mpr h)]
  cases fetch off s.remote with
  | none => rfl
  | some e => simp only [OrdMap.getElem?_insert_self', Option.getD_some]

/-- Without failures `LoadSnapshot` returns what there is to load. -/
theorem loadSnapshot_ok (s : SnapshotStore ω) :
    (s.loadSnapshot off .ok).2 =
      match held off s with
      | none => .error .notExist
      | some data => .ok data := by
  cases hnew : newestSnapshot s.dir with
  | none =>
      rw [held_of_none hnew, loadSnapshot_of_none hnew]
      cases fetch off s.remote <;> rfl
  | some e =>
      rw [held_of_newest hnew, loadSnapshot_of_newest hnew]
      rfl

/-- `LoadSnapshot` changes the directory only by a download. -/
theorem loadSnapshot_cases (off : Option (Offloader ω)) (io : LoadIO) (s : SnapshotStore ω) :
    ((s.loadSnapshot off io).1 = s ∧ (io.listed = true → io.created = true →
      newestSnapshot s.dir = none → fetch off s.remote = none)) ∨
    ∃ e, io.listed = true ∧ io.created = true ∧ newestSnapshot s.dir = none ∧
      fetch off s.remote = some e ∧
      (s.loadSnapshot off io).1 = ⟨s.dir.insert e.1 (copiedBytes e.2 io.copied), s.remote⟩ := by
  cases hnew : newestSnapshot s.dir with
  | some e =>
      rw [loadSnapshot_of_newest hnew]
      exact Or.inl ⟨rfl, by simp⟩
  | none =>
      rw [loadSnapshot_of_none hnew]
      split
      · next hlisted =>
          cases hfetch : fetch off s.remote with
          | none => exact Or.inl ⟨rfl, by simp⟩
          | some e =>
              dsimp only
              split
              · next hcreated => exact Or.inr ⟨e, hlisted, hcreated, rfl, rfl, rfl⟩
              · next hcreated => exact Or.inl ⟨rfl, fun _ h => absurd h hcreated⟩
      · next hlisted => exact Or.inl ⟨rfl, fun h => absurd h hlisted⟩

/-- Without an offloader, `LoadSnapshot` is the one of the node. -/
theorem loadSnapshot_none_eq (io : LoadIO) (hopened : io.opened = true) (s : SnapshotStore ω) :
    (s.loadSnapshot none io).1 = s ∧
      (s.loadSnapshot none io).2.toOption = (Raft.loadSnapshot io.listed s.dir).toOption := by
  have hload : (Raft.loadSnapshot io.listed s.dir) =
      if io.listed then
        if latestSnapshot (snapshotNames s.dir) = "" then .error .io
        else .ok ((s.dir[latestSnapshot (snapshotNames s.dir)]?).getD [])
      else .error .io := rfl
  rw [hload, latestSnapshot_eq]
  cases hnew : newestSnapshot s.dir with
  | none =>
      rw [loadSnapshot_of_none hnew]
      cases io.listed <;> exact ⟨rfl, rfl⟩
  | some e =>
      have hne := ne_empty_of_isSnapshotName (getElem?_of_newestSnapshot hnew).2
      rw [loadSnapshot_of_newest hnew, hopened, Option.map_some, Option.getD_some, if_neg hne,
        (getElem?_of_newestSnapshot hnew).1]
      cases io.listed <;> exact ⟨rfl, rfl⟩

/-- What `SaveSnapshot` does: it makes no file, or a file with all of the content or a part. -/
theorem saveSnapshot_cases (off : Option (Offloader ω)) (io : SaveIO) (now : ℕ)
    (s : SnapshotStore ω) (data : Bytes) :
    (io.opened = false ∧ s.saveSnapshot off io now data = (s, .error .io)) ∨
    (∃ n, io.opened = true ∧ io.copied = .failed n ∧ s.saveSnapshot off io now data =
      (⟨s.dir.insert (snapshotName now) (data.take n), s.remote⟩, .error .io)) ∨
    (io.opened = true ∧ io.copied = .done ∧ s.saveSnapshot off io now data =
      (⟨s.dir.insert (snapshotName now) data,
        match off with
        | none => s.remote
        | some o => if io.reopened then o.upload s.remote (snapshotName now) data else s.remote⟩,
      .ok (toString now))) := by
  unfold saveSnapshot Raft.saveSnapshot
  cases io.opened with
  | false => exact Or.inl ⟨rfl, rfl⟩
  | true =>
      right
      cases io.copied with
      | failed n => exact Or.inl ⟨n, rfl, rfl, rfl⟩
      | done =>
          refine Or.inr ⟨rfl, rfl, ?_⟩
          cases off with
          | none => rfl
          | some o =>
              simp only [if_true, OrdMap.getElem?_insert_self', Option.getD_some]
              cases io.reopened <;> rfl

end SnapshotStore

/-- A storage, and the snapshots that were saved, with their times, the last one first. -/
structure SnapshotRun (ω : Type) where
  store : SnapshotStore ω
  history : List (ℕ × Bytes)

inductive SnapshotOp where
  | save (io : SaveIO) (now : ℕ) (content : Bytes)
  | load (io : LoadIO)
  | purge (keep : ℕ)
  | deleteLocal

namespace SnapshotRun

open SnapshotStore

variable {ω : Type} (off : Option (Offloader ω))

/-- Local snapshots are deleted only if there is an offloader. -/
def step (s : SnapshotRun ω) : SnapshotOp → Option (SnapshotRun ω)
  | .save io now content =>
      match s.store.saveSnapshot off io now content with
      | (store, .ok _) => some ⟨store, (now, content) :: s.history⟩
      | (store, .error _) => some ⟨store, s.history⟩
  | .load io => some { s with store := (s.store.loadSnapshot off io).1 }
  | .purge keep => some { s with store := s.store.purgeOldSnapshots keep }
  | .deleteLocal => if off.isSome then some { s with store := s.store.deleteLocal } else none

/-- The content given to the latest `SaveSnapshot` that returned no error. -/
def latest (s : SnapshotRun ω) : Option Bytes := s.history.head?.map Prod.snd

/-- Without failures, `LoadSnapshot` returns the latest snapshot. -/
def ReturnsLatest (s : SnapshotRun ω) : Prop :=
  (s.store.loadSnapshot off .ok).2 =
    match s.latest with
    | none => .error .notExist
    | some data => .ok data

/-- A local snapshot has a greater name than one that is saved now. -/
def Overtaken (s : SnapshotRun ω) (now : ℕ) : Prop :=
  ∃ e ∈ newestSnapshot s.store.dir, snapshotName now < e.1

/-- What a step must meet to keep `ReturnsLatest`. A snapshot that is saved gets the greatest
name, unless the file with the greatest name has the same content. A failing `SaveSnapshot` fails
before it has made its file, unless the file does not get the greatest name or what has been
written is the latest content. A download is complete. When the local files are deleted, the
offloader has the latest content under its greatest key. -/
def Keeps (s : SnapshotRun ω) : SnapshotOp → Prop
  | .save io now content => io.opened = true →
      if io.copied = .done then
        ∀ e ∈ newestSnapshot s.store.dir, snapshotName now < e.1 → e.2 = content
      else s.Overtaken now ∨ s.latest = some (copiedBytes content io.copied)
  | .load io => io.listed = true → io.created = true → newestSnapshot s.store.dir = none →
      ∀ e ∈ fetch off s.store.remote, isSnapshotName e.1 = true → copiedBytes e.2 io.copied = e.2
  | .purge keep => keep = 0 → (fetch off s.store.remote).map Prod.snd = s.latest
  | .deleteLocal => (fetch off s.store.remote).map Prod.snd = s.latest

instance (s : SnapshotRun ω) (now : ℕ) : Decidable (s.Overtaken now) :=
  inferInstanceAs (Decidable (∃ e ∈ newestSnapshot s.store.dir, snapshotName now < e.1))

instance (s : SnapshotRun ω) : ∀ op, Decidable (s.Keeps off op)
  | .save io now content => inferInstanceAs (Decidable (io.opened = true →
      if io.copied = .done then
        ∀ e ∈ newestSnapshot s.store.dir, snapshotName now < e.1 → e.2 = content
      else s.Overtaken now ∨ s.latest = some (copiedBytes content io.copied)))
  | .load io => inferInstanceAs (Decidable (io.listed = true → io.created = true →
      newestSnapshot s.store.dir = none → ∀ e ∈ fetch off s.store.remote,
        isSnapshotName e.1 = true → copiedBytes e.2 io.copied = e.2))
  | .purge keep => inferInstanceAs (Decidable (keep = 0 → _ = s.latest))
  | .deleteLocal => inferInstanceAs (Decidable (_ = s.latest))

variable {off} {s s' : SnapshotRun ω} {op : SnapshotOp}

theorem returnsLatest_iff_held : s.ReturnsLatest off ↔ held off s.store = s.latest := by
  rw [ReturnsLatest, loadSnapshot_ok]
  cases held off s.store <;> cases s.latest <;> simp

theorem held_insert_of_lt {dir : Directory} {remote : ω} {now : ℕ} {e : String × Bytes}
    (he : newestSnapshot dir = some e) (hlt : snapshotName now < e.1) (data : Bytes) :
    held off ⟨dir.insert (snapshotName now) data, remote⟩ = some e.2 :=
  held_of_newest (newestSnapshot_insert_of_lt he hlt data)

theorem held_insert_of_not_overtaken {remote : ω} {now : ℕ} (h : ¬ s.Overtaken now)
    (data : Bytes) :
    held off ⟨s.store.dir.insert (snapshotName now) data, remote⟩ = some data :=
  held_of_newest (newestSnapshot_insert (isSnapshotName_snapshotName now)
    (fun e he hlt => h ⟨e, he, hlt⟩) data)

theorem returnsLatest_save_iff {io : SaveIO} {now : ℕ} {content : Bytes}
    (h : s.ReturnsLatest off) (hstep : s.step off (.save io now content) = some s') :
    s'.ReturnsLatest off ↔ s.Keeps off (.save io now content) := by
  simp only [step] at hstep
  rw [Keeps]
  rcases saveSnapshot_cases off io now s.store content with
    ⟨hopened, hsave⟩ | ⟨n, hopened, hcopied, hsave⟩ | ⟨hopened, hcopied, hsave⟩
  · rw [hsave] at hstep
    obtain rfl := Option.some.inj hstep
    exact iff_of_true h fun hopened' => absurd hopened' (by simp [hopened])
  · rw [hsave] at hstep
    obtain rfl := Option.some.inj hstep
    rw [returnsLatest_iff_held] at h ⊢
    rw [hcopied, forall_prop_of_true hopened, if_neg (by simp)]
    by_cases hover : s.Overtaken now
    · obtain ⟨e, he, hlt⟩ := id hover
      rw [held_of_newest he] at h
      exact iff_of_true ((held_insert_of_lt he hlt _).trans h) (Or.inl hover)
    · rw [held_insert_of_not_overtaken hover]
      exact eq_comm.trans (or_iff_right hover).symm
  · rw [hsave] at hstep
    obtain rfl := Option.some.inj hstep
    rw [returnsLatest_iff_held, hcopied, forall_prop_of_true hopened, if_pos rfl]
    by_cases hover : s.Overtaken now
    · obtain ⟨e, he, hlt⟩ := hover
      rw [held_insert_of_lt he hlt]
      constructor
      · intro heq e' he' _
        obtain rfl := Option.some.inj (he.symm.trans he')
        exact Option.some.inj heq
      · intro hall
        exact congrArg some (hall e he hlt)
    · rw [held_insert_of_not_overtaken hover]
      exact iff_of_true rfl fun e he hlt => absurd ⟨e, he, hlt⟩ hover

theorem returnsLatest_load_iff {io : LoadIO} (h : s.ReturnsLatest off)
    (hstep : s.step off (.load io) = some s') : s'.ReturnsLatest off ↔ s.Keeps off (.load io) := by
  obtain rfl := Option.some.inj hstep
  rw [Keeps]
  rcases loadSnapshot_cases off io s.store with
    ⟨hsame, hnothing⟩ | ⟨e, hlisted, hcreated, hnew, hfetch, hload⟩
  · rw [hsame]
    refine iff_of_true h fun hlisted hcreated hnew e he => ?_
    rw [hnothing hlisted hcreated hnew] at he
    cases he
  · rw [returnsLatest_iff_held, held_of_none hnew, hfetch] at h
    rw [returnsLatest_iff_held, hload, forall_prop_of_true hlisted, forall_prop_of_true hcreated,
      forall_prop_of_true hnew, hfetch]
    have hlatest : s.latest = some e.2 := h.symm
    by_cases hname : isSnapshotName e.1 = true
    · have hheld : held off ⟨s.store.dir.insert e.1 (copiedBytes e.2 io.copied), s.store.remote⟩ =
          some (copiedBytes e.2 io.copied) := by
        refine held_of_newest (newestSnapshot_insert hname (fun e' he' => ?_) _)
        rw [hnew] at he'
        cases he'
      rw [hheld]
      constructor
      · intro heq e' he' _
        obtain rfl := Option.some.inj he'
        exact Option.some.inj (heq.trans hlatest)
      · intro hall
        exact (congrArg some (hall e rfl hname)).trans hlatest.symm
    · refine iff_of_true ?_ fun e' he' hname' => ?_
      · have hnone : newestSnapshot (s.store.dir.insert e.1 (copiedBytes e.2 io.copied)) = none :=
          (OrdMap.lastWith_insert_of_false _ (Bool.eq_false_iff.mpr hname) _).trans hnew
        rw [held_of_none hnone, hfetch]
        exact h
      · obtain rfl := Option.some.inj he'
        exact absurd hname' hname

theorem returnsLatest_iff_of_newest_none {store : SnapshotStore ω}
    (hnew : newestSnapshot store.dir = none) :
    ReturnsLatest off ⟨store, s.history⟩ ↔
      (fetch off store.remote).map Prod.snd = s.latest := by
  rw [returnsLatest_iff_held, held_of_none hnew]
  rfl

/-- A step from a state in which `LoadSnapshot` returns the latest snapshot. -/
theorem returnsLatest_step_iff (h : s.ReturnsLatest off) (hstep : s.step off op = some s') :
    s'.ReturnsLatest off ↔ s.Keeps off op := by
  cases op with
  | save io now content => exact returnsLatest_save_iff h hstep
  | load io => exact returnsLatest_load_iff h hstep
  | purge keep =>
      obtain rfl := Option.some.inj hstep
      rcases Nat.eq_zero_or_pos keep with rfl | hpos
      · rw [Keeps, forall_prop_of_true rfl]
        exact returnsLatest_iff_of_newest_none (newestSnapshot_purge_zero s.store.dir)
      · refine iff_of_true ?_ fun hzero => absurd hzero hpos.ne'
        rw [returnsLatest_iff_held] at h ⊢
        refine Eq.trans ?_ h
        simp only [held, SnapshotStore.purgeOldSnapshots, newestSnapshot_purge hpos]
  | deleteLocal =>
      simp only [step] at hstep
      split at hstep
      · obtain rfl := Option.some.inj hstep
        exact returnsLatest_iff_of_newest_none (newestSnapshot_deleteLocal s.store.dir)
      · cases hstep

end SnapshotRun

/-- A failed snapshot leaves the store as it was, exactly under `Keeps`. Start in any state in
which `LoadSnapshot` returns the latest snapshot. It does so in every state that a run of calls
reaches, with whatever failures, if and only if every call of the run meets the condition. -/
theorem returnsLatest_iff {ω : Type} (off : Option (Offloader ω)) {s₀ s : SnapshotRun ω}
    (h₀ : s₀.ReturnsLatest off) {ops : List SnapshotOp}
    (hrun : exec (SnapshotRun.step off) s₀ ops = some s) :
    (∀ ops₁ s₁, ops₁ <+: ops → exec (SnapshotRun.step off) s₀ ops₁ = some s₁ →
        s₁.ReturnsLatest off) ↔
      Guarded (SnapshotRun.step off) (SnapshotRun.Keeps off) s₀ ops :=
  forall_prefix_iff_guarded (SnapshotRun.ReturnsLatest off)
    (fun _ _ _ h hstep => SnapshotRun.returnsLatest_step_iff h hstep) hrun h₀

/-- A storage with an offloader and no snapshots. -/
def SnapshotRun.fresh : SnapshotRun (Option Directory) := ⟨⟨∅, none⟩, []⟩

theorem SnapshotRun.fresh_returnsLatest : fresh.ReturnsLatest (some localOffloader) := by
  rw [returnsLatest_iff_held]
  decide +kernel

/-- A `SaveSnapshot` that cannot make its file, and complete downloads. -/
theorem returnsLatest_sample :
    ∃ s, exec (SnapshotRun.step (some localOffloader)) .fresh
        [.save .ok 10 [1, 2], .save ⟨false, .done, true⟩ 11 [3], .deleteLocal, .load .ok,
          .save .ok 12 [4, 5], .purge 1, .deleteLocal] = some s ∧
      s.latest = some [4, 5] ∧ s.ReturnsLatest (some localOffloader) := by
  obtain ⟨s, hrun, hlatest⟩ : ∃ s, exec (SnapshotRun.step (some localOffloader)) .fresh
        [.save .ok 10 [1, 2], .save ⟨false, .done, true⟩ 11 [3], .deleteLocal, .load .ok,
          .save .ok 12 [4, 5], .purge 1, .deleteLocal] = some s ∧ s.latest = some [4, 5] :=
    exists_exec_of_any (by decide +kernel)
  have hall := (returnsLatest_iff (some localOffloader) SnapshotRun.fresh_returnsLatest hrun).mpr
    (by decide +kernel)
  exact ⟨s, hrun, hlatest, hall _ s (List.prefix_refl _) hrun⟩

/-- A `SaveSnapshot` that fails after one byte, one that fails when there is no snapshot yet, and
a download that is cut short after one byte. -/
theorem not_returnsLatest_failed :
    (∃ s, exec (SnapshotRun.step (some localOffloader)) .fresh
        [.save .ok 10 [1, 2], .save ⟨true, .failed 1, true⟩ 11 [3, 4]] = some s ∧
      s.latest = some [1, 2] ∧
      (s.store.loadSnapshot (some localOffloader) .ok).2.toOption = some [3]) ∧
    (∃ s, exec (SnapshotRun.step (some localOffloader)) .fresh
        [.save ⟨true, .failed 1, true⟩ 10 [3, 4]] = some s ∧
      s.latest = none ∧
      (s.store.loadSnapshot (some localOffloader) .ok).2.toOption = some [3]) ∧
    ∃ s, exec (SnapshotRun.step (some localOffloader)) .fresh
        [.save .ok 10 [1, 2], .deleteLocal, .load ⟨true, true, .failed 1, true⟩] = some s ∧
      s.latest = some [1, 2] ∧
      (s.store.loadSnapshot (some localOffloader) .ok).2.toOption = some [1] :=
  ⟨exists_exec_of_any (by decide +kernel), exists_exec_of_any (by decide +kernel),
    exists_exec_of_any (by decide +kernel)⟩

end StreamFlow.Raft
