import Mathlib.Data.String.Basic
import StreamFlow.Foundation.ByteFile
import StreamFlow.Foundation.OrdMap
import StreamFlow.Raft.Entry

/-!
# The write-ahead log

`walStorage` of `broker/internal/raft/wal.go`: a directory with the file `wal.log`
that is written and the files it was renamed to when it was rotated. The directory is
an ordered map from file names to contents, so its listing is in the order of the
names, as `os.ReadDir` gives it; Go and Lean order texts alike. Every operation takes
the way its file operations end as an argument.
-/

namespace StreamFlow.Raft

open BigEndian ByteFile Frame

/-- The files of a directory. -/
abbrev Directory := OrdMap String Bytes

/-- How opening a file and writing one frame to it end. -/
structure FrameIO where
  opened : Bool
  header : WriteOutcome
  payload : WriteOutcome
deriving DecidableEq, Repr

/-- Everything succeeds. -/
def FrameIO.ok : FrameIO := ⟨true, .done, .done⟩

/-- The header and the payload written behind the contents `f`; the flag tells
whether both writes succeeded. -/
def writeFrame (io : FrameIO) (f payload : Bytes) : Bytes × Bool :=
  match io.header with
  | .failed n => (f ++ (header payload.length).take n, false)
  | .done =>
      match io.payload with
      | .failed n => (f ++ header payload.length ++ payload.take n, false)
      | .done => (f ++ header payload.length ++ payload, true)

def appendWAL (io : FrameIO) (dir : Directory) (entries : Bytes) :
    Directory × Except WalError Unit :=
  if io.opened then
    match writeFrame io ((dir["wal.log"]?).getD []) entries with
    | (f, true) => (dir.insert "wal.log" f, .ok ())
    | (f, false) => (dir.insert "wal.log" f, .error .io)
  else (dir, .error .io)

/-- The file names `ReadWAL` reads. -/
def isWalName (name : String) : Bool :=
  name = "wal.log" || (4 < name.length && "wal.".toList.isPrefixOf name.toList)

def walFiles (dir : Directory) : List String :=
  ((dir.toList.map Prod.fst).filter isWalName).insertionSort (· ≤ ·)

/-- The loop of `ReadWAL` over a file, on what is left of it; an incomplete frame ends
it. -/
def frameLoop : ℕ → Bytes → Bytes → Bytes
  | 0, _, out => out
  | n + 1, b, out =>
      match read b with
      | none => out
      | some (payload, rest) => frameLoop n rest (out ++ payload)

/-- The loop of `ReadWAL` over the files. -/
def readFiles (dir : Directory) : List String → Bytes → Bytes
  | [], out => out
  | name :: names, out =>
      let b := (dir[name]?).getD []
      readFiles dir names (frameLoop b.length b out)

/-- `ReadWAL`; the flag tells whether the directory and its files could be read. -/
def readWAL (readable : Bool) (dir : Directory) (fromIndex : ℕ) : Except WalError Bytes :=
  if readable then
    let out := readFiles dir (walFiles dir) []
    if out.length ≤ fromIndex then .ok [] else .ok (out.drop fromIndex)
  else .error .io

/-- The name of a file that was rotated at the time `ts`. -/
def rotatedName (ts : ℕ) : String := "wal." ++ toString ts ++ ".log"

/-- `RotateWAL`; the flags tell whether the file could be renamed and a new one
created. -/
def rotateWAL (renamed created : Bool) (now : ℕ) (dir : Directory) :
    Directory × Except WalError Unit :=
  match dir["wal.log"]? with
  | none => (dir, .ok ())
  | some f =>
      if renamed then
        let dir := (dir.erase "wal.log").insert (rotatedName now) f
        if created then (dir.insert "wal.log" [], .ok ()) else (dir, .error .io)
      else (dir, .error .io)

/-- The entries `Compact` keeps. -/
def keepEntries (compactIndex : ℕ) (ents : List Entry) : List Entry :=
  let hasIndexedEntries := ents.any fun e => decide (0 < e.index)
  (ents.zipIdx.filter fun (e, i) =>
    if hasIndexedEntries then decide (compactIndex < e.index)
    else decide (compactIndex < i + 1)).map Prod.fst

/-- The files `Compact` removes. -/
def obsoleteFiles (dir : Directory) : List String :=
  (dir.toList.map Prod.fst).filter fun name =>
    name ≠ "wal.log" && "wal.".toList.isPrefixOf name.toList

/-- How the file operations of `Compact` end; it does not look whether it could list
the directory at the end and remove a file. -/
structure CompactIO where
  readable : Bool
  frame : FrameIO
  listed : Bool
  removed : String → Bool

/-- Everything succeeds. -/
def CompactIO.ok : CompactIO := ⟨true, .ok, true, fun _ => true⟩

/-- The new contents of the log that `Compact` computes. -/
def compactData (codec : EntryCodec) (readable : Bool) (dir : Directory) (compactIndex : ℕ) :
    Except WalError Bytes := do
  let data ← readWAL readable dir 0
  let ents ← unmarshalEntries codec data
  marshalEntries codec (keepEntries compactIndex ents)

def compact (codec : EntryCodec) (io : CompactIO) (dir : Directory) (compactIndex : ℕ) :
    Directory × Except WalError Unit :=
  match compactData codec io.readable dir compactIndex with
  | .error e => (dir, .error e)
  | .ok b =>
      if io.frame.opened then
        match writeFrame io.frame [] b with
        | (f, false) => (dir.insert "wal.log" f, .error .io)
        | (f, true) =>
            let dir := dir.insert "wal.log" f
            if io.listed then
              (((obsoleteFiles dir).filter io.removed).foldl (fun dir name => dir.erase name) dir,
                .ok ())
            else (dir, .ok ())
      else (dir, .error .io)

section Read

variable (dir : Directory)

theorem frameLoop_eq (n : ℕ) (b out : Bytes) :
    frameLoop n b out = out ++ (splitAtMost n b).1.flatten := by
  induction n generalizing b out with
  | zero => simp [frameLoop, splitAtMost]
  | succ n ih =>
      rw [frameLoop, splitAtMost]
      cases read b with
      | none => simp
      | some found =>
          obtain ⟨payload, rest⟩ := found
          dsimp only
          rw [ih, List.flatten_cons, List.append_assoc]

/-- The entries of a listing that `ReadWAL` reads, in order. -/
theorem walFiles_eq :
    walFiles dir = (dir.toList.filter fun e => isWalName e.1).map Prod.fst := by
  have hmap : (dir.toList.map Prod.fst).filter isWalName =
      (dir.toList.filter fun e => isWalName e.1).map Prod.fst := List.filter_map
  rw [walFiles, hmap]
  apply List.Pairwise.insertionSort_eq
  rw [List.pairwise_map]
  refine ((OrdMap.ascending_toList dir).sublist List.filter_sublist).imp fun hlt => ?_
  exact le_of_lt (compareOfLessAndEq_eq_lt.mp hlt)

theorem readFiles_eq {es : List (String × Bytes)} (hes : ∀ e ∈ es, dir[e.1]? = some e.2)
    (out : Bytes) :
    readFiles dir (es.map Prod.fst) out = out ++ es.flatMap fun e => (split e.2).1.flatten := by
  induction es generalizing out with
  | nil => simp [readFiles]
  | cons e es ih =>
      rw [List.map_cons, readFiles, hes e List.mem_cons_self, Option.getD_some, frameLoop_eq,
        ih fun e' he' => hes e' (List.mem_cons_of_mem e he'), List.flatMap_cons,
        List.append_assoc]
      rfl

/-- `ReadWAL(0)` returns the payloads of the whole frames of all files. -/
theorem readWAL_zero :
    readWAL true dir 0 =
      .ok ((dir.toList.filter fun e => isWalName e.1).flatMap fun e => (split e.2).1.flatten) := by
  have hes : ∀ e ∈ dir.toList.filter fun e => isWalName e.1, dir[e.1]? = some e.2 :=
    fun e he => (OrdMap.mem_toList_iff dir).mp (List.mem_filter.mp he).1
  rw [readWAL, if_pos rfl, walFiles_eq, readFiles_eq dir hes, List.nil_append]
  dsimp only
  split
  · next hlen => rw [List.length_eq_zero_iff.mp (Nat.le_zero.mp hlen)]
  · rw [List.drop_zero]

end Read

/-- The contents of `wal.log`, empty if there is no such file. -/
def walLog (dir : Directory) : Bytes := (dir["wal.log"]?).getD []

/-- What is written of a frame. -/
def writtenBytes (io : FrameIO) (payload : Bytes) : Bytes :=
  if io.opened then (writeFrame io [] payload).1 else []

/-- Whether the whole frame is written and the writer knows it. -/
def FrameIO.succeeds (io : FrameIO) : Bool := io.opened && io.header = .done && io.payload = .done

section Write

variable (io : FrameIO) (f payload : Bytes)

/-- What is written does not depend on what it is written behind. -/
theorem writeFrame_eq :
    writeFrame io f payload =
      (f ++ (writeFrame io [] payload).1, (io.header = .done && io.payload = .done : Bool)) := by
  unfold writeFrame
  cases io.header with
  | failed n => simp
  | done =>
      cases io.payload with
      | failed n => simp
      | done => simp

theorem writtenBytes_prefix_frame : writtenBytes io payload <+: frame payload := by
  unfold writtenBytes writeFrame
  split
  · cases io.header with
    | failed n => exact (List.take_prefix n _).trans (List.prefix_append _ _)
    | done =>
        cases io.payload with
        | failed n => exact (List.prefix_append_right_inj _).mpr (List.take_prefix n _)
        | done => exact List.prefix_rfl
  · exact List.nil_prefix

theorem writtenBytes_of_succeeds (h : io.succeeds = true) :
    writtenBytes io payload = frame payload := by
  obtain ⟨opened, header, payload'⟩ := io
  simp only [ FrameIO.succeeds, Bool.and_eq_true, decide_eq_true_eq] at h
  obtain ⟨⟨rfl, rfl⟩, rfl⟩ := h
  rfl

end Write

/-- `AppendWAL` puts what it writes behind the log. -/
theorem appendWAL_eq (io : FrameIO) (dir : Directory) (payload : Bytes) :
    appendWAL io dir payload =
      (if io.opened then dir.insert "wal.log" (walLog dir ++ writtenBytes io payload) else dir,
        if io.succeeds then .ok () else .error .io) := by
  unfold appendWAL
  cases hopened : io.opened with
  | false => simp [ FrameIO.succeeds, hopened]
  | true =>
      have hwrite := writeFrame_eq io (walLog dir) payload
      rw [walLog] at hwrite
      simp only [writtenBytes, hopened, if_true, walLog, FrameIO.succeeds, Bool.true_and, hwrite]
      cases (decide (io.header = .done) && decide (io.payload = .done)) <;> rfl

theorem appendWAL_ok (dir : Directory) (entries : Bytes) :
    appendWAL .ok dir entries =
      (dir.insert "wal.log" ((dir["wal.log"]?).getD [] ++ frame entries), .ok ()) := by
  rw [appendWAL_eq, writtenBytes_of_succeeds _ _ rfl]
  rfl

/-- Dropping positions one by one. -/
theorem filter_zipIdx_eq_drop (k n : ℕ) (ents : List Entry) :
    ((ents.zipIdx n).filter fun e => decide (k < e.2 + 1)).map Prod.fst = ents.drop (k - n) := by
  induction ents generalizing n with
  | nil => simp
  | cons e ents ih =>
      rw [List.zipIdx_cons, List.filter_cons]
      by_cases hk : k < n + 1
      · have hdrop : k - n = 0 := by omega
        have hdrop' : k - (n + 1) = 0 := by omega
        rw [if_pos (decide_eq_true hk), List.map_cons, ih, hdrop, hdrop']
        rfl
      · have hdrop : k - n = (k - (n + 1)) + 1 := by omega
        rw [if_neg (by simpa using hk), ih, hdrop, List.drop_succ_cons]

theorem keepEntries_eq (k : ℕ) (ents : List Entry) :
    keepEntries k ents =
      if ents.any fun e => decide (0 < e.index) then
        ents.filter fun e => decide (k < e.index)
      else ents.drop k := by
  unfold keepEntries
  cases ents.any fun e => decide (0 < e.index) with
  | true =>
      simp only [if_true]
      rw [show (fun e : Entry × ℕ => decide (k < e.1.index)) =
        (fun e : Entry => decide (k < e.index)) ∘ Prod.fst from rfl, ← List.filter_map,
        List.zipIdx_map_fst]
  | false =>
      simp only [Bool.false_eq_true, if_false]
      exact filter_zipIdx_eq_drop k 0 ents

theorem mem_of_mem_keepEntries {k : ℕ} {ents : List Entry} {e : Entry}
    (h : e ∈ keepEntries k ents) : e ∈ ents := by
  rw [keepEntries_eq] at h
  split at h
  · exact List.mem_of_mem_filter h
  · exact List.mem_of_mem_drop h

theorem compact_ok (codec : EntryCodec) (dir : Directory) {k : ℕ} {b : Bytes}
    (h : compactData codec true dir k = .ok b) :
    compact codec .ok dir k =
      ((obsoleteFiles (dir.insert "wal.log" (frame b))).foldl (fun dir name => dir.erase name)
        (dir.insert "wal.log" (frame b)), .ok ()) := by
  have hframe : writeFrame .ok [] b = (frame b, true) := by
    simp [writeFrame, FrameIO.ok, frame]
  have hopened : FrameIO.ok.opened = true := rfl
  simp only [compact, CompactIO.ok, h, hopened, hframe, if_true, List.filter_true]

/-- The log after `Compact`: the files it removes are others. -/
theorem walLog_compact (codec : EntryCodec) (dir : Directory) {k : ℕ} {b : Bytes}
    (h : compactData codec true dir k = .ok b) :
    walLog (compact codec .ok dir k).1 = frame b := by
  have hlog : "wal.log" ∉ obsoleteFiles (dir.insert "wal.log" (frame b)) := by
    intro hmem
    have hne := (List.mem_filter.mp hmem).2
    simp at hne
  rw [compact_ok codec dir h, walLog, OrdMap.getElem?_foldl_erase, if_neg hlog,
    OrdMap.getElem?_insert_self', Option.getD_some]

/-- Nothing is written before the new contents are computed. -/
theorem compact_of_error (codec : EntryCodec) (dir : Directory) {k : ℕ} {e : WalError}
    (h : compactData codec true dir k = .error e) :
    compact codec .ok dir k = (dir, .error e) := by
  simp only [compact, CompactIO.ok, h]

end StreamFlow.Raft
