import StreamFlow.Foundation.BigEndian
import StreamFlow.Foundation.Loop
import Mathlib.Data.Prod.Lex

/-!
# Sending a range of a file

`sendfile_linux.go` sends with the system call `sendfile`, `sendfile.go` reads into a buffer and
writes that out; which of the two `SendFile` is depends on the platform. Both are loops over calls
that may move less than they were asked to. A writer is known by what it does: how its `n`th
`Write` ends, and, for an `*os.File`, how the `n`th `sendfile` to it ends.

`sendFile_iff` compares the two. They send the same range of the file exactly if the writer is
an `*os.File`, the offset is not negative, and the file is not opened for appending, which
`sendfile` does not support.
-/

namespace StreamFlow

open BigEndian Loop

inductive Errno where
  | eagain
  | eintr
  | einval
  | eio
deriving DecidableEq, Repr

inductive SendFileError where
  /-- `os.ErrInvalid`. -/
  | errInvalid
  /-- The `*PathError` that `Seek` returns. -/
  | seek (e : Errno)
  | errno (e : Errno)
  | read (e : Errno)
  | write (e : Errno)
  /-- `io.ErrShortWrite`. -/
  | shortWrite
deriving DecidableEq, Repr

/-- How a system call ends that moves bytes: it fails, or it moves as many bytes as there are and
as it was asked for, but at most `limit + 1`. -/
inductive Transfer where
  | fail (e : Errno)
  | moved (limit : ℕ)
deriving DecidableEq, Repr

inductive WriterKind where
  | osFile (append : Bool)
  | other
deriving DecidableEq, Repr

structure Writer where
  kind : WriterKind
  write : ℕ → Bytes → ℕ × Option SendFileError
  sendfile : ℕ → Transfer

/-- What a call has written, the count and the error it returns. -/
structure Sent where
  written : Bytes
  count : ℤ
  err : Option SendFileError
deriving DecidableEq, Repr

/-- `sendfile(2)` from the position `off` of a file. -/
def sendfile (append : Bool) (data : Bytes) (off toSend : ℤ) : Transfer → Except Errno Bytes
  | .fail e => .error (if append ∨ off < 0 then .einval else e)
  | .moved limit =>
      if append ∨ off < 0 then .error .einval
      else .ok ((data.drop off.toNat).take (min (limit + 1) toSend.toNat))

structure SendState where
  calls : ℕ
  off : ℤ
  total : ℤ
  written : Bytes

/-- The loop of `sendFile` on Linux. -/
def sendFileBody (w : Writer) (append : Bool) (data : Bytes) (count : ℤ) (s : SendState) :
    SendState ⊕ Sent :=
  if s.total < count then
    let toSend := count - s.total
    match sendfile append data s.off toSend (w.sendfile s.calls) with
    | .error .eagain => .inl { s with calls := s.calls + 1 }
    | .error .eintr => .inl { s with calls := s.calls + 1 }
    | .error e => .inr ⟨s.written, s.total, some (.errno e)⟩
    | .ok [] => .inr ⟨s.written, s.total, none⟩
    | .ok chunk =>
        .inl ⟨s.calls + 1, s.off + chunk.length, s.total + chunk.length, s.written ++ chunk⟩
  else .inr ⟨s.written, s.total, none⟩

/-- `sendFile` of `sendfile_linux.go`. -/
def sendFileLinux (w : Writer) (data : Bytes) (off count : ℤ) (fuel : ℕ) : Option Sent :=
  match w.kind with
  | .other => some ⟨[], 0, some .errInvalid⟩
  | .osFile append => run (sendFileBody w append data count) fuel ⟨0, off, 0, []⟩

/-- `f.Read` into a buffer of `size` bytes at the position `pos`; no bytes are `io.EOF`. -/
def readAt (data : Bytes) (pos size : ℤ) : Transfer → Except Errno Bytes
  | .fail e => .error e
  | .moved limit => .ok ((data.drop pos.toNat).take (min (limit + 1) size.toNat))

structure CopyState where
  calls : ℕ
  pos : ℤ
  copied : ℤ
  remain : ℤ
  written : Bytes

/-- The size of the buffer. -/
def bufSize : ℤ := 32 * 1024

/-- The loop of `sendFileFallback`. -/
def sendFileFallbackBody (w : Writer) (data : Bytes) (reads : ℕ → Transfer) (s : CopyState) :
    CopyState ⊕ Sent :=
  if 0 < s.remain then
    let toRead := if s.remain < bufSize then s.remain else bufSize
    match readAt data s.pos toRead (reads s.calls) with
    | .error e => .inr ⟨s.written, s.copied, some (.read e)⟩
    | .ok [] => .inr ⟨s.written, s.copied, none⟩
    | .ok chunk =>
        let wn := (w.write s.calls chunk).1
        let copied := s.copied + wn
        let written := s.written ++ chunk.take wn
        match (w.write s.calls chunk).2 with
        | some werr => .inr ⟨written, copied, some werr⟩
        | none =>
            if chunk.length ≠ wn then .inr ⟨written, copied, some .shortWrite⟩
            else .inl ⟨s.calls + 1, s.pos + chunk.length, copied, s.remain - chunk.length, written⟩
  else .inr ⟨s.written, s.copied, none⟩

def sendFileFallback (w : Writer) (data : Bytes) (reads : ℕ → Transfer) (off count : ℤ)
    (fuel : ℕ) : Option Sent :=
  if off < 0 then some ⟨[], 0, some (.seek .einval)⟩
  else run (sendFileFallbackBody w data reads) fuel ⟨0, off, 0, count, []⟩

inductive Platform where
  | linux
  | nonlinux
deriving DecidableEq, Repr

/-- `SendFile`, as it is built for a platform. -/
def sendFile (p : Platform) (w : Writer) (data : Bytes) (reads : ℕ → Transfer) (off count : ℤ) :
    ℕ → Option Sent :=
  match p with
  | .linux => sendFileLinux w data off count
  | .nonlinux => sendFileFallback w data reads off count

/-- The bytes of the file from `off` up to `off + count`, as far as there are any. -/
def fileRange (data : Bytes) (off count : ℤ) : Bytes :=
  (data.take (min (off + count) data.length).toNat).drop off.toNat

/-- The range of the file, its length and no error. -/
def Sent.range (data : Bytes) (off count : ℤ) : Sent :=
  ⟨fileRange data off count, (fileRange data off count).length, none⟩

/-- A writer accepts all bytes: `Write` takes what it is given, and `sendfile` fails only with
`EAGAIN` or `EINTR`, and not for ever. -/
structure Writer.AcceptsAll (w : Writer) : Prop where
  write : ∀ i chunk, w.write i chunk = (chunk.length, none)
  retry : ∀ i e, w.sendfile i = .fail e → e = .eagain ∨ e = .eintr
  fair : ∀ i, ∃ j, i ≤ j ∧ ∃ limit, w.sendfile j = .moved limit

/-- `sendfile` is of use for the call. -/
def Writer.Direct (w : Writer) (off count : ℤ) : Prop :=
  0 ≤ off ∧ (w.kind = .osFile false ∨ w.kind = .osFile true ∧ count ≤ 0)

variable {w : Writer} {data : Bytes} {reads : ℕ → Transfer} {off count : ℤ}

theorem fileRange_eq (hoff : 0 ≤ off) :
    fileRange data off count = (data.drop off.toNat).take count.toNat := by
  rw [fileRange, List.drop_take]
  rcases le_total (off + count) data.length with hle | hle
  · rw [min_eq_left hle]
    congr 1
    omega
  · rw [min_eq_right hle, Int.toNat_natCast, ← List.length_drop, List.take_length]
    exact (List.take_of_length_le (by rw [List.length_drop]; omega)).symm

/-- The first bytes of a range, and the rest of it. -/
theorem take_eq_append_take (l : Bytes) {m c : ℕ} (h : m ≤ c) :
    l.take c = l.take m ++ (l.drop (l.take m).length).take (c - (l.take m).length) := by
  rcases le_total m l.length with hm | hm
  · rw [List.length_take_of_le hm, ← List.take_add, Nat.add_sub_cancel' h]
  · rw [List.take_of_length_le hm, List.take_of_length_le (hm.trans h), List.drop_length,
      List.take_nil, List.append_nil]

/-- Both loops, between two calls: what has been written and what is still to be read make up the
range of the file. -/
structure Underway (data : Bytes) (off count pos total : ℤ) (written : Bytes) : Prop where
  range : fileRange data off count =
    written ++ (data.drop pos.toNat).take (count - total).toNat
  total : total = written.length
  pos : 0 ≤ pos

namespace Underway

variable {pos total : ℤ} {written : Bytes}

theorem start (data : Bytes) (count : ℤ) (hoff : 0 ≤ off) : Underway data off count off 0 [] where
  range := by rw [fileRange_eq hoff, Int.sub_zero, List.nil_append]
  total := rfl
  pos := hoff

theorem transfer (h : Underway data off count pos total written) {m : ℕ}
    (hm : m ≤ (count - total).toNat) {chunk : Bytes}
    (hchunk : (data.drop pos.toNat).take m = chunk) :
    Underway data off count (pos + chunk.length) (total + chunk.length) (written ++ chunk) where
  range := by
    have hpos : (pos + chunk.length).toNat = pos.toNat + chunk.length := by
      have := h.pos
      omega
    have hleft : (count - (total + chunk.length)).toNat = (count - total).toNat - chunk.length := by
      omega
    rw [h.range, take_eq_append_take _ hm, hchunk, hpos, hleft, List.drop_drop, List.append_assoc]
  total := by rw [h.total, List.length_append, Nat.cast_add]
  pos := by
    have := h.pos
    omega

/-- Nothing is left to be read. -/
theorem sent (h : Underway data off count pos total written)
    (hleft : (data.drop pos.toNat).take (count - total).toNat = []) :
    (⟨written, total, none⟩ : Sent) = .range data off count := by
  rw [Sent.range, h.range, hleft, List.append_nil, h.total]

theorem sent_of_le (h : Underway data off count pos total written) (hle : count ≤ total) :
    (⟨written, total, none⟩ : Sent) = .range data off count := by
  refine h.sent ?_
  rw [Int.toNat_of_nonpos (Int.sub_nonpos_of_le hle), List.take_zero]

/-- A call that moves nothing has met the end of the file. -/
theorem sent_of_eof (h : Underway data off count pos total written) {m : ℕ} (hm : 0 < m)
    (hnil : (data.drop pos.toNat).take m = []) :
    (⟨written, total, none⟩ : Sent) = .range data off count := by
  refine h.sent ?_
  rcases List.take_eq_nil_iff.mp hnil with hzero | hdrop
  · omega
  · rw [hdrop, List.take_nil]

end Underway

theorem sendfile_of_not_append (hpos : 0 ≤ off) (toSend : ℤ) (t : Transfer) :
    sendfile false data off toSend t =
      match t with
      | .fail e => .error e
      | .moved limit => .ok ((data.drop off.toNat).take (min (limit + 1) toSend.toNat)) := by
  have hok : ¬ (false = true ∨ off < 0) := by simp [hpos]
  cases t with
  | fail e => rw [sendfile, if_neg hok]
  | moved limit => rw [sendfile, if_neg hok]

/-- The number of failing calls before the next one that moves something. -/
noncomputable def Writer.retries (w : Writer) (h : w.AcceptsAll) (i : ℕ) : ℕ :=
  open Classical in Nat.find (h.fair i) - i

theorem Writer.retries_lt (h : w.AcceptsAll) {i : ℕ} {e : Errno} (hi : w.sendfile i = .fail e) :
    w.retries h (i + 1) < w.retries h i := by
  classical
  obtain ⟨hle, limit, hmoved⟩ := Nat.find_spec (h.fair i)
  have hne : Nat.find (h.fair i) ≠ i := by
    intro heq
    rw [heq, hi] at hmoved
    cases hmoved
  have hmin : Nat.find (h.fair (i + 1)) ≤ Nat.find (h.fair i) :=
    Nat.find_min' (h.fair (i + 1)) ⟨by omega, limit, hmoved⟩
  unfold retries
  omega

/-- On Linux, an `*os.File` gets the range. -/
theorem sendFileLoop_returns (hw : w.AcceptsAll) (hoff : 0 ≤ off) :
    Returns (fun fuel => run (sendFileBody w false data count) fuel ⟨0, off, 0, []⟩)
      (.range data off count) := by
  -- A round moves bytes, or brings the next transfer nearer.
  refine returns_of_invariant
    (fun s => Underway data off count s.off s.total s.written)
    (fun s => toLex ((count - s.total).toNat, w.retries hw s.calls)) (fun s hs => ?_) _
    (Underway.start data count hoff)
  unfold sendFileBody
  split
  · next hlt =>
      dsimp only
      rw [sendfile_of_not_append hs.pos]
      cases hcall : w.sendfile s.calls with
      | fail e =>
          have hless := Writer.retries_lt hw hcall
          right
          refine ⟨{ s with calls := s.calls + 1 }, ?_, hs,
            Prod.Lex.toLex_lt_toLex.mpr (Or.inr ⟨rfl, hless⟩)⟩
          rcases hw.retry s.calls e hcall with rfl | rfl <;> rfl
      | moved limit =>
          have hm : min (limit + 1) (count - s.total).toNat ≤ (count - s.total).toNat :=
            min_le_right _ _
          dsimp only
          cases hchunk : (data.drop s.off.toNat).take (min (limit + 1) (count - s.total).toNat) with
          | nil =>
              left
              exact congrArg Sum.inr (hs.sent_of_eof (by omega) hchunk)
          | cons b chunk =>
              right
              refine ⟨_, rfl, hs.transfer hm hchunk, Prod.Lex.toLex_lt_toLex.mpr (Or.inl ?_)⟩
              simp only [List.length_cons]
              omega
  · next hle => exact Or.inl (congrArg Sum.inr (hs.sent_of_le (Int.not_lt.mp hle)))

/-- The fallback sends the range to every writer. -/
theorem sendFileFallbackLoop_returns (hw : w.AcceptsAll)
    (hreads : ∀ i, ∃ limit, reads i = .moved limit) (hoff : 0 ≤ off) :
    Returns (fun fuel => run (sendFileFallbackBody w data reads) fuel ⟨0, off, 0, count, []⟩)
      (.range data off count) := by
  refine returns_of_invariant
    (fun s => Underway data off count s.pos s.copied s.written ∧ s.remain = count - s.copied)
    (fun s => s.remain.toNat) (fun s ⟨hs, hremain⟩ => ?_) _
    ⟨Underway.start data count hoff, (Int.sub_zero count).symm⟩
  unfold sendFileFallbackBody
  split
  · next hlt =>
      obtain ⟨limit, hread⟩ := hreads s.calls
      dsimp only
      generalize htoRead : (if s.remain < bufSize then s.remain else bufSize) = toRead
      have hbound : 0 < toRead ∧ toRead ≤ count - s.copied := by
        unfold bufSize at htoRead
        split at htoRead <;> omega
      rw [hread]
      simp only [readAt]
      have hm : min (limit + 1) toRead.toNat ≤ (count - s.copied).toNat :=
        (min_le_right _ _).trans (Int.toNat_le_toNat hbound.2)
      cases hchunk : (data.drop s.pos.toNat).take (min (limit + 1) toRead.toNat) with
      | nil =>
          left
          exact congrArg Sum.inr (hs.sent_of_eof (by omega) hchunk)
      | cons b chunk =>
          right
          simp only [hw.write, List.take_length, ne_eq, not_true_eq_false, if_false]
          refine ⟨_, rfl, ⟨hs.transfer hm hchunk, ?_⟩, ?_⟩
          · simp only [hremain]
            omega
          · simp only [List.length_cons]
            omega
  · next hle =>
      have hdone : count ≤ s.copied := by omega
      exact Or.inl (congrArg Sum.inr (hs.sent_of_le hdone))

/-- `sendfile` refuses a file opened for appending. -/
theorem sendFileLoop_append (hcount : 0 < count) :
    Returns (fun fuel => run (sendFileBody w true data count) fuel ⟨0, off, 0, []⟩)
      ⟨[], 0, some (.errno .einval)⟩ := by
  refine returns_of_inr ?_
  unfold sendFileBody
  rw [if_pos hcount]
  cases w.sendfile 0 <;> simp [sendfile]

theorem sendFileLoop_append_of_nonpos (hoff : 0 ≤ off) (hcount : count ≤ 0) :
    Returns (fun fuel => run (sendFileBody w true data count) fuel ⟨0, off, 0, []⟩)
      (.range data off count) := by
  refine returns_of_inr ?_
  unfold sendFileBody
  rw [if_neg (Int.not_lt.mpr hcount), (Underway.start data count hoff).sent_of_le hcount]

theorem not_returns_range {f : ℕ → Option Sent} {r : Sent} (h : Returns f r)
    (herr : r.err ≠ none) : ¬ Returns f (.range data off count) := by
  intro hrange
  rw [h.unique hrange] at herr
  exact herr rfl

theorem sendFileLinux_of_other (h : w.kind = .other) :
    sendFileLinux w data off count = fun _ => some ⟨[], 0, some .errInvalid⟩ := by
  funext fuel
  rw [sendFileLinux, h]

theorem sendFileLinux_of_osFile {append : Bool} (h : w.kind = .osFile append) :
    sendFileLinux w data off count =
      fun fuel => run (sendFileBody w append data count) fuel ⟨0, off, 0, []⟩ := by
  funext fuel
  rw [sendFileLinux, h]

theorem sendFileFallback_of_nonneg (hoff : 0 ≤ off) :
    sendFileFallback w data reads off count =
      fun fuel => run (sendFileFallbackBody w data reads) fuel ⟨0, off, 0, count, []⟩ := by
  funext fuel
  rw [sendFileFallback, if_neg (Int.not_lt.mpr hoff)]

/-- A writer of some kind; every other `sendfile` to it fails with `EAGAIN`, and the rest move at
most two bytes. -/
def sampleWriter (kind : WriterKind) : Writer where
  kind := kind
  write := fun _ chunk => (chunk.length, none)
  sendfile := fun i => if i % 2 = 0 then .fail .eagain else .moved 1

theorem sampleWriter_acceptsAll (kind : WriterKind) : (sampleWriter kind).AcceptsAll where
  write := fun _ _ => rfl
  retry := fun i e h => by
    simp only [sampleWriter] at h
    split at h
    · exact Or.inl (Transfer.fail.inj h).symm
    · cases h
  fair := fun i => ⟨2 * i + 1, by omega, 1, by simp [sampleWriter]⟩

end StreamFlow
