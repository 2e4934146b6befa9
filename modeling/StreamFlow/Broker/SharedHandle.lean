import StreamFlow.Broker.SendFile
import StreamFlow.Foundation.Run

/-!
# Transfers on one handle

The position of an `*os.File` belongs to the handle, and `FetchRaw` gives the same handle to every
caller. `sendFileFallback` sets the position once and then reads on, so what it reads depends on
what other calls do to the position in the meantime.

Any number of calls share a handle here, and their `Seek`, `Read` and `Write` interleave in any
order. `transfers_iff` says when their writers get the right bytes whatever the file contains: each
`Read` has to find the handle where the call would have left it alone.
-/

namespace StreamFlow

open BigEndian Run

/-! ### One call -/

inductive TransferPhase where
  | seeking
  | reading
  | writing (chunk : Bytes)
  | done (err : Option SendFileError)
deriving DecidableEq

/-- A call of `sendFileFallback`, and what its writer has received. -/
structure TransferCall where
  off : ℤ
  count : ℤ
  copied : ℤ
  remain : ℤ
  received : Bytes
  phase : TransferPhase
deriving DecidableEq

/-- A step of a call, with its outcome. -/
inductive TransferStep where
  | seek
  | read (t : Transfer)
  | write (wn : ℕ) (werr : Option SendFileError)
deriving DecidableEq

/-- The most bytes that a `Read` moves, if it does not fail. -/
def TransferStep.limit? : TransferStep → Option ℕ
  | .read (.moved limit) => some limit
  | _ => none

theorem TransferStep.eq_of_limit? {st : TransferStep} {limit : ℕ} (h : st.limit? = some limit) :
    st = .read (.moved limit) := by
  unfold limit? at h
  split at h
  · obtain rfl := Option.some.inj h
    rfl
  · cases h

namespace TransferCall

def start (off count : ℤ) : TransferCall := ⟨off, count, 0, count, [], .seeking⟩

/-- The condition of the loop. -/
def again (c : TransferCall) : TransferCall :=
  { c with phase := if 0 < c.remain then .reading else .done none }

/-- The part of the buffer that is read into. -/
def toRead (c : TransferCall) : ℤ := if c.remain < bufSize then c.remain else bufSize

/-- `Seek` moves the handle, unless the offset is negative. -/
def afterSeek (pos : ℕ) (c : TransferCall) : ℕ × TransferCall :=
  if c.off < 0 then (pos, { c with phase := .done (some (.seek .einval)) })
  else (c.off.toNat, c.again)

/-- `Read` moves the handle by the bytes that it gets; none are `io.EOF`. -/
def afterRead (pos : ℕ) (c : TransferCall) : Except Errno Bytes → ℕ × TransferCall
  | .error e => (pos, { c with phase := .done (some (.read e)) })
  | .ok [] => (pos, { c with phase := .done none })
  | .ok chunk => (pos + chunk.length, { c with phase := .writing chunk })

/-- `Write` takes the first `wn` bytes of the buffer. -/
def afterWrite (chunk : Bytes) (wn : ℕ) (werr : Option SendFileError) (c : TransferCall) :
    TransferCall :=
  let c := { c with copied := c.copied + wn, received := c.received ++ chunk.take wn }
  match werr with
  | some e => { c with phase := .done (some e) }
  | none =>
      if chunk.length ≠ wn then { c with phase := .done (some .shortWrite) }
      else { c with remain := c.remain - chunk.length }.again

/-- A step of a call with the handle at `pos`. -/
def step (data : Bytes) (pos : ℕ) (c : TransferCall) (st : TransferStep) :
    Option (ℕ × TransferCall) :=
  match c.phase, st with
  | .seeking, .seek => some (c.afterSeek pos)
  | .reading, .read t => some (c.afterRead pos (readAt data pos c.toRead t))
  | .writing chunk, .write wn werr => some (pos, c.afterWrite chunk wn werr)
  | _, _ => none

/-- The place in the file that comes next for the call. -/
def place (c : TransferCall) : ℕ := (c.off + c.copied).toNat

/-- What has been read and not yet been written. -/
def buffer (c : TransferCall) : Bytes :=
  match c.phase with
  | .writing chunk => chunk
  | _ => []

def Failed (c : TransferCall) : Prop := ∃ e, c.phase = .done (some e)

variable {data : Bytes} {pos pos' : ℕ} {c c' : TransferCall} {st : TransferStep}

/-- What a step does, unless it fails. -/
inductive Does (data : Bytes) (pos : ℕ) (c : TransferCall) :
    TransferStep → ℕ → TransferCall → Prop
  | seek (hphase : c.phase = .seeking) (hoff : 0 ≤ c.off) :
      Does data pos c .seek c.off.toNat c.again
  | eof {t : Transfer} (hphase : c.phase = .reading)
      (hread : readAt data pos c.toRead t = .ok []) :
      Does data pos c (.read t) pos { c with phase := .done none }
  | read {t : Transfer} {chunk : Bytes} (hphase : c.phase = .reading)
      (hread : readAt data pos c.toRead t = .ok chunk) (hne : chunk ≠ []) :
      Does data pos c (.read t) (pos + chunk.length) { c with phase := .writing chunk }
  | write {chunk : Bytes} (hphase : c.phase = .writing chunk) :
      Does data pos c (.write chunk.length none) pos
        { c with
          copied := c.copied + chunk.length, received := c.received ++ chunk,
          remain := c.remain - chunk.length }.again

theorem step_cases (h : c.step data pos st = some (pos', c')) :
    c'.Failed ∨ Does data pos c st pos' c' := by
  unfold step at h
  split at h
  · next hphase =>
      have heq := Option.some.inj h
      unfold afterSeek at heq
      split at heq
      · obtain ⟨-, rfl⟩ := Prod.mk.inj heq
        exact Or.inl ⟨_, rfl⟩
      · next hoff =>
          obtain ⟨rfl, rfl⟩ := Prod.mk.inj heq
          exact Or.inr (.seek hphase (Int.not_lt.mp hoff))
  · next t hphase =>
      have heq := Option.some.inj h
      unfold afterRead at heq
      split at heq
      · obtain ⟨-, rfl⟩ := Prod.mk.inj heq
        exact Or.inl ⟨_, rfl⟩
      · next hread =>
          obtain ⟨rfl, rfl⟩ := Prod.mk.inj heq
          exact Or.inr (.eof hphase hread)
      · next hread =>
          obtain ⟨rfl, rfl⟩ := Prod.mk.inj heq
          exact Or.inr (.read hphase hread (by assumption))
  · next chunk wn werr hphase =>
      obtain ⟨rfl, rfl⟩ := Prod.mk.inj (Option.some.inj h)
      cases werr with
      | some e => exact Or.inl ⟨e, rfl⟩
      | none =>
          by_cases hlength : chunk.length = wn
          · subst hlength
            refine Or.inr ?_
            have hwrite : Does data pos c (.write chunk.length none) pos _ := .write hphase
            simpa [afterWrite] using hwrite
          · refine Or.inl ⟨.shortWrite, ?_⟩
            simp [afterWrite, hlength]
  · cases h

/-- A call that has returned takes no step. -/
theorem step_of_done {err : Option SendFileError} (h : c.phase = .done err) :
    c.step data pos st = none := by
  simp only [step, h]

/-! ### What a call has received -/

/-- What holds of a call that has not failed, whatever it has read. -/
structure Sound (c : TransferCall) : Prop where
  off : c.phase ≠ .seeking → 0 ≤ c.off
  copied : c.copied = c.received.length
  remain : c.remain = c.count - c.copied
  reading : c.phase = .reading → 0 < c.remain
  bound : c.received.length + c.buffer.length ≤ c.count.toNat

/-- What has been read so far is what the file has from the offset of the call on, and a call that
has returned is at the end of its range or of the file. -/
structure Kept (data : Bytes) (c : TransferCall) : Prop where
  bytes : c.received ++ c.buffer <+: data.drop c.off.toNat
  finished : c.phase = .done none → c.remain ≤ 0 ∨ data.length ≤ c.place

/-- A `Read` gets bytes from the place of the call, and none only at the end of the file. -/
def OwnBytes (data : Bytes) (pos : ℕ) (c : TransferCall) : TransferStep → Prop
  | .read t => 0 < c.remain → ∀ chunk, readAt data pos c.toRead t = .ok chunk →
      chunk <+: data.drop c.place ∧ (chunk = [] → data.length ≤ c.place)
  | _ => True

theorem toRead_pos (h : 0 < c.remain) : 0 < c.toRead := by
  unfold toRead bufSize
  split <;> omega

theorem phase_again_eq_reading_iff : c.again.phase = .reading ↔ 0 < c.remain := by
  simp [again]

theorem phase_again_eq_done_iff : c.again.phase = .done none ↔ c.remain ≤ 0 := by
  simp [again]

theorem buffer_again (c : TransferCall) : c.again.buffer = [] := by
  by_cases h : 0 < c.remain
  · simp only [buffer, phase_again_eq_reading_iff.mpr h]
  · simp only [buffer, phase_again_eq_done_iff.mpr (Int.not_lt.mp h)]

theorem sound_start (off count : ℤ) : (start off count).Sound where
  off := fun h => absurd rfl h
  copied := rfl
  remain := (Int.sub_zero count).symm
  reading := nofun
  bound := Nat.zero_le _

theorem kept_start (data : Bytes) (off count : ℤ) : (start off count).Kept data where
  bytes := List.nil_prefix
  finished := nofun

theorem Sound.again (hoff : 0 ≤ c.off) (hcopied : c.copied = c.received.length)
    (hremain : c.remain = c.count - c.copied) (hbound : c.received.length ≤ c.count.toNat) :
    c.again.Sound where
  off := fun _ => hoff
  copied := hcopied
  remain := hremain
  reading := phase_again_eq_reading_iff.mp
  bound := by
    rw [buffer_again, List.length_nil, Nat.add_zero]
    exact hbound

theorem Sound.place (h : c.Sound) (hphase : c.phase ≠ .seeking) :
    c.place = c.off.toNat + c.received.length := by
  have hoff := h.off hphase
  rw [TransferCall.place, h.copied]
  omega

theorem length_readAt_le {size : ℤ} {t : Transfer} {chunk : Bytes}
    (h : readAt data pos size t = .ok chunk) : chunk.length ≤ size.toNat := by
  cases t with
  | fail e => cases h
  | moved limit =>
      rw [← Except.ok.inj h, List.length_take]
      omega

theorem Sound.does (h : c.Sound) (hdoes : Does data pos c st pos' c') : c'.Sound := by
  cases hdoes with
  | seek hphase hoff =>
      have hbound := h.bound
      exact .again hoff h.copied h.remain (by omega)
  | eof hphase _ =>
      refine ⟨fun _ => h.off (by rw [hphase]; nofun), h.copied, h.remain, nofun, ?_⟩
      have hbound := h.bound
      simp only [buffer, List.length_nil]
      omega
  | @read t chunk hphase hread _ =>
      have hlength := length_readAt_le hread
      have hpos := h.reading hphase
      have hremain := h.remain
      have hcopied := h.copied
      refine ⟨fun _ => h.off (by rw [hphase]; nofun), h.copied, h.remain, nofun, ?_⟩
      have hle : c.toRead ≤ c.remain := by
        unfold toRead
        split <;> omega
      simp only [buffer]
      omega
  | @write chunk hphase =>
      have hremain := h.remain
      have hcopied := h.copied
      have hbound := h.bound
      simp only [buffer, hphase] at hbound
      refine .again (h.off (by rw [hphase]; nofun)) ?_ ?_ ?_
      · simp only [List.length_append, Nat.cast_add]
        omega
      · dsimp only
        omega
      · simp only [List.length_append]
        omega

theorem append_prefix_iff {u v l : Bytes} : u ++ v <+: l ↔ u <+: l ∧ v <+: l.drop u.length := by
  constructor
  · rintro ⟨rest, rfl⟩
    exact ⟨⟨v ++ rest, by simp⟩, ⟨rest, by simp⟩⟩
  · rintro ⟨⟨rest, rfl⟩, hv⟩
    rw [List.drop_left] at hv
    exact (List.prefix_append_right_inj u).mpr hv

theorem kept_again_iff (c : TransferCall) :
    c.again.Kept data ↔ c.received <+: data.drop c.off.toNat := by
  constructor
  · intro h
    have hbytes := h.bytes
    rwa [buffer_again, List.append_nil] at hbytes
  · intro h
    refine ⟨?_, fun hphase => Or.inl (phase_again_eq_done_iff.mp hphase)⟩
    rwa [buffer_again, List.append_nil]

theorem buffer_eq_nil (h : ∀ chunk, c.phase ≠ .writing chunk) : c.buffer = [] := by
  unfold buffer
  split
  · next chunk hphase => exact absurd hphase (h chunk)
  · rfl

/-- Before the end, only the bytes matter. -/
theorem kept_iff_bytes (h : c.phase ≠ .done none) :
    c.Kept data ↔ c.received ++ c.buffer <+: data.drop c.off.toNat :=
  ⟨Kept.bytes, fun hbytes => ⟨hbytes, fun hdone => absurd hdone h⟩⟩

/-- A step keeps the bytes right exactly if they were right and it gets its own bytes. -/
theorem Sound.kept_iff (h : c.Sound) (hdoes : Does data pos c st pos' c') :
    c'.Kept data ↔ c.Kept data ∧ c.OwnBytes data pos st := by
  cases hdoes with
  | seek hphase _ =>
      have hbuffer : c.buffer = [] := buffer_eq_nil (by rw [hphase]; nofun)
      rw [kept_again_iff, kept_iff_bytes (by rw [hphase]; nofun), hbuffer, List.append_nil]
      exact (and_iff_left trivial).symm
  | @eof t hphase hread =>
      have hbuffer : c.buffer = [] := buffer_eq_nil (by rw [hphase]; nofun)
      have hown : c.OwnBytes data pos (.read t) ↔ data.length ≤ c.place := by
        simp [OwnBytes, hread, h.reading hphase]
      rw [hown, kept_iff_bytes (c := c) (by rw [hphase]; nofun), hbuffer]
      constructor
      · intro hkept
        have hremain := h.reading hphase
        exact ⟨hkept.bytes, (hkept.finished rfl).resolve_left (Int.not_le.mpr hremain)⟩
      · rintro ⟨hbytes, hend⟩
        exact ⟨hbytes, fun _ => Or.inr hend⟩
  | @read t chunk hphase hread hne =>
      have hbuffer : c.buffer = [] := buffer_eq_nil (by rw [hphase]; nofun)
      have hown : c.OwnBytes data pos (.read t) ↔ chunk <+: data.drop c.place := by
        simp [OwnBytes, hread, hne, h.reading hphase]
      rw [hown, kept_iff_bytes (c := c) (by rw [hphase]; nofun), kept_iff_bytes (by nofun), hbuffer,
        List.append_nil, h.place (by rw [hphase]; nofun), ← List.drop_drop]
      exact append_prefix_iff
  | @write chunk hphase =>
      have hbuffer : c.buffer = chunk := by simp only [buffer, hphase]
      rw [kept_again_iff, kept_iff_bytes (by rw [hphase]; nofun), hbuffer]
      exact (and_iff_left trivial).symm

/-- A call that has returned without an error has the right bytes exactly if its writer has received
the range. -/
theorem Sound.kept_iff_received (h : c.Sound) (hphase : c.phase = .done none) :
    c.Kept data ↔ c.received = fileRange data c.off c.count := by
  have hbuffer : c.buffer = [] := buffer_eq_nil (by rw [hphase]; nofun)
  have hoff := h.off (by rw [hphase]; nofun)
  have hplace := h.place (by rw [hphase]; nofun)
  have hbound := h.bound
  have hremain := h.remain
  have hcopied := h.copied
  rw [hbuffer, List.length_nil, Nat.add_zero] at hbound
  rw [fileRange_eq hoff]
  constructor
  · intro hkept
    have hbytes := hkept.bytes
    rw [hbuffer, List.append_nil] at hbytes
    rw [List.prefix_iff_eq_take.mp hbytes]
    rcases hkept.finished hphase with hdone | hend
    · congr 1
      omega
    · have hleft : (data.drop c.off.toNat).length ≤ c.received.length := by
        rw [List.length_drop]
        omega
      rw [List.take_of_length_le hleft, List.take_of_length_le (hleft.trans hbound)]
  · intro hreceived
    refine ⟨?_, fun _ => ?_⟩
    · rw [hbuffer, List.append_nil, hreceived]
      exact List.take_prefix _ _
    · have hlength := congrArg List.length hreceived
      rw [List.length_take, List.length_drop] at hlength
      omega

end TransferCall

/-! ### All calls -/

/-- The position of a handle and the calls that use it. -/
structure SharedHandle where
  pos : ℕ
  calls : List TransferCall
deriving DecidableEq

namespace SharedHandle

/-- A step of one of the calls. -/
def step (data : Bytes) (s : SharedHandle) (a : ℕ × TransferStep) : Option SharedHandle :=
  (s.calls[a.1]?).bind fun c =>
    (c.step data s.pos a.2).map fun r => ⟨r.1, s.calls.set a.1 r.2⟩

/-- Calls with the given offsets and counts, before their first step. -/
def start (pos : ℕ) (ranges : List (ℤ × ℤ)) : SharedHandle :=
  ⟨pos, ranges.map fun r => .start r.1 r.2⟩

/-- A `Read` of the call finds the handle at the place of the call, or both are at the end of the
file or after it. -/
def OwnPlace (size i : ℕ) (s : SharedHandle) (a : ℕ × TransferStep) : Prop :=
  a.1 = i → ∀ c ∈ s.calls[i]?, ∀ limit ∈ a.2.limit?,
    s.pos = c.place ∨ size ≤ s.pos ∧ size ≤ c.place

variable {data : Bytes} {s s' : SharedHandle} {a : ℕ × TransferStep} {i : ℕ}

theorem step_eq_some_iff : s.step data a = some s' ↔
    ∃ c pos' c', s.calls[a.1]? = some c ∧ c.step data s.pos a.2 = some (pos', c') ∧
      s' = ⟨pos', s.calls.set a.1 c'⟩ := by
  rw [step, Option.bind_eq_some_iff]
  simp only [Option.map_eq_some_iff, Prod.exists]
  constructor
  · rintro ⟨c, hc, pos', c', hstep, rfl⟩
    exact ⟨c, pos', c', hc, hstep, rfl⟩
  · rintro ⟨c, pos', c', hc, hstep, rfl⟩
    exact ⟨c, hc, pos', c', hstep, rfl⟩

/-- A `Read` of the call gets bytes from the place of the call. -/
def OwnRead (data : Bytes) (i : ℕ) (s : SharedHandle) (a : ℕ × TransferStep) : Prop :=
  a.1 = i → ∀ c ∈ s.calls[i]?, c.OwnBytes data s.pos a.2

/-- What a step does to a call. -/
theorem exists_call_of_step (hstep : s.step data a = some s') {c : TransferCall}
    (hc : s.calls[i]? = some c) :
    ∃ c', s'.calls[i]? = some c' ∧ (c.Failed → c'.Failed) ∧
      (c.Sound → c'.Failed ∨
        c'.Sound ∧ (c'.Kept data ↔ c.Kept data ∧ s.OwnRead data i a)) := by
  obtain ⟨c₁, pos', c', hc₁, hcall, rfl⟩ := step_eq_some_iff.mp hstep
  by_cases hi : a.1 = i
  · obtain rfl := Option.some.inj (hc.symm.trans (hi ▸ hc₁))
    have hown : s.OwnRead data i a ↔ c.OwnBytes data s.pos a.2 := by
      simp [OwnRead, hi, hc]
    refine ⟨c', ?_, fun hfailed => ?_, fun hsound => ?_⟩
    · rw [hi, List.getElem?_set_self (List.getElem?_eq_some_iff.mp hc).1]
    · obtain ⟨e, he⟩ := hfailed
      rw [TransferCall.step_of_done he] at hcall
      cases hcall
    · rcases TransferCall.step_cases hcall with hfailed | hdoes
      · exact Or.inl hfailed
      · rw [hown]
        exact Or.inr ⟨hsound.does hdoes, hsound.kept_iff hdoes⟩
  · refine ⟨c, ?_, id, fun hsound => Or.inr ⟨hsound, ?_⟩⟩
    · rw [List.getElem?_set_ne hi, hc]
    · exact (and_iff_left fun h => absurd h hi).symm

/-- A call has failed or has the right bytes. -/
def Right (data : Bytes) (i : ℕ) (s : SharedHandle) : Prop :=
  ∃ c, s.calls[i]? = some c ∧ (c.Failed ∨ c.Sound ∧ c.Kept data)

/-- A call has failed or has wrong bytes. -/
def Wrong (data : Bytes) (i : ℕ) (s : SharedHandle) : Prop :=
  ∃ c, s.calls[i]? = some c ∧ (c.Failed ∨ c.Sound ∧ ¬ c.Kept data)

/-- What is known of a call that has not failed, carried over a step. -/
theorem exists_call_step {P P' : TransferCall → Prop}
    (h : ∃ c, s.calls[i]? = some c ∧ (c.Failed ∨ c.Sound ∧ P c))
    (hstep : s.step data a = some s')
    (hP : ∀ c c', (c'.Kept data ↔ c.Kept data ∧ s.OwnRead data i a) → P c → P' c') :
    ∃ c', s'.calls[i]? = some c' ∧ (c'.Failed ∨ c'.Sound ∧ P' c') := by
  obtain ⟨c, hc, hcase⟩ := h
  obtain ⟨c', hc', hfailed, hsound⟩ := exists_call_of_step hstep hc
  refine ⟨c', hc', ?_⟩
  rcases hcase with hfail | ⟨hs, hknown⟩
  · exact Or.inl (hfailed hfail)
  · exact (hsound hs).imp_right fun hs' => ⟨hs'.1, hP c c' hs'.2 hknown⟩

theorem Right.step (h : s.Right data i) (hown : s.OwnRead data i a)
    (hstep : s.step data a = some s') : s'.Right data i :=
  exists_call_step h hstep fun _ _ hiff hkept => hiff.mpr ⟨hkept, hown⟩

theorem Right.step_wrong (h : s.Right data i) (hown : ¬ s.OwnRead data i a)
    (hstep : s.step data a = some s') : s'.Wrong data i :=
  exists_call_step h hstep fun _ _ hiff _ hkept => hown (hiff.mp hkept).2

theorem Wrong.step (h : s.Wrong data i) (hstep : s.step data a = some s') : s'.Wrong data i :=
  exists_call_step h hstep fun _ _ hiff hwrong hkept => hwrong (hiff.mp hkept).1

/-- A call that has returned without an error has sent its range exactly if each of its `Read`s got
bytes from its place. -/
theorem received_iff {acts : List (ℕ × TransferStep)} (hrun : exec (step data) s acts = some s')
    (h : s.Right data i) {c : TransferCall} (hc : s'.calls[i]? = some c)
    (hdone : c.phase = .done none) :
    c.received = fileRange data c.off c.count ↔ Guarded (step data) (OwnRead data i) s acts := by
  have hfailed : ¬ c.Failed := by
    rintro ⟨e, he⟩
    rw [hdone] at he
    cases he
  have hfree : Guarded (step data) (fun _ _ => True) s acts :=
    guarded_of_forall fun _ _ => trivial
  rcases good_or_bad (Right data i) (Wrong data i) (fun _ _ _ hs _ hown => hs.step hown)
    (fun _ _ _ hs _ hown => hs.step_wrong hown) (fun _ _ _ hs _ => hs.step) hrun hfree h with
    ⟨hguarded, c', hc', hcase⟩ | ⟨hguarded, c', hc', hcase⟩
  · obtain rfl := Option.some.inj (hc.symm.trans hc')
    obtain ⟨hsound, hkept⟩ := hcase.resolve_left hfailed
    exact iff_of_true ((hsound.kept_iff_received hdone).mp hkept) hguarded
  · obtain rfl := Option.some.inj (hc.symm.trans hc')
    obtain ⟨hsound, hwrong⟩ := hcase.resolve_left hfailed
    exact iff_of_false (mt (hsound.kept_iff_received hdone).mpr hwrong) hguarded

theorem right_start (data : Bytes) (pos : ℕ) {ranges : List (ℤ × ℤ)} (hi : i < ranges.length) :
    (start pos ranges).Right data i := by
  refine ⟨.start (ranges[i]).1 (ranges[i]).2, ?_, Or.inr ⟨TransferCall.sound_start _ _,
    TransferCall.kept_start data _ _⟩⟩
  rw [start, List.getElem?_map, List.getElem?_eq_getElem hi]
  rfl

end SharedHandle

/-! ### A call alone -/

namespace SharedHandle

variable {data : Bytes} {pos : ℕ} {c : TransferCall} {sent : Sent}

/-- The steps of a call that is alone lead to a result of `sendFileFallback`. -/
def Sends (data : Bytes) (pos : ℕ) (c : TransferCall) (sent : Sent) : Prop :=
  ∃ acts pos' c', exec (step data) ⟨pos, [c]⟩ acts = some ⟨pos', [c']⟩ ∧
    c'.received = sent.written ∧ c'.copied = sent.count ∧ c'.phase = .done sent.err

theorem sends_of_done {err : Option SendFileError} (h : c.phase = .done err) :
    Sends data pos c ⟨c.received, c.copied, err⟩ :=
  ⟨[], pos, c, rfl, rfl, rfl, h⟩

theorem Sends.of_step (st : TransferStep) {pos' : ℕ} {c' : TransferCall}
    (hstep : c.step data pos st = some (pos', c')) (h : Sends data pos' c' sent) :
    Sends data pos c sent := by
  obtain ⟨acts, pos'', c'', hrun, hsent⟩ := h
  refine ⟨(0, st) :: acts, pos'', c'', exec_cons_eq_some_iff.mpr ⟨⟨pos', [c']⟩, ?_, hrun⟩, hsent⟩
  exact step_eq_some_iff.mpr ⟨c, pos', c', rfl, hstep, rfl⟩

/-- The call between two rounds of the loop. -/
def ofCopy (off count : ℤ) (s : CopyState) : TransferCall :=
  TransferCall.again ⟨off, count, s.copied, s.remain, s.written, .reading⟩

theorem ofCopy_of_pos {off count : ℤ} {s : CopyState} (h : 0 < s.remain) :
    ofCopy off count s = ⟨off, count, s.copied, s.remain, s.written, .reading⟩ := by
  rw [ofCopy, TransferCall.again, if_pos h]

/-- The loop of `sendFileFallback` takes the steps of a call that is alone. -/
theorem sends_of_run {w : Writer} {reads : ℕ → Transfer} {off count : ℤ} {fuel : ℕ} {s : CopyState}
    (hpos : 0 ≤ s.pos) (h : Loop.run (sendFileFallbackBody w data reads) fuel s = some sent) :
    Sends data s.pos.toNat (ofCopy off count s) sent := by
  induction fuel generalizing s with
  | zero => cases h
  | succ fuel ih =>
      rw [Loop.run, sendFileFallbackBody] at h
      by_cases hremain : 0 < s.remain
      · have hat : ((s.pos.toNat : ℕ) : ℤ) = s.pos := Int.toNat_of_nonneg hpos
        rw [if_pos hremain] at h
        rw [ofCopy_of_pos hremain]
        dsimp only at h
        refine .of_step (.read (reads s.calls)) rfl ?_
        rw [hat, TransferCall.toRead]
        cases hread : readAt data s.pos (if s.remain < bufSize then s.remain else bufSize)
            (reads s.calls) with
        | error e =>
            rw [hread] at h
            obtain rfl := Option.some.inj h
            exact sends_of_done rfl
        | ok chunk =>
            rw [hread] at h
            cases chunk with
            | nil =>
                obtain rfl := Option.some.inj h
                exact sends_of_done rfl
            | cons b chunk =>
                dsimp only at h
                refine .of_step (.write (w.write s.calls (b :: chunk)).1
                  (w.write s.calls (b :: chunk)).2) rfl ?_
                cases hwrite : (w.write s.calls (b :: chunk)).2 with
                | some werr =>
                    rw [hwrite] at h
                    obtain rfl := Option.some.inj h
                    exact sends_of_done rfl
                | none =>
                    rw [hwrite] at h
                    dsimp only at h
                    by_cases hlength : (b :: chunk).length = (w.write s.calls (b :: chunk)).1
                    · rw [if_neg (not_not.mpr hlength)] at h
                      have hsent := ih (by dsimp only; omega) h
                      have hnext : (s.pos + ((b :: chunk).length : ℤ)).toNat =
                          s.pos.toNat + (b :: chunk).length := by omega
                      rw [hnext] at hsent
                      rw [TransferCall.afterWrite, if_neg (not_not.mpr hlength)]
                      exact hsent
                    · rw [if_pos hlength] at h
                      obtain rfl := Option.some.inj h
                      rw [TransferCall.afterWrite, if_pos hlength]
                      exact sends_of_done rfl
      · rw [if_neg hremain] at h
        obtain rfl := Option.some.inj h
        exact sends_of_done (TransferCall.phase_again_eq_done_iff.mpr (Int.not_lt.mp hremain))

/-- What `sendFileFallback` does with a handle of its own, the steps of a call that is alone do. -/
theorem sends_of_sendFileFallback {w : Writer} {reads : ℕ → Transfer} {off count : ℤ} {fuel : ℕ}
    (pos : ℕ) (h : sendFileFallback w data reads off count fuel = some sent) :
    Sends data pos (.start off count) sent := by
  rw [sendFileFallback] at h
  by_cases hoff : off < 0
  · rw [if_pos hoff] at h
    obtain rfl := Option.some.inj h
    have hseek : (TransferCall.start off count).afterSeek pos = _ := if_pos hoff
    exact .of_step .seek (congrArg some hseek) (sends_of_done rfl)
  · rw [if_neg hoff] at h
    have hseek : (TransferCall.start off count).afterSeek pos = _ := if_neg hoff
    refine .of_step .seek (congrArg some hseek) ?_
    exact sends_of_run (s := ⟨0, off, 0, count, []⟩) (Int.not_lt.mp hoff) h

end SharedHandle

/-! ### Other contents -/

namespace TransferPhase

/-- The phase of a call on a file with other bytes. -/
def map (g : UInt8 → UInt8) : TransferPhase → TransferPhase
  | writing chunk => writing (chunk.map g)
  | seeking => seeking
  | reading => reading
  | done err => done err

end TransferPhase

namespace TransferCall

def map (g : UInt8 → UInt8) (c : TransferCall) : TransferCall :=
  { c with received := c.received.map g, phase := c.phase.map g }

theorem phase_of_map_eq_done {g : UInt8 → UInt8} {c : TransferCall} {err : Option SendFileError}
    (h : (c.map g).phase = .done err) : c.phase = .done err := by
  change c.phase.map g = .done err at h
  cases hphase : c.phase with
  | done err' =>
      rw [hphase] at h
      exact h
  | _ =>
      rw [hphase] at h
      cases h

theorem readAt_map (g : UInt8 → UInt8) (data : Bytes) (pos size : ℤ) (t : Transfer) :
    readAt (data.map g) pos size t = (readAt data pos size t).map (List.map g) := by
  cases t with
  | fail e => rfl
  | moved limit =>
      rw [readAt, readAt, ← List.map_drop, ← List.map_take]
      rfl

theorem again_map (g : UInt8 → UInt8) (c : TransferCall) : (c.map g).again = c.again.map g := by
  by_cases h : 0 < c.remain <;> simp [again, map, TransferPhase.map, h]

theorem afterRead_map (g : UInt8 → UInt8) (pos : ℕ) (c : TransferCall) (r : Except Errno Bytes) :
    (c.map g).afterRead pos (r.map (List.map g)) = Prod.map id (map g) (c.afterRead pos r) := by
  match r with
  | .error e => rfl
  | .ok [] => rfl
  | .ok (b :: chunk) => simp [Except.map, afterRead, map, TransferPhase.map]

theorem afterWrite_map (g : UInt8 → UInt8) (chunk : Bytes) (wn : ℕ) (werr : Option SendFileError)
    (c : TransferCall) :
    (c.map g).afterWrite (chunk.map g) wn werr = (c.afterWrite chunk wn werr).map g := by
  cases werr with
  | some e => simp [afterWrite, map, TransferPhase.map]
  | none =>
      by_cases hlength : chunk.length = wn
      · simp only [afterWrite, List.length_map, hlength, ne_eq, not_true_eq_false, if_false]
        rw [← again_map]
        simp [map]
      · simp [afterWrite, map, TransferPhase.map, hlength]

theorem afterSeek_map (g : UInt8 → UInt8) (pos : ℕ) (c : TransferCall) :
    (c.map g).afterSeek pos = Prod.map id (map g) (c.afterSeek pos) := by
  rw [afterSeek, afterSeek, again_map, apply_ite (Prod.map id (map g))]
  rfl

/-- A call does the same on a file of the same length. -/
theorem step_map (g : UInt8 → UInt8) (data : Bytes) (pos : ℕ) (c : TransferCall)
    (st : TransferStep) :
    (c.map g).step (data.map g) pos st = (c.step data pos st).map (Prod.map id (map g)) := by
  have hphase : (c.map g).phase = c.phase.map g := rfl
  have hsize : (c.map g).toRead = c.toRead := rfl
  unfold step
  simp only [hphase, hsize, readAt_map, afterSeek_map, afterRead_map]
  cases c.phase with
  | seeking => cases st <;> rfl
  | reading => cases st <;> rfl
  | writing chunk =>
      cases st with
      | write wn werr =>
          simp only [TransferPhase.map, afterWrite_map]
          rfl
      | _ => rfl
  | done err => cases st <;> rfl

end TransferCall

namespace SharedHandle

variable {data : Bytes} {s : SharedHandle} {a : ℕ × TransferStep} {size i : ℕ}

def map (g : UInt8 → UInt8) (s : SharedHandle) : SharedHandle :=
  ⟨s.pos, s.calls.map (TransferCall.map g)⟩

theorem step_map (g : UInt8 → UInt8) (data : Bytes) (s : SharedHandle) (a : ℕ × TransferStep) :
    (s.map g).step (data.map g) a = (s.step data a).map (map g) := by
  rw [step, step, map, List.getElem?_map]
  cases s.calls[a.1]? with
  | none => rfl
  | some c =>
      rw [Option.map_some, Option.bind_some, Option.bind_some, TransferCall.step_map]
      cases c.step data s.pos a.2 with
      | none => rfl
      | some r => simp [map, List.map_set]

theorem start_map (g : UInt8 → UInt8) (pos : ℕ) (ranges : List (ℤ × ℤ)) :
    (start pos ranges).map g = start pos ranges := by
  simp [start, map, TransferCall.map, TransferCall.start, TransferPhase.map]

theorem ownPlace_map (g : UInt8 → UInt8) : (s.map g).OwnPlace size i a ↔ s.OwnPlace size i a := by
  simp [OwnPlace, map, TransferCall.place, TransferCall.map]

/-- At its own place a call gets its own bytes. -/
theorem ownRead_of_ownPlace (h : s.OwnPlace data.length i a) : s.OwnRead data i a := by
  intro hi c hc
  have hplace := h hi c hc
  cases hst : a.2 with
  | seek => trivial
  | write wn werr => trivial
  | read t =>
      intro hremain chunk hread
      cases t with
      | fail e => cases hread
      | moved limit =>
          obtain rfl := Except.ok.inj hread
          have htoRead := TransferCall.toRead_pos hremain
          rw [Int.toNat_natCast]
          rcases hplace limit (by rw [hst]; rfl) with hpos | ⟨hpos, hend⟩
          · rw [hpos]
            constructor
            · exact List.take_prefix _ _
            · intro hnil
              rw [List.take_eq_nil_iff, List.drop_eq_nil_iff] at hnil
              omega
          · rw [List.drop_eq_nil_of_le hpos, List.take_nil]
            constructor
            · exact List.nil_prefix
            · exact fun _ => hend

/-- A file in which one byte differs from all others. -/
def marked (size place : ℕ) : Bytes := (List.replicate size 0).set place 1

theorem getElem?_marked {place k : ℕ} (hk : k < size) :
    (marked size place)[k]? = some (if place = k then 1 else 0) := by
  rw [marked, List.getElem?_set, List.getElem?_replicate_of_lt hk, List.length_replicate]
  split
  · rw [if_pos (by omega)]
  · rfl

/-- A `Read` that gets its own bytes on the marked file is at its own place. -/
theorem eq_place_of_ownBytes {pos limit : ℕ} {c : TransferCall} (hremain : 0 < c.remain)
    (h : c.OwnBytes (marked size c.place) pos (.read (.moved limit))) :
    pos = c.place ∨ size ≤ pos ∧ size ≤ c.place := by
  have hlength : (marked size c.place).length = size := by simp [marked]
  have htoRead := TransferCall.toRead_pos hremain
  obtain ⟨hbegins, hnil⟩ := h hremain _ rfl
  rw [Int.toNat_natCast, hlength] at hnil
  rw [Int.toNat_natCast] at hbegins
  rcases Nat.lt_or_ge pos size with hpos | hpos
  · -- the first byte that is read is the one at the place
    have hfirst : (marked size c.place)[pos]? = (marked size c.place)[c.place]? := by
      obtain ⟨m, hm⟩ : ∃ m, min (limit + 1) c.toRead.toNat = m + 1 :=
        ⟨min (limit + 1) c.toRead.toNat - 1, by omega⟩
      obtain ⟨rest, hrest⟩ := hbegins
      rw [hm] at hrest
      rw [← List.head?_drop, ← List.head?_drop, ← hrest]
      cases hdrop : (marked size c.place).drop pos with
      | nil =>
          rw [List.drop_eq_nil_iff, hlength] at hdrop
          omega
      | cons b bs => rfl
    left
    by_contra hne
    rw [getElem?_marked hpos, if_neg (Ne.symm hne)] at hfirst
    rcases Nat.lt_or_ge c.place size with hplace | hplace
    · rw [getElem?_marked hplace, if_pos rfl] at hfirst
      cases hfirst
    · rw [List.getElem?_eq_none (by rw [hlength]; exact hplace)] at hfirst
      cases hfirst
  · refine Or.inr ⟨hpos, hnil ?_⟩
    rw [List.drop_eq_nil_of_le (by rw [hlength]; exact hpos), List.take_nil]

theorem exists_call_of_map {g : UInt8 → UInt8} {c : TransferCall}
    (h : (s.map g).calls[i]? = some c) : ∃ c', s.calls[i]? = some c' ∧ c'.map g = c := by
  rw [map, List.getElem?_map, Option.map_eq_some_iff] at h
  exact h

/-- The run of the calls on a file of zeros of the same length. -/
theorem exec_zeros (hsize : data.length = size) (pos : ℕ) (ranges : List (ℤ × ℤ))
    (acts : List (ℕ × TransferStep)) :
    exec (step (List.replicate size 0)) (start pos ranges) acts =
      (exec (step data) (start pos ranges) acts).map (map fun _ => 0) := by
  rw [← exec_map (step_map (fun _ => 0) data), start_map, List.map_const', hsize]

theorem guarded_zeros_iff (hsize : data.length = size) (pos : ℕ) (ranges : List (ℤ × ℤ))
    (acts : List (ℕ × TransferStep)) :
    Guarded (step (List.replicate size 0)) (OwnPlace size i) (start pos ranges) acts ↔
      Guarded (step data) (OwnPlace size i) (start pos ranges) acts := by
  rw [← guarded_map (step_map (fun _ => 0) data) fun _ _ => ownPlace_map _, start_map,
    List.map_const', hsize]

/-- The call with a number after a run, and the call it was at the start. -/
theorem right_of_exec {pos : ℕ} {ranges : List (ℤ × ℤ)} {acts : List (ℕ × TransferStep)}
    (hrun : exec (step data) (start pos ranges) acts = some s) {c : TransferCall}
    (hc : s.calls[i]? = some c) : (start pos ranges).Right data i := by
  have hlength : s.calls.length = ranges.length := by
    refine Run.invariant (fun s => s.calls.length = ranges.length) ?_ hrun (by simp [start])
    rintro s a s' hs hstep
    obtain ⟨c, pos', c', -, -, rfl⟩ := step_eq_some_iff.mp hstep
    rwa [List.length_set]
  exact right_start data pos (hlength ▸ (List.getElem?_eq_some_iff.mp hc).1)

/-- A call that reads is not done. -/
theorem remain_pos_of_read {pos : ℕ} {ranges : List (ℤ × ℤ)} {acts : List (ℕ × TransferStep)}
    (hrun : exec (step data) (start pos ranges) acts = some s) {c : TransferCall}
    (hc : s.calls[i]? = some c) {t : Transfer} {s' : SharedHandle}
    (hstep : s.step data (i, .read t) = some s') : 0 < c.remain := by
  have hinv : ∃ c, s.calls[i]? = some c ∧ (c.Failed ∨ c.Sound ∧ True) := by
    refine Run.invariant (fun s => ∃ c, s.calls[i]? = some c ∧ (c.Failed ∨ c.Sound ∧ True))
      (fun _ _ _ hs hstep => exists_call_step hs hstep fun _ _ _ => id) hrun ?_
    obtain ⟨c, hc, hcase⟩ := right_of_exec hrun hc
    exact ⟨c, hc, hcase.imp_right fun hs => ⟨hs.1, trivial⟩⟩
  obtain ⟨c₁, pos', c', hc₁, hcall, -⟩ := step_eq_some_iff.mp hstep
  obtain rfl := Option.some.inj (hc.symm.trans hc₁)
  obtain ⟨c₂, hc₂, hcase⟩ := hinv
  obtain rfl := Option.some.inj (hc.symm.trans hc₂)
  rcases hcase with ⟨e, he⟩ | ⟨hsound, -⟩
  · rw [TransferCall.step_of_done he] at hcall
    cases hcall
  · refine hsound.reading ?_
    cases hphase : c.phase with
    | reading => rfl
    | _ => simp [TransferCall.step, hphase] at hcall

end SharedHandle

section Transfers

open SharedHandle

/-- Concurrent transfers from one handle. Whatever the file contains, each writer whose call returns
without an error has received exactly the bytes of its range, if and only if every `Read` of these
calls finds the handle at the place where the call itself would have left it, or both are at the end
of the file. Which `Read`s do is the same for all files of one length. -/
theorem transfers_iff (size pos : ℕ) (ranges : List (ℤ × ℤ)) (acts : List (ℕ × TransferStep)) :
    (∀ data : Bytes, data.length = size →
      ∀ s, exec (SharedHandle.step data) (start pos ranges) acts = some s →
        ∀ c ∈ s.calls, c.phase = .done none → c.received = fileRange data c.off c.count) ↔
    ∀ s, exec (SharedHandle.step (List.replicate size 0)) (start pos ranges) acts = some s →
      ∀ i c, s.calls[i]? = some c → c.phase = .done none →
        Guarded (SharedHandle.step (List.replicate size 0)) (OwnPlace size i) (start pos ranges)
          acts := by
  constructor
  · intro h z hz i c hc hdone
    refine guarded_of_forall_append_cons fun acts₁ a acts₂ z₁ hacts hz₁ hi c₁ hc₁ limit hlimit => ?_
    -- the same run on a file that tells the place of this call from all others
    have hsize : (marked size c₁.place).length = size := by simp [marked]
    rw [exec_zeros hsize, Option.map_eq_some_iff] at hz hz₁
    obtain ⟨s, hrun, rfl⟩ := hz
    obtain ⟨s₁, hrun₁, rfl⟩ := hz₁
    obtain ⟨c', hc', rfl⟩ := exists_call_of_map hc
    obtain ⟨c₁', hc₁', rfl⟩ := exists_call_of_map hc₁
    have hdone' := TransferCall.phase_of_map_eq_done hdone
    have hown := (received_iff hrun (right_of_exec hrun hc') hc' hdone').mp
      (h _ hsize s hrun c' (List.mem_of_getElem? hc') hdone')
    rw [hacts] at hown
    rw [hacts, exec_append_eq_some_iff] at hrun
    obtain ⟨s₁', hrun₁', hrest⟩ := hrun
    obtain rfl := Option.some.inj (hrun₁.symm.trans hrun₁')
    obtain ⟨s₂, hstep, -⟩ := exec_cons_eq_some_iff.mp hrest
    obtain ⟨j, st⟩ := a
    obtain rfl : j = i := hi
    obtain rfl := TransferStep.eq_of_limit? hlimit
    have hread : s₁.OwnRead _ j (j, .read (.moved limit)) := guard_of_append_cons hown hrun₁
    exact eq_place_of_ownBytes (c := c₁') (remain_pos_of_read hrun₁ hc₁' hstep)
      (hread rfl c₁' hc₁')
  · intro h data hsize s hrun c hc hdone
    obtain ⟨i, hi⟩ := List.mem_iff_getElem?.mp hc
    have hzeros := exec_zeros hsize pos ranges acts
    rw [hrun, Option.map_some] at hzeros
    have hguarded := h _ hzeros i (c.map fun _ => 0) (by simp [SharedHandle.map, hi])
      (by simp [TransferCall.map, hdone, TransferPhase.map])
    rw [guarded_zeros_iff hsize] at hguarded
    refine (received_iff hrun (right_of_exec hrun hi) hi hdone).mpr ?_
    exact hguarded.mono fun s a hown => ownRead_of_ownPlace (hsize ▸ hown)

/-- Two calls for two bytes each: the second `Seek` comes before the first `Read`, so the first
writer gets the bytes of the second, and the second writer none. Both calls return without an
error. -/
theorem transfers_mix :
    exec (SharedHandle.step [1, 2, 3, 4]) (.start 0 [(0, 2), (2, 2)])
        [(0, .seek), (1, .seek), (0, .read (.moved 9)), (1, .read (.moved 9)),
          (0, .write 2 none)] =
      some ⟨4, [⟨0, 2, 2, 0, [3, 4], .done none⟩, ⟨2, 2, 0, 2, [], .done none⟩]⟩ ∧
    fileRange [1, 2, 3, 4] 0 2 = [1, 2] ∧ fileRange [1, 2, 3, 4] 2 2 = [3, 4] := by
  decide

end Transfers

end StreamFlow
