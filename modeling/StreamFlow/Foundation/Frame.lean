import StreamFlow.Foundation.BigEndian

/-!
# Length-prefixed frames

A frame is a payload behind its length in four big-endian bytes. `read` takes one
whole frame off a byte stream, and `split` takes off all of them and leaves the
rest, which may be the beginning of a further frame. The length is written modulo
`2 ^ 32`, so only shorter payloads are read back.
-/

namespace Frame

open BigEndian

def header (n : ℕ) : Bytes := encode 4 n

def frame (payload : Bytes) : Bytes := header payload.length ++ payload

/-- The frames of a list of payloads, one behind the other. -/
def frames (payloads : List Bytes) : Bytes := (payloads.map frame).flatten

/-- Take one frame off, if it is there as a whole. -/
def read (b : Bytes) : Option (Bytes × Bytes) :=
  if b.length < 4 then none
  else if (b.drop 4).length < decode (b.take 4) then none
  else some ((b.drop 4).take (decode (b.take 4)), (b.drop 4).drop (decode (b.take 4)))

/-- Take off at most `n` frames. -/
def splitAtMost : ℕ → Bytes → List Bytes × Bytes
  | 0, b => ([], b)
  | n + 1, b =>
      match read b with
      | none => ([], b)
      | some (payload, rest) =>
          (payload :: (splitAtMost n rest).1, (splitAtMost n rest).2)

/-- The whole frames of a stream, and what is left. -/
def split (b : Bytes) : List Bytes × Bytes := splitAtMost b.length b

@[simp] theorem frames_nil : frames [] = [] := rfl

theorem frames_cons (p : Bytes) (ps : List Bytes) : frames (p :: ps) = frame p ++ frames ps := rfl

@[simp] theorem frames_append (ps qs : List Bytes) :
    frames (ps ++ qs) = frames ps ++ frames qs := by
  rw [frames, List.map_append, List.flatten_append]
  rfl

@[simp] theorem frames_singleton (p : Bytes) : frames [p] = frame p := by
  rw [frames_cons, frames_nil, List.append_nil]

@[simp] theorem length_header (n : ℕ) : (header n).length = 4 := length_encode 4 n

theorem length_le_length_frames {p : Bytes} {ps : List Bytes} (h : p ∈ ps) :
    p.length ≤ (frames ps).length := by
  have hframe : p.length ≤ (frame p).length := by
    rw [frame, List.length_append]
    omega
  exact hframe.trans ((List.sublist_flatten_of_mem (List.mem_map_of_mem h)).length_le)

theorem length_frame (p : Bytes) : (frame p).length = 4 + p.length := by
  rw [frame, List.length_append, length_header]

theorem length_frames (ps : List Bytes) :
    (frames ps).length = (ps.map fun p => 4 + p.length).sum := by
  rw [frames, List.length_flatten, List.map_map]
  exact congrArg List.sum (List.map_congr_left fun p _ => length_frame p)

theorem decode_header {n : ℕ} (h : n < 2 ^ 32) : decode (header n) = n :=
  decode_encode_of_lt (by norm_num at h ⊢; exact h)

@[simp] theorem read_nil : read [] = none := rfl

theorem read_frame_append {p : Bytes} (h : p.length < 2 ^ 32) (b : Bytes) :
    read (frame p ++ b) = some (p, b) := by
  have htake : (frame p ++ b).take 4 = header p.length := by
    rw [frame, List.append_assoc, List.take_left' (length_header _)]
  have hdrop : (frame p ++ b).drop 4 = p ++ b := by
    rw [frame, List.append_assoc, List.drop_left' (length_header _)]
  unfold read
  rw [htake, hdrop, decode_header h, List.take_left, List.drop_left, if_neg, if_neg]
  · rw [List.length_append]
    omega
  · rw [frame, List.length_append, List.length_append, length_header]
    omega

/-- The beginning of a frame is not read as a frame. -/
theorem read_of_prefix {b p : Bytes} (hp : p.length < 2 ^ 32) (hb : b <+: frame p)
    (hlen : b.length < (frame p).length) : read b = none := by
  rw [frame, List.length_append, length_header] at hlen
  unfold read
  split
  · rfl
  · next hfour =>
      have htake : b.take 4 = header p.length := by
        obtain ⟨rest, hrest⟩ := hb
        have h := congrArg (List.take 4) hrest
        rwa [List.take_append_of_le_length (by omega), frame,
          List.take_left' (length_header _)] at h
      rw [htake, decode_header hp, if_pos]
      rw [List.length_drop]
      omega

/-- A frame that was read is gone from the stream. -/
theorem length_of_read {b p rest : Bytes} (h : read b = some (p, rest)) :
    b.length = 4 + p.length + rest.length := by
  unfold read at h
  split at h
  · cases h
  · split at h
    · cases h
    · obtain ⟨rfl, rfl⟩ := Prod.mk.inj (Option.some.inj h)
      simp only [List.length_take, List.length_drop] at *
      omega

theorem drop_of_read {b p rest : Bytes} (h : read b = some (p, rest)) :
    rest = b.drop (4 + p.length) := by
  unfold read at h
  split at h
  · cases h
  · split at h
    · cases h
    · next hlen =>
        obtain ⟨rfl, rfl⟩ := Prod.mk.inj (Option.some.inj h)
        rw [List.length_take_of_le (not_lt.mp hlen), List.drop_drop]

/-- As every frame has a header, a stream holds fewer frames than bytes. -/
theorem splitAtMost_eq_split {n : ℕ} {b : Bytes} (h : b.length ≤ n) :
    splitAtMost n b = split b := by
  have hmore : ∀ m b, b.length ≤ m → splitAtMost (m + 1) b = splitAtMost m b := by
    intro m
    induction m with
    | zero =>
        intro b hb
        obtain rfl := List.length_eq_zero_iff.mp (Nat.le_zero.mp hb)
        rfl
    | succ m ih =>
        intro b hb
        rw [splitAtMost, splitAtMost]
        cases hread : read b with
        | none => rfl
        | some found =>
            obtain ⟨p, rest⟩ := found
            have hlen := length_of_read hread
            dsimp only
            rw [ih rest (by omega)]
  induction n, h using Nat.le_induction with
  | base => rfl
  | succ n hn ih => rw [hmore n b hn, ih]

theorem split_of_read_none {b : Bytes} (h : read b = none) : split b = ([], b) := by
  unfold split
  cases b.length with
  | zero => rfl
  | succ n => rw [splitAtMost, h]

@[simp] theorem split_nil : split [] = ([], []) := rfl

theorem split_of_read {b p rest : Bytes} (h : read b = some (p, rest)) :
    split b = (p :: (split rest).1, (split rest).2) := by
  have hlen := length_of_read h
  obtain ⟨n, hn⟩ : ∃ n, b.length = n + 1 := ⟨b.length - 1, by omega⟩
  rw [split, hn, splitAtMost, h]
  dsimp only
  rw [splitAtMost_eq_split (by omega)]

/-- Whole frames are read back, whatever incomplete frame follows them. -/
theorem split_frames_append {ps : List Bytes} (hps : ∀ p ∈ ps, p.length < 2 ^ 32) {t : Bytes}
    (ht : read t = none) : split (frames ps ++ t) = (ps, t) := by
  induction ps with
  | nil => exact split_of_read_none ht
  | cons p ps ih =>
      have hread := read_frame_append (hps p List.mem_cons_self) (frames ps ++ t)
      rw [← List.append_assoc, ← frames_cons] at hread
      rw [split_of_read hread, ih fun q hq => hps q (List.mem_cons_of_mem p hq)]

theorem split_frames {ps : List Bytes} (hps : ∀ p ∈ ps, p.length < 2 ^ 32) :
    split (frames ps) = (ps, []) := by
  have h := split_frames_append hps read_nil
  rwa [List.append_nil] at h

/-! ### Exact lengths -/

/-- The payload stands behind four bytes that hold its length. -/
def Exact (payload f : Bytes) : Prop :=
  ∃ h : Bytes, h.length = 4 ∧ decode h = payload.length ∧ f = h ++ payload

/-- Payloads one behind the other, each with its length. -/
def ExactStream : List Bytes → Bytes → Prop
  | [], data => data = []
  | p :: ps, data => ∃ f rest, Exact p f ∧ ExactStream ps rest ∧ data = f ++ rest

/-- The header of a frame is exact if and only if the length fits into it. -/
theorem exact_frame_iff {p : Bytes} : Exact p (frame p) ↔ p.length < 2 ^ 32 := by
  constructor
  · rintro ⟨h, hlen, hdecode, hframe⟩
    obtain ⟨hheader, -⟩ := List.append_inj hframe ((length_header _).trans hlen.symm)
    rw [← hheader, header, decode_encode] at hdecode
    rw [← hdecode]
    exact Nat.mod_lt _ (by norm_num)
  · intro hp
    exact ⟨header p.length, length_header _, decode_header hp, rfl⟩

theorem Exact.read {p f : Bytes} (h : Exact p f) : read f = some (p, []) := by
  obtain ⟨h, hlen, hdecode, rfl⟩ := h
  have hfour : ¬ (h ++ p).length < 4 := by
    rw [List.length_append]
    omega
  rw [Frame.read, if_neg hfour, List.drop_left' hlen, List.take_left' hlen, hdecode,
    if_neg (lt_irrefl _), List.take_length, List.drop_length]

theorem exactStream_frames_iff {ps : List Bytes} :
    ExactStream ps (frames ps) ↔ ∀ p ∈ ps, p.length < 2 ^ 32 := by
  induction ps with
  | nil => simp [ExactStream]
  | cons p ps ih =>
      rw [List.forall_mem_cons, ← exact_frame_iff, ← ih, ExactStream, frames_cons]
      constructor
      · rintro ⟨f, rest, hf, hrest, heq⟩
        have hlen : (frame p).length = f.length := by
          obtain ⟨h, hfour, -, rfl⟩ := hf
          rw [length_frame, List.length_append, hfour]
        obtain ⟨rfl, rfl⟩ := List.append_inj heq hlen
        exact ⟨hf, hrest⟩
      · rintro ⟨hf, hrest⟩
        exact ⟨_, _, hf, hrest, rfl⟩

/-! ### Cut streams -/

/-- The number of frames that are whole among the first `n` bytes of a stream. -/
def wholeFrames : List Bytes → ℕ → ℕ
  | [], _ => 0
  | p :: ps, n => if 4 + p.length ≤ n then wholeFrames ps (n - (4 + p.length)) + 1 else 0

/-- A cut stream consists of whole frames and the beginning of a further one. -/
theorem exists_eq_of_prefix_frames {ps : List Bytes} {t : Bytes} (ht : t <+: frames ps)
    (hne : t ≠ frames ps) :
    ∃ p ∈ ps, ∃ rest, t = frames (ps.take (wholeFrames ps t.length)) ++ rest ∧
      rest <+: frame p ∧ rest.length < (frame p).length := by
  induction ps generalizing t with
  | nil => exact absurd (List.prefix_nil.mp ht) hne
  | cons p ps ih =>
      rw [frames_cons] at ht hne
      rw [wholeFrames]
      split
      · next hlen =>
          obtain ⟨t', rfl⟩ : frame p <+: t := by
            refine List.prefix_of_prefix_length_le (List.prefix_append _ _) ht ?_
            rwa [length_frame]
          have ht' : t' <+: frames ps := (List.prefix_append_right_inj _).mp ht
          obtain ⟨q, hq, rest, heq, hrest⟩ := ih ht' fun h => hne (by rw [h])
          refine ⟨q, List.mem_cons_of_mem p hq, rest, ?_, hrest⟩
          rw [List.length_append, length_frame, Nat.add_sub_cancel_left, List.take_succ_cons,
            frames_cons, List.append_assoc, ← heq]
      · next hlen =>
          have hshort : t.length < (frame p).length := by
            rw [length_frame]
            omega
          refine ⟨p, List.mem_cons_self, t, rfl, ?_, hshort⟩
          exact List.prefix_of_prefix_length_le ht (List.prefix_append _ _) hshort.le

end Frame
