import StreamFlow.Raft.CompactCrash

/-!
# Truncated entry streams

`unmarshalEntries` returns no entry and no error when the data ends within an entry, also if
whole entries come before. `unmarshalEntries_eq` says what it returns for any data, in terms
of the frames that can be read from it. For the output of `marshalEntries` cut at some byte
this decides whether the whole entries of the rest are returned, and with them whether
`Compact` keeps those above its index.
-/

namespace StreamFlow.Raft

open BigEndian Frame

/-- The entries whose encodings are whole among the first `n` bytes of what `marshalEntries`
returns. -/
def wholeEntries (codec : EntryCodec) : List Entry → ℕ → List Entry
  | [], _ => []
  | e :: ents, n =>
      match codec.marshal e with
      | none => []
      | some b =>
          if 4 + b.length ≤ n then e :: wholeEntries codec ents (n - (4 + b.length)) else []

/-- `unmarshalEntries` returns an error or exactly these entries. -/
def ReadsWhole (codec : EntryCodec) (whole : List Entry) (data : Bytes) : Prop :=
  (∃ e, unmarshalEntries codec data = .error e) ∨ unmarshalEntries codec data = .ok whole

/-- `Compact` fails and leaves the directory as it is, or what it writes holds the entries above
its index. -/
def CompactKeeps (codec : EntryCodec) (whole : List Entry) (dir : Directory) (k : ℕ) : Prop :=
  match compact codec .ok dir k with
  | (dir', .ok ()) =>
      ∃ kept data, marshalEntries codec kept = .ok data ∧ walLog dir' = frame data ∧
        ∀ e ∈ whole, k < e.index → e ∈ kept
  | (dir', .error _) => dir' = dir

/-- The entries are not lost when the data is read, by itself or as a log that is compacted. -/
def NotLost (codec : EntryCodec) (whole : List Entry) (data : Bytes) : Prop :=
  ReadsWhole codec whole data ∧
    ∀ dir k, readWAL true dir 0 = .ok data → CompactKeeps codec whole dir k

variable {codec : EntryCodec} {ents : List Entry} {bs : List Bytes} {data t : Bytes}

theorem unmarshalLoop_eq {n : ℕ} (hn : data.length ≤ n) (acc : List Entry) :
    unmarshalLoop codec n data acc =
      match (split data).1.mapM codec.unmarshal with
      | none => .error .unmarshal
      | some ents => .ok (if (split data).2 = [] then acc ++ ents else []) := by
  induction n generalizing data acc with
  | zero =>
      obtain rfl := List.length_eq_zero_iff.mp (Nat.le_zero.mp hn)
      simp [unmarshalLoop]
  | succ n ih =>
      rw [unmarshalLoop]
      split
      · next hnil => simp [hnil]
      · next hne =>
          cases hread : read data with
          | none => simp [split_of_read_none hread, hne]
          | some found =>
              obtain ⟨b, rest⟩ := found
              have hlen := length_of_read hread
              rw [split_of_read hread, List.mapM_cons]
              dsimp only
              cases codec.unmarshal b with
              | none => rfl
              | some e =>
                  dsimp only
                  rw [ih (by omega)]
                  cases (split rest).1.mapM codec.unmarshal with
                  | none => rfl
                  | some ents => simp

/-- The frames that can be read are decoded, and the entries count only if nothing is left. -/
theorem unmarshalEntries_eq (codec : EntryCodec) (data : Bytes) :
    unmarshalEntries codec data =
      match (split data).1.mapM codec.unmarshal with
      | none => .error .unmarshal
      | some ents => .ok (if (split data).2 = [] then ents else []) :=
  unmarshalLoop_eq le_rfl []

theorem readsWhole_iff {whole : List Entry} (hwhole : whole ≠ []) :
    ReadsWhole codec whole data ↔
      (split data).1.mapM codec.unmarshal = none ∨
        (split data).2 = [] ∧ (split data).1.mapM codec.unmarshal = some whole := by
  rw [ReadsWhole, unmarshalEntries_eq]
  cases (split data).1.mapM codec.unmarshal with
  | none => simp
  | some ents =>
      by_cases hrest : (split data).2 = []
      · simp [hrest]
      · simp [hrest, hwhole.symm]

/-- Entries that are returned are not lost by `Compact`. -/
theorem ReadsWhole.compactKeeps {whole : List Entry} (h : ReadsWhole codec whole data)
    {dir : Directory} (hdir : readWAL true dir 0 = .ok data) (k : ℕ) :
    CompactKeeps codec whole dir k := by
  unfold CompactKeeps
  cases hcompact : compactData codec true dir k with
  | error e => rw [compact_of_error codec dir hcompact]
  | ok b =>
      have hlog := walLog_compact codec dir hcompact
      rw [compact_ok codec dir hcompact] at hlog ⊢
      rw [compactData, hdir] at hcompact
      change (unmarshalEntries codec data >>= fun ents =>
        marshalEntries codec (keepEntries k ents)) = .ok b at hcompact
      rcases h with ⟨e, he⟩ | hents
      · rw [he] at hcompact
        cases hcompact
      · rw [hents] at hcompact
        exact ⟨_, b, hcompact, hlog, fun e he hk => mem_keepEntries he hk⟩

theorem notLost_iff {whole : List Entry} :
    NotLost codec whole data ↔ ReadsWhole codec whole data :=
  and_iff_left_of_imp fun h _ k hdir => h.compactKeeps hdir k

theorem wholeEntries_eq_take (hbs : Encodings codec ents bs) (n : ℕ) :
    wholeEntries codec ents n = ents.take (wholeFrames bs n) := by
  induction hbs generalizing n with
  | nil => rfl
  | @cons e b ents bs hb _ ih =>
      rw [wholeEntries, hb, wholeFrames]
      dsimp only
      split
      · rw [ih, List.take_succ_cons]
      · rfl

theorem mapM_unmarshal (hcodec : codec.Faithful) (hbs : Encodings codec ents bs) :
    bs.mapM codec.unmarshal = some ents := by
  induction hbs with
  | nil => rfl
  | cons hb _ ih =>
      rw [List.mapM_cons, hcodec _ _ hb, ih]
      rfl

/-- If all lengths fit into their headers, the whole entries are returned if and only if the
stream is cut between two entries. -/
theorem readsWhole_iff_of_short (hcodec : codec.Faithful) (hbs : Encodings codec ents bs)
    (hshort : ∀ b ∈ bs, b.length < 2 ^ 32) (ht : t <+: frames bs) (hne : t ≠ frames bs)
    (hwhole : wholeEntries codec ents t.length ≠ []) :
    ReadsWhole codec (wholeEntries codec ents t.length) t ↔
      marshalEntries codec (wholeEntries codec ents t.length) = .ok t := by
  obtain ⟨p, hp, rest, heq, hrest, hlen⟩ := exists_eq_of_prefix_frames ht hne
  have htake : Encodings codec (wholeEntries codec ents t.length)
      (bs.take (wholeFrames bs t.length)) := by
    rw [wholeEntries_eq_take hbs]
    exact List.forall₂_take _ hbs
  have hsplit : split t = (bs.take (wholeFrames bs t.length), rest) := by
    have htorn := read_of_prefix (hshort p hp) hrest hlen
    nth_rewrite 1 [heq]
    exact split_frames_append (fun b hb => hshort b (List.mem_of_mem_take hb)) htorn
  rw [readsWhole_iff hwhole, hsplit, mapM_unmarshal hcodec htake, marshalEntries_eq_ok_iff]
  simp only [reduceCtorEq, false_or, and_true]
  constructor
  · intro hnil
    refine ⟨_, htake, ?_⟩
    rwa [hnil, List.append_nil] at heq
  · rintro ⟨bs', hbs', hframes⟩
    rw [← htake.unique hbs'] at hframes
    exact List.append_right_eq_self.mp (heq.symm.trans hframes)

/-- The whole entries of a truncated stream are not lost if and only if a frame cannot be decoded,
or nothing is left behind the frames and they hold these entries. Where every length fits into
its header, this is the case exactly for a stream that is cut between two entries. -/
theorem truncated_notLost_iff (codec : EntryCodec) (hcodec : codec.Faithful)
    (hdata : marshalEntries codec ents = .ok data) (ht : t <+: data) (hne : t ≠ data)
    (hwhole : wholeEntries codec ents t.length ≠ []) :
    (NotLost codec (wholeEntries codec ents t.length) t ↔
      (split t).1.mapM codec.unmarshal = none ∨ (split t).2 = [] ∧
        (split t).1.mapM codec.unmarshal = some (wholeEntries codec ents t.length)) ∧
    ((∀ e ∈ ents, ∀ b, codec.marshal e = some b → b.length < 2 ^ 32) →
      (NotLost codec (wholeEntries codec ents t.length) t ↔
        marshalEntries codec (wholeEntries codec ents t.length) = .ok t)) := by
  obtain ⟨bs, hbs, rfl⟩ := marshalEntries_eq_ok_iff.mp hdata
  refine ⟨notLost_iff.trans (readsWhole_iff hwhole), fun hshort => notLost_iff.trans ?_⟩
  refine readsWhole_iff_of_short hcodec hbs (fun b hb => ?_) ht hne hwhole
  obtain ⟨e, he, hmarshal⟩ := hbs.exists_of_mem hb
  exact hshort e he b hmarshal

/-- Two entries, of which the second is cut off. -/
theorem truncated_notLost_sample :
    marshalEntries sampleCodec [sampleEntry 1, sampleEntry 2] =
        .ok (frames [[8, 0, 16, 1, 24, 1], [8, 0, 16, 1, 24, 2]]) ∧
      wholeEntries sampleCodec [sampleEntry 1, sampleEntry 2] 10 = [sampleEntry 1] ∧
      NotLost sampleCodec [sampleEntry 1] (frame [8, 0, 16, 1, 24, 1]) := by
  have hdata : marshalEntries sampleCodec [sampleEntry 1, sampleEntry 2] =
      .ok (frames [[8, 0, 16, 1, 24, 1], [8, 0, 16, 1, 24, 2]]) := eq_ok_of_toOption (by decide)
  have hsplit : (split (frame [8, 0, 16, 1, 24, 1])).2 = [] ∧
      (split (frame [8, 0, 16, 1, 24, 1])).1.mapM sampleCodec.unmarshal = some [sampleEntry 1] := by
    decide
  exact ⟨hdata, by decide, (truncated_notLost_iff sampleCodec sampleCodec_faithful hdata
    (by decide) (by decide) (by decide)).1.mpr (.inr hsplit)⟩

/-- One byte of the second entry is enough to lose the first, and `Compact` empties the log. -/
theorem not_notLost_of_one_byte :
    marshalEntries sampleCodec [sampleEntry 1, sampleEntry 2] =
        .ok (frames [[8, 0, 16, 1, 24, 1], [8, 0, 16, 1, 24, 2]]) ∧
      frame [8, 0, 16, 1, 24, 1] ++ [0] <+:
        frames [[8, 0, 16, 1, 24, 1], [8, 0, 16, 1, 24, 2]] ∧
      wholeEntries sampleCodec [sampleEntry 1, sampleEntry 2] 11 = [sampleEntry 1] ∧
      unmarshalEntries sampleCodec (frame [8, 0, 16, 1, 24, 1] ++ [0]) = .ok [] ∧
      walLog (compact sampleCodec .ok
        (appendWAL .ok ∅ (frame [8, 0, 16, 1, 24, 1] ++ [0])).1 0).1 = frame [] ∧
      ¬ NotLost sampleCodec [sampleEntry 1] (frame [8, 0, 16, 1, 24, 1] ++ [0]) := by
  have hempty : unmarshalEntries sampleCodec (frame [8, 0, 16, 1, 24, 1] ++ [0]) = .ok [] :=
    eq_ok_of_toOption (by decide)
  refine ⟨eq_ok_of_toOption (by decide), by decide, by decide, hempty, by decide +kernel, ?_⟩
  rintro ⟨⟨e, he⟩ | hents, -⟩
  · rw [hempty] at he
    cases he
  · rw [hempty] at hents
    cases hents

end StreamFlow.Raft
