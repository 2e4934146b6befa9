import StreamFlow.Broker.Segment.Stores

/-!
# Reading a segment

`readRange_eq_mapM` frees `ReadRange` of its loop: it reads the first
`effectiveMax max` offsets from `fromOffset` on, in order, and fails with the
first error. Over a segment that stores a list of records this is a block of the
list (`Stores.readRange_eq`).
-/

namespace StreamFlow

open BigEndian ByteFile

/-- A traversal succeeds exactly when it succeeds at every element. -/
theorem mapM_eq_ok_iff {α β ε : Type*} {f : α → Except ε β} {l : List α} {l' : List β} :
    l.mapM f = .ok l' ↔ List.Forall₂ (fun a b => f a = .ok b) l l' := by
  constructor
  · intro h
    induction l generalizing l' with
    | nil =>
        obtain rfl : [] = l' := Except.ok.inj h
        exact .nil
    | cons a l ih =>
        rw [List.mapM_cons] at h
        cases ha : f a with
        | error e =>
            rw [ha] at h
            cases h
        | ok b =>
            rw [ha] at h
            cases hl : l.mapM f with
            | error e =>
                rw [hl] at h
                cases h
            | ok bs =>
                rw [hl] at h
                obtain rfl : b :: bs = l' := Except.ok.inj h
                exact .cons ha (ih hl)
  · intro h
    induction h with
    | nil => rfl
    | cons hab _ ih =>
        rw [List.mapM_cons, hab, ih]
        rfl

namespace Segment

variable {json : RecordJson} {fs : FileTree} {s : Segment} {base : ℤ}
  {stored : List (ℤ × Record)}

theorem readLoop_eq (max : ℤ) (keys : List ℤ) (result : List Record) :
    s.readLoop json fs max keys result =
      (keys.take (max - result.length).toNat).mapM (s.readByOffset json fs) >>= fun l =>
        .ok (result ++ l) := by
  induction keys generalizing result with
  | nil => simp [readLoop, pure, Except.pure, bind, Except.bind]
  | cons o keys ih =>
      rw [readLoop]
      by_cases hmax : max ≤ result.length
      · have hzero : (max - (result.length : ℤ)).toNat = 0 := by omega
        rw [if_pos hmax, hzero, List.take_zero]
        simp [pure, Except.pure, bind, Except.bind]
      · obtain ⟨k, hk⟩ : ∃ k, (max - (result.length : ℤ)).toNat = k + 1 :=
          ⟨(max - (result.length : ℤ)).toNat - 1, by omega⟩
        rw [if_neg hmax, hk, List.take_succ_cons, List.mapM_cons]
        cases ho : s.readByOffset json fs o with
        | error e => rfl
        | ok r =>
            have hk' : (max - ((result ++ [r]).length : ℤ)).toNat = k := by
              rw [List.length_append, List.length_singleton]
              push_cast
              omega
            change s.readLoop json fs max keys (result ++ [r]) = _
            rw [ih, hk']
            cases (keys.take k).mapM (s.readByOffset json fs) with
            | error e => rfl
            | ok l =>
                change Except.ok ((result ++ [r]) ++ l) = Except.ok (result ++ r :: l)
                rw [List.append_assoc, List.singleton_append]

/-- The loop of `ReadRange` reads the first keys, up to the maximum. -/
theorem readRange_eq_mapM (fromOffset max : ℤ) :
    s.readRange json fs fromOffset max =
      ((s.rangeKeys fromOffset).take (effectiveMax max).toNat).mapM (s.readByOffset json fs) := by
  rw [readRange, readLoop_eq, List.length_nil, Nat.cast_zero, sub_zero]
  cases ((s.rangeKeys fromOffset).take (effectiveMax max).toNat).mapM
    (s.readByOffset json fs) with
  | error e => rfl
  | ok l => rfl

theorem filter_le_range (n k : ℕ) :
    (List.range n).filter (fun i => decide (k ≤ i)) = (List.range n).drop k := by
  induction n with
  | zero => simp
  | succ n ih =>
      rw [List.range_succ, List.filter_append, ih]
      by_cases hk : k ≤ n
      · rw [List.drop_append_of_le_length (by simpa using hk)]
        simp [hk]
      · have hfilter : [n].filter (fun i => decide (k ≤ i)) = [] := by simp [hk]
        rw [hfilter, List.drop_eq_nil_of_le (by simp; omega),
          List.drop_eq_nil_of_le (by simp; omega), List.append_nil]

/-- The keys of a range are the stored offsets from there on. -/
theorem Stores.rangeKeys_eq (h : s.Stores json fs base stored) (fromOffset : ℤ) :
    s.rangeKeys fromOffset =
      ((entries base stored).map Prod.fst).drop (fromOffset - base).toNat := by
  have hkeys : s.offsets.keys = (entries base stored).map Prod.fst := by
    rw [← h.offsets, Std.ExtTreeMap.map_fst_toList_eq_keys]
  have hfilter : s.offsets.keys.filter (fun offset => decide (fromOffset ≤ offset)) =
      ((entries base stored).map Prod.fst).drop (fromOffset - base).toNat := by
    rw [hkeys, map_fst_entries, List.filter_map, ← List.map_drop, ← filter_le_range]
    congr 1
    apply List.filter_congr
    intro i _
    rw [Function.comp_apply, decide_eq_decide]
    omega
  rw [rangeKeys, List.Pairwise.insertionSort_eq, hfilter]
  refine List.Pairwise.imp ?_ (Std.ExtTreeMap.ordered_keys.filter _)
  intro a b hab
  exact le_of_compare_lt hab

/-- A stored record is decoded from the payload of its frame. -/
theorem Stores.readByOffset_eq (h : s.Stores json fs base stored) {f : Record → Record}
    (hjson : json.Decodes f) {i : ℕ} {e : ℤ × Record} (he : stored[i]? = some e) :
    s.readByOffset json fs (base + i) = .ok (f e.2) := by
  obtain ⟨payload, hm, hlen, -, -, hsize, hbody⟩ := h.frames e (List.mem_of_getElem? he)
  rw [readByOffset, h.getElem?_offsets he]
  dsimp only
  rw [hsize]
  dsimp only
  rw [uint32_putUint32 hlen, hbody]
  dsimp only
  rw [hjson e.2 payload hm]

/-- Offsets and records of a segment go together. -/
theorem Stores.forall₂_read (h : s.Stores json fs base stored) {f : Record → Record}
    (hjson : json.Decodes f) :
    List.Forall₂ (fun o r => s.readByOffset json fs o = .ok r)
      ((entries base stored).map Prod.fst) ((stored.map Prod.snd).map f) := by
  rw [List.forall₂_iff_get]
  refine ⟨by simp, ?_⟩
  intro i hi hi'
  have hlt : i < stored.length := by simpa using hi'
  have hget : stored[i]? = some stored[i] := List.getElem?_eq_getElem hlt
  have hkey : ((entries base stored).map Prod.fst).get ⟨i, hi⟩ = base + i := by
    simp [map_fst_entries]
  rw [hkey, h.readByOffset_eq hjson hget]
  simp

/-- Reading a range gives the block of stored records that starts there. -/
theorem Stores.readRange_eq (h : s.Stores json fs base stored) {f : Record → Record}
    (hjson : json.Decodes f) (fromOffset max : ℤ) :
    s.readRange json fs fromOffset max =
      .ok ((((stored.map Prod.snd).map f).drop (fromOffset - base).toNat).take
        (effectiveMax max).toNat) := by
  rw [readRange_eq_mapM, h.rangeKeys_eq]
  rw [mapM_eq_ok_iff]
  exact List.forall₂_take _ (List.forall₂_drop _ (h.forall₂_read hjson))

/-- The index of a segment is determined by its records. -/
theorem Stores.offsets_eq (h : s.Stores json fs base stored) {fs' : FileTree} {s' : Segment}
    (h' : s'.Stores json fs' base stored) : s'.offsets = s.offsets := by
  rw [← OrdMap.insertAll_empty_toList s'.offsets, h'.offsets, ← h.offsets,
    OrdMap.insertAll_empty_toList]

/-- Two logs with the same records hold the same frame at an index entry. -/
theorem Stores.exists_payload (h : s.Stores json fs base stored) {fs' : FileTree} {s' : Segment}
    (h' : s'.Stores json fs' base stored) {o pos : ℤ} (hpos : s.offsets[o]? = some pos) :
    ∃ payload : Bytes, payload.length < 2 ^ 32 ∧
      (slice (fs.contents s.logPath) pos 4 = some (putUint32 payload.length) ∧
        slice (fs.contents s.logPath) (pos + 4) payload.length = some payload) ∧
      slice (fs'.contents s'.logPath) pos 4 = some (putUint32 payload.length) ∧
        slice (fs'.contents s'.logPath) (pos + 4) payload.length = some payload := by
  obtain ⟨i, r, hi, -⟩ := h.getElem?_offsets_iff.mp hpos
  obtain ⟨payload, hm, hlen, -, -, hframe⟩ := h.frames _ (List.mem_of_getElem? hi)
  obtain ⟨payload', hm', -, -, -, hframe'⟩ := h'.frames _ (List.mem_of_getElem? hi)
  obtain rfl := Option.some.inj (hm.symm.trans hm')
  exact ⟨payload, hlen, hframe, hframe'⟩

/-- Two segments with the same records cannot be told apart by reading, whatever the codec
does. -/
theorem Stores.readRange_congr (h : s.Stores json fs base stored) {fs' : FileTree} {s' : Segment}
    (h' : s'.Stores json fs' base stored) (fromOffset max : ℤ) :
    s'.readRange json fs' fromOffset max = s.readRange json fs fromOffset max := by
  have hoffsets := h.offsets_eq h'
  have hread : s'.readByOffset json fs' = s.readByOffset json fs := by
    funext o
    unfold readByOffset
    rw [hoffsets]
    cases hpos : s.offsets[o]? with
    | none => rfl
    | some pos =>
        obtain ⟨payload, hlen, ⟨hsize, hbody⟩, hsize', hbody'⟩ := h.exists_payload h' hpos
        dsimp only
        rw [hsize, hsize']
        dsimp only
        rw [uint32_putUint32 hlen, hbody, hbody']
  rw [readRange_eq_mapM, readRange_eq_mapM, hread, rangeKeys, hoffsets, ← rangeKeys]

end Segment

end StreamFlow
