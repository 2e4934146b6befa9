import StreamFlow.Raft.Snapshots

/-!
# The newest snapshot

Which snapshot is the newest is decided by names in three places: among the files, among the keys
of the offloader, and when old files are removed. If the clock readings increase and have the same
number of digits, the names are ordered like the times. `Recorded` ties the files and the objects
to the snapshots that were saved; with it, `loadSnapshot_returns_latest` follows from the steps of
`Snapshots.lean`.
-/

namespace StreamFlow.Raft

open BigEndian Decimal Run SnapshotStore

variable {ω : Type}

/-- An offloader that stores, lists and returns objects faithfully; `objects` says what it
stores. It may report an error instead of an empty list. -/
structure Offloader.Faithful (o : Offloader ω) (objects : ω → OrdMap String Bytes) : Prop where
  upload : ∀ r key data, objects (o.upload r key data) = (objects r).insert key data
  download : ∀ r key, o.download r key = (objects r)[key]?
  list : ∀ r start key, key ∈ (o.list r start).getD [] ↔
    ((objects r)[key]?).isSome = true ∧ start.toList.isPrefixOf key.toList = true

theorem localOffloader_faithful : localOffloader.Faithful fun bucket => bucket.getD ∅ where
  upload _ _ _ := rfl
  download bucket key := by
    cases bucket with
    | none => simp [localOffloader]
    | some dir => rfl
  list bucket start key := by
    cases bucket with
    | none => simp [localOffloader]
    | some dir =>
        have hmem : key ∈ dir.toList.map Prod.fst ↔ (dir[key]?).isSome = true := by
          rw [Option.isSome_iff_exists, List.mem_map]
          constructor
          · rintro ⟨⟨_, data⟩, hentry, rfl⟩
            exact ⟨data, (OrdMap.mem_toList_iff dir).mp hentry⟩
          · rintro ⟨data, hdata⟩
            exact ⟨(key, data), (OrdMap.mem_toList_iff dir).mpr hdata, rfl⟩
        exact List.mem_filter.trans (and_congr_left fun _ => hmem)

/-- The file of a snapshot. -/
def snapshotFile (e : ℕ × Bytes) : String × Bytes := (snapshotName e.1, e.2)

theorem snapshotName_lt {a b : ℕ} (h : a < b)
    (hdigits : (toString a).length = (toString b).length) : snapshotName a < snapshotName b :=
  compare_eq_lt_iff.mp (compare_append_toString "snapshot." ".snap" hdigits h)

theorem isPrefixOf_snapshotName (ts : ℕ) :
    "snapshot.".toList.isPrefixOf (snapshotName ts).toList = true :=
  (Bool.and_eq_true_iff.mp (isSnapshotName_snapshotName ts)).2

/-- The loop over the keys finds the greatest. -/
theorem foldl_greatest {keys : List String} {m : String} (hkeys : ∀ k ∈ keys, k = m ∨ k < m)
    (latest : String) (hlatest : latest = m ∨ latest < m ∧ m ∈ keys) :
    keys.foldl (fun latest k => if latest < k then k else latest) latest = m := by
  induction keys generalizing latest with
  | nil => simpa using hlatest
  | cons k keys ih =>
      have hrest : ∀ k' ∈ keys, k' = m ∨ k' < m :=
        fun k' hk' => hkeys k' (List.mem_cons_of_mem k hk')
      rw [List.foldl_cons]
      rcases hkeys k List.mem_cons_self with rfl | hk
      · refine ih hrest _ (Or.inl ?_)
        rcases hlatest with rfl | ⟨hlt, -⟩
        · exact if_neg (lt_irrefl latest)
        · exact if_pos hlt
      · rcases hlatest with rfl | ⟨hlt, hmem⟩
        · refine ih hrest _ (Or.inl ?_)
          exact if_neg (lt_asymm hk)
        · have hmem : m ∈ keys := (List.mem_cons.mp hmem).resolve_left hk.ne'
          refine ih hrest _ (Or.inr ⟨?_, hmem⟩)
          split
          · exact hk
          · exact hlt

theorem latestKey_eq {keys : List String} {m : String} (hmem : m ∈ keys)
    (hkeys : ∀ k ∈ keys, k = m ∨ k < m) : latestKey keys = some m := by
  cases keys with
  | nil => cases hmem
  | cons k keys =>
      refine congrArg some (foldl_greatest hkeys k ?_)
      rcases hkeys k List.mem_cons_self with heq | hlt
      · exact Or.inl heq
      · exact Or.inr ⟨hlt, hmem⟩

namespace SnapshotRun

/-- No failures, clock readings that increase and have the same number of digits, and at least
one snapshot kept. -/
def Admissible (s : SnapshotRun ω) : SnapshotOp → Prop
  | .save io now _ => io = .ok ∧
      ∀ e ∈ s.history, e.1 < now ∧ (toString e.1).length = (toString now).length
  | .load io => io = .ok
  | .purge keep => 0 < keep
  | .deleteLocal => True

instance (s : SnapshotRun ω) : ∀ op, Decidable (s.Admissible op)
  | .save io _ _ => inferInstanceAs (Decidable (io = SaveIO.ok ∧ ∀ e ∈ s.history, _ ∧ _))
  | .load io => inferInstanceAs (Decidable (io = LoadIO.ok))
  | .purge keep => inferInstanceAs (Decidable (0 < keep))
  | .deleteLocal => inferInstanceAs (Decidable True)

/-- The files and the objects are snapshots that were saved, and the offloader has the latest. -/
structure Recorded (off : Option (Offloader ω)) (objects : ω → OrdMap String Bytes)
    (s : SnapshotRun ω) : Prop where
  times : s.history.Pairwise fun a b =>
    b.1 < a.1 ∧ (toString b.1).length = (toString a.1).length
  files : ∀ e ∈ localSnapshots s.store.dir, ∃ h ∈ s.history, snapshotFile h = e
  stored : off.isSome = true → ∀ (key : String) (data : Bytes),
    (objects s.store.remote)[key]? = some data →
    "snapshot.".toList.isPrefixOf key.toList = true → ∃ h ∈ s.history, snapshotFile h = (key, data)
  uploaded : off.isSome = true → ∀ h ∈ s.history.head?,
    (objects s.store.remote)[snapshotName h.1]? = some h.2

variable {off : Option (Offloader ω)} {objects : ω → OrdMap String Bytes}
  {s s' : SnapshotRun ω} {op : SnapshotOp}

namespace Recorded

/-- Every snapshot has a name below that of the latest. -/
theorem name_le (hs : s.Recorded off objects) {h h' : ℕ × Bytes} (hlast : s.history.head? = some h)
    (hmem : h' ∈ s.history) : snapshotName h'.1 = snapshotName h.1 ∨
      snapshotName h'.1 < snapshotName h.1 := by
  obtain ⟨rest, hrest⟩ := List.head?_eq_some_iff.mp hlast
  have htimes := hs.times
  rw [hrest] at hmem htimes
  rcases List.mem_cons.mp hmem with rfl | hmem
  · exact Or.inl rfl
  · obtain ⟨hlt, hdigits⟩ := (List.pairwise_cons.mp htimes).1 h' hmem
    exact Or.inr (snapshotName_lt hlt hdigits)

theorem eq_of_name_eq (hs : s.Recorded off objects) {h h' : ℕ × Bytes} (hmem : h ∈ s.history)
    (hmem' : h' ∈ s.history) (hname : snapshotName h.1 = snapshotName h'.1) : h = h' := by
  have hnodup : (s.history.map fun e => snapshotName e.1).Nodup :=
    List.pairwise_map.mpr (hs.times.imp fun hab => (snapshotName_lt hab.1 hab.2).ne')
  exact List.inj_on_of_nodup_map hnodup hmem hmem' hname

/-- The offloader returns the latest snapshot. -/
theorem fetch_eq (hs : s.Recorded off objects) (hoff : ∀ o ∈ off, o.Faithful objects)
    (hsome : off.isSome = true) : fetch off s.store.remote = s.history.head?.map snapshotFile := by
  obtain ⟨o, rfl⟩ := Option.isSome_iff_exists.mp hsome
  have ho := hoff o rfl
  have hkeys : ∀ key ∈ (o.list s.store.remote "snapshot.").getD [],
      ∃ h ∈ s.history, snapshotName h.1 = key := by
    intro key hkey
    obtain ⟨hin, hstart⟩ := (ho.list _ _ _).mp hkey
    obtain ⟨data, hdata⟩ := Option.isSome_iff_exists.mp hin
    obtain ⟨h, hmem, hfile⟩ := hs.stored rfl key data hdata hstart
    exact ⟨h, hmem, congrArg Prod.fst hfile⟩
  rw [fetch_some]
  cases hlast : s.history.head? with
  | none =>
      have hnil : (o.list s.store.remote "snapshot.").getD [] = [] := by
        refine List.eq_nil_iff_forall_not_mem.mpr fun key hkey => ?_
        obtain ⟨h, hmem, -⟩ := hkeys key hkey
        rw [List.head?_eq_none_iff.mp hlast] at hmem
        cases hmem
      rw [hnil]
      rfl
  | some h =>
      have hobj := hs.uploaded rfl h hlast
      have hmem : snapshotName h.1 ∈ (o.list s.store.remote "snapshot.").getD [] :=
        (ho.list _ _ _).mpr ⟨by rw [hobj]; rfl, isPrefixOf_snapshotName h.1⟩
      have hgreatest : ∀ key ∈ (o.list s.store.remote "snapshot.").getD [],
          key = snapshotName h.1 ∨ key < snapshotName h.1 := by
        intro key hkey
        obtain ⟨h', hmem', rfl⟩ := hkeys key hkey
        exact hs.name_le hlast hmem'
      rw [latestKey_eq hmem hgreatest, Option.bind_some, ho.download, hobj]
      rfl

theorem keeps (hs : s.Recorded off objects) (hoff : ∀ o ∈ off, o.Faithful objects)
    (hop : s.Admissible op) (hstep : s.step off op = some s') : s.Keeps off op := by
  cases op with
  | save io now content =>
      obtain ⟨rfl, hclock⟩ := hop
      intro _
      rw [ SaveIO.ok, if_pos rfl]
      intro e he hlt
      -- every file is older than the one that is saved
      obtain ⟨hget, hname⟩ := getElem?_of_newestSnapshot he
      obtain ⟨h, hmem, rfl⟩ := hs.files e (mem_localSnapshots_iff.mpr ⟨hget, hname⟩)
      obtain ⟨hbefore, hdigits⟩ := hclock h hmem
      exact absurd hlt (lt_asymm (snapshotName_lt hbefore hdigits))
  | load io =>
      obtain rfl : io = .ok := hop
      intro _ _ _ e _ _
      rfl
  | purge keep => exact fun hzero => absurd hzero (Nat.pos_iff_ne_zero.mp hop)
  | deleteLocal =>
      have hsome : off.isSome = true := by
        by_contra hnone
        simp only [SnapshotRun.step, if_neg hnone] at hstep
        cases hstep
      rw [Keeps, hs.fetch_eq hoff hsome, latest, Option.map_map]
      rfl

theorem save (hs : s.Recorded off objects) (hoff : ∀ o ∈ off, o.Faithful objects) {now : ℕ}
    {content : Bytes} (hclock : ∀ e ∈ s.history, e.1 < now ∧
      (toString e.1).length = (toString now).length)
    (hstep : s.step off (.save .ok now content) = some s') : s'.Recorded off objects := by
  obtain ⟨h, -⟩ | ⟨n, -, h, -⟩ | ⟨-, -, hsave⟩ :=
    saveSnapshot_cases off .ok now s.store content
  · cases h
  · cases h
  simp only [step, hsave] at hstep
  obtain rfl := Option.some.inj hstep
  refine ⟨List.pairwise_cons.mpr ⟨hclock, hs.times⟩, fun e he => ?_, ?_, ?_⟩
  · obtain ⟨hget, hname⟩ := mem_localSnapshots_iff.mp he
    rcases OrdMap.getElem?_insert_cases hget with ⟨heq, hval⟩ | ⟨-, hget⟩
    · exact ⟨(now, content), List.mem_cons_self, Prod.ext heq hval⟩
    · obtain ⟨h, hmem, hfile⟩ := hs.files e (mem_localSnapshots_iff.mpr ⟨hget, hname⟩)
      exact ⟨h, List.mem_cons_of_mem _ hmem, hfile⟩
  · intro hsome key data hdata hstart
    obtain ⟨o, rfl⟩ := Option.isSome_iff_exists.mp hsome
    simp only [ SaveIO.ok, if_true, (hoff o rfl).upload] at hdata
    rcases OrdMap.getElem?_insert_cases hdata with ⟨heq, hval⟩ | ⟨-, hdata⟩
    · exact ⟨(now, content), List.mem_cons_self, Prod.ext heq hval⟩
    · obtain ⟨h, hmem, hfile⟩ := hs.stored rfl key data hdata hstart
      exact ⟨h, List.mem_cons_of_mem _ hmem, hfile⟩
  · intro hsome h hlast
    obtain ⟨o, rfl⟩ := Option.isSome_iff_exists.mp hsome
    obtain rfl := Option.some.inj hlast
    simp only [ SaveIO.ok, if_true, (hoff o rfl).upload, OrdMap.getElem?_insert_self']

/-- Steps that save nothing and add at most files that were saved. -/
theorem of_files (hs : s.Recorded off objects) (hremote : s'.store.remote = s.store.remote)
    (hhistory : s'.history = s.history)
    (hfiles : ∀ e ∈ localSnapshots s'.store.dir, e ∈ localSnapshots s.store.dir ∨
      ∃ h ∈ s.history, snapshotFile h = e) : s'.Recorded off objects := by
  refine ⟨by rw [hhistory]; exact hs.times, fun e he => ?_, ?_, ?_⟩
  · rw [hhistory]
    exact (hfiles e he).elim (hs.files e) id
  · rw [hremote, hhistory]
    exact hs.stored
  · rw [hremote, hhistory]
    exact hs.uploaded

theorem step (hs : s.Recorded off objects) (hoff : ∀ o ∈ off, o.Faithful objects)
    (hop : s.Admissible op) (hstep : s.step off op = some s') : s'.Recorded off objects := by
  cases op with
  | save io now content =>
      obtain ⟨rfl, hclock⟩ := hop
      exact hs.save hoff hclock hstep
  | load io =>
      obtain rfl : io = .ok := hop
      obtain rfl := Option.some.inj hstep
      rcases loadSnapshot_cases off .ok s.store with ⟨hsame, -⟩ | ⟨e, -, -, hnew, hfetch, hload⟩
      · rw [hsame]
        exact hs
      · have hsome : off.isSome = true := by
          by_contra hnone
          rw [Option.not_isSome_iff_eq_none.mp hnone] at hfetch
          cases hfetch
        rw [hs.fetch_eq hoff hsome] at hfetch
        obtain ⟨h, hlast, rfl⟩ := Option.map_eq_some_iff.mp hfetch
        rw [hload]
        refine hs.of_files rfl rfl fun e he => ?_
        obtain ⟨hget, hname⟩ := mem_localSnapshots_iff.mp he
        rcases OrdMap.getElem?_insert_cases hget with ⟨heq, hval⟩ | ⟨-, hget⟩
        · exact Or.inr ⟨h, List.mem_of_head? hlast, Prod.ext heq hval⟩
        · exact Or.inl (mem_localSnapshots_iff.mpr ⟨hget, hname⟩)
  | purge keep =>
      obtain rfl := Option.some.inj hstep
      refine hs.of_files rfl rfl fun e he => Or.inl ?_
      rw [SnapshotStore.purgeOldSnapshots, localSnapshots_purge] at he
      exact List.mem_of_mem_drop he
  | deleteLocal =>
      simp only [SnapshotRun.step] at hstep
      split at hstep
      · obtain rfl := Option.some.inj hstep
        refine hs.of_files rfl rfl fun e he => Or.inl ?_
        rw [SnapshotStore.deleteLocal, localSnapshots_foldl_erase] at he
        exact List.mem_of_mem_filter he
      · cases hstep

/-- The files, in the order of their times. -/
theorem localSnapshots_eq (hs : s.Recorded off objects) :
    localSnapshots s.store.dir = ((s.history.reverse.filter fun h =>
      (s.store.dir[snapshotName h.1]?).isSome).map snapshotFile) := by
  have hasc : OrdMap.Ascending (s.history.reverse.map snapshotFile) := by
    refine List.pairwise_map.mpr (List.pairwise_reverse.mpr (hs.times.imp fun hab => ?_))
    exact compare_eq_lt_iff.mpr (snapshotName_lt hab.1 hab.2)
  refine (OrdMap.ascending_filter_toList _ _).ext
    (hasc.sublist (List.filter_sublist.map snapshotFile)) fun e => ?_
  change e ∈ localSnapshots s.store.dir ↔ _
  simp only [List.mem_map, List.mem_filter, List.mem_reverse]
  constructor
  · intro he
    obtain ⟨h, hmem, rfl⟩ := hs.files e he
    exact ⟨h, ⟨hmem, Option.isSome_iff_exists.mpr ⟨h.2, (mem_localSnapshots_iff.mp he).1⟩⟩, rfl⟩
  · rintro ⟨h, ⟨hmem, hsome⟩, rfl⟩
    obtain ⟨data, hdata⟩ := Option.isSome_iff_exists.mp hsome
    have hfile : (snapshotName h.1, data) ∈ localSnapshots s.store.dir :=
      mem_localSnapshots_iff.mpr ⟨hdata, isSnapshotName_snapshotName h.1⟩
    obtain ⟨h', hmem', heq⟩ := hs.files _ hfile
    obtain rfl := hs.eq_of_name_eq hmem' hmem (congrArg Prod.fst heq)
    rwa [← heq] at hfile

/-- `PurgeOldSnapshots` leaves the newest files. -/
theorem purge (hs : s.Recorded off objects) (keep : ℕ) :
    ∃ old new : List (ℕ × Bytes),
      localSnapshots s.store.dir = (old ++ new).map snapshotFile ∧
      localSnapshots (s.store.purgeOldSnapshots keep).dir = new.map snapshotFile ∧
      new.length = min keep (old ++ new).length ∧ ∀ a ∈ old, ∀ b ∈ new, a.1 < b.1 := by
  have hfiles := hs.localSnapshots_eq
  generalize hkept : (s.history.reverse.filter fun h =>
    (s.store.dir[snapshotName h.1]?).isSome) = kept at hfiles
  have hasc : kept.Pairwise fun a b => a.1 < b.1 := by
    rw [← hkept]
    exact (List.pairwise_reverse.mpr (hs.times.imp And.left)).sublist List.filter_sublist
  have hsplit := List.take_append_drop (kept.length - keep) kept
  refine ⟨kept.take (kept.length - keep), kept.drop (kept.length - keep), ?_, ?_, ?_, ?_⟩
  · rw [hsplit, hfiles]
  · rw [SnapshotStore.purgeOldSnapshots, localSnapshots_purge, hfiles, List.length_map,
      List.map_drop]
  · rw [hsplit, List.length_drop]
    omega
  · rw [← hsplit] at hasc
    exact (List.pairwise_append.mp hasc).2.2

end Recorded

end SnapshotRun

/-- The store returns the newest snapshot. Let the offloader be absent or faithful, and let there
be no snapshots in the beginning. After every run without failures, in which the clock readings
increase and have the same number of digits, `LoadSnapshot` returns the content given to the
latest `SaveSnapshot`, and `PurgeOldSnapshots(keep)` leaves the newest `min keep n` of the `n`
snapshots of the directory. -/
theorem loadSnapshot_returns_latest (off : Option (Offloader ω)) (objects : ω → OrdMap String Bytes)
    (hoff : ∀ o ∈ off, o.Faithful objects) {dir : Directory} {remote : ω}
    (hdir : localSnapshots dir = [])
    (hremote : ∀ key : String, "snapshot.".toList.isPrefixOf key.toList = true →
      (objects remote)[key]? = none)
    {ops : List SnapshotOp} {s : SnapshotRun ω}
    (hrun : exec (SnapshotRun.step off) ⟨⟨dir, remote⟩, []⟩ ops = some s)
    (hops : Guarded (SnapshotRun.step off) SnapshotRun.Admissible ⟨⟨dir, remote⟩, []⟩ ops) :
    s.ReturnsLatest off ∧ ∀ keep, 0 < keep → ∃ old new : List (ℕ × Bytes),
      localSnapshots s.store.dir = (old ++ new).map snapshotFile ∧
      localSnapshots (s.store.purgeOldSnapshots keep).dir = new.map snapshotFile ∧
      new.length = min keep (old ++ new).length ∧ ∀ a ∈ old, ∀ b ∈ new, a.1 < b.1 := by
  have hstart : SnapshotRun.Recorded off objects ⟨⟨dir, remote⟩, []⟩ :=
    { times := List.Pairwise.nil
      files := fun e he => by rw [hdir] at he; cases he
      stored := fun _ key data hdata hstart => by rw [hremote key hstart] at hdata; cases hdata
      uploaded := fun _ h hlast => by cases hlast }
  have hfirst : SnapshotRun.ReturnsLatest off ⟨⟨dir, remote⟩, []⟩ := by
    have hnew : newestSnapshot dir = none := congrArg List.getLast? hdir
    rw [SnapshotRun.returnsLatest_iff_held, held_of_none hnew]
    cases off with
    | none => rfl
    | some o =>
        rw [hstart.fetch_eq hoff rfl]
        rfl
  obtain ⟨hs, hreturns⟩ := invariant_of_guarded
    (fun s => s.Recorded off objects ∧ s.ReturnsLatest off)
    (fun s op s' ⟨hs, hreturns⟩ hop hstep => ⟨hs.step hoff hop hstep,
      (SnapshotRun.returnsLatest_step_iff hreturns hstep).mpr (hs.keeps hoff hop hstep)⟩)
    hrun hops ⟨hstart, hfirst⟩
  exact ⟨hreturns, fun keep _ => hs.purge keep⟩

/-- Three snapshots, the second of which comes back from the offloader. -/
theorem loadSnapshot_returns_latest_sample :
    ∃ s, exec (SnapshotRun.step (some localOffloader)) .fresh
        [.save .ok 97 [1, 2], .save .ok 98 [3], .purge 1, .deleteLocal, .load .ok,
          .save .ok 99 [4, 5]] = some s ∧
      s.latest = some [4, 5] ∧ (localSnapshots s.store.dir).length = 2 ∧
      s.ReturnsLatest (some localOffloader) := by
  obtain ⟨s, hrun, hlatest, hlength⟩ : ∃ s, exec (SnapshotRun.step (some localOffloader)) .fresh
        [.save .ok 97 [1, 2], .save .ok 98 [3], .purge 1, .deleteLocal, .load .ok,
          .save .ok 99 [4, 5]] = some s ∧
      s.latest = some [4, 5] ∧ (localSnapshots s.store.dir).length = 2 :=
    exists_exec_of_any (by decide +kernel)
  have hfaithful : ∀ o ∈ some localOffloader, o.Faithful fun bucket => bucket.getD ∅ := by
    intro o ho
    obtain rfl := Option.some.inj ho
    exact localOffloader_faithful
  have hnewest := loadSnapshot_returns_latest (some localOffloader) _ hfaithful rfl
    (fun _ _ => by simp) hrun (by decide +kernel)
  exact ⟨s, hrun, hlatest, hlength, hnewest.1⟩

end StreamFlow.Raft
