import Mathlib.Data.List.Forall2
import StreamFlow.Foundation.Pattern

/-!
# The match of a whole text

The first match of a pattern, described along the pattern. A text is matched by `cat r t` through
the first way of `r` whose rest is matched by `t`, so a match is read from the front, one part after
the other. The repetitions carry the order: a greedy one takes the longest span whose rest
can be matched and a lazy one the shortest.
-/

namespace Pattern

variable {p : Char → Bool} {r s t : Pattern} {text rest span : List Char} {m : Captures}

/-- The whole text can be matched. -/
def Matches (r : Pattern) (text : List Char) : Prop := r.find? text ≠ none

theorem matches_of_find? (h : r.find? text = some m) : r.Matches text :=
  fun hnone => Option.some_ne_none m (h.symm.trans hnone)

theorem Matches.exists_find? (h : r.Matches text) : ∃ m, r.find? text = some m :=
  Option.ne_none_iff_exists'.mp h

theorem matches_iff_mem : r.Matches text ↔ ∃ c, (c, []) ∈ r.successes text := by
  unfold Matches find?
  rw [Ne, Option.map_eq_none_iff, List.find?_eq_none]
  simp only [List.isEmpty_iff, not_forall, not_not, exists_prop, Prod.exists]
  constructor
  · rintro ⟨c, _, hmem, rfl⟩
    exact ⟨c, hmem⟩
  · rintro ⟨c, hmem⟩
    exact ⟨c, [], hmem, rfl⟩

/-! ### One part after the other -/

theorem findSome?_flatMap {α β γ : Type*} (l : List α) (g : α → List β) (f : β → Option γ) :
    (l.flatMap g).findSome? f = l.findSome? fun a => (g a).findSome? f := by
  induction l with
  | nil => rfl
  | cons a l ih =>
      rw [List.flatMap_cons, List.findSome?_append, ih, List.findSome?_cons]
      cases (g a).findSome? f with
      | none => rfl
      | some c => rfl

theorem seq_cons (r : Pattern) (rs : List Pattern) : seq (r :: rs) = cat r (seq rs) := rfl

theorem find?_empty (text : List Char) :
    empty.find? text = if text = [] then some [] else none := by
  cases text with
  | nil => rfl
  | cons c text => rfl

theorem find?_cat (r t : Pattern) (text : List Char) :
    (cat r t).find? text =
      (r.successes text).findSome? fun m => (t.find? m.2).map (m.1 ++ ·) := by
  unfold find?
  rw [successes, List.find?_flatMap, List.map_findSome?]
  congr 1
  funext m
  simp only [Function.comp_apply, List.find?_map, Option.map_map]
  rfl

theorem find?_cat_congr {t' : Pattern} (h : ∀ text, t.find? text = t'.find? text)
    (text : List Char) : (cat r t).find? text = (cat r t').find? text := by
  rw [find?_cat, find?_cat]
  simp only [h]

theorem find?_cat_empty (t : Pattern) (text : List Char) :
    (cat empty t).find? text = t.find? text := by
  rw [find?_cat]
  simp [successes]

theorem find?_cat_cat (r s t : Pattern) (text : List Char) :
    (cat (cat r s) t).find? text = (cat r (cat s t)).find? text := by
  rw [find?_cat, find?_cat, successes, findSome?_flatMap]
  congr 1
  funext m
  rw [find?_cat, List.findSome?_map, List.map_findSome?]
  congr 1
  funext m'
  simp only [Function.comp_apply, Option.map_map]
  congr 1
  funext m''
  exact List.append_assoc m.1 m'.1 m''

theorem find?_cat_alt (r s t : Pattern) (text : List Char) :
    (cat (alt r s) t).find? text = ((cat r t).find? text).or ((cat s t).find? text) := by
  rw [find?_cat, find?_cat, find?_cat, successes, List.findSome?_append]

/-- What is optional is left out only if the text cannot be matched with it. -/
theorem find?_cat_opt (r t : Pattern) (text : List Char) :
    (cat (opt r) t).find? text = ((cat r t).find? text).or (t.find? text) := by
  rw [opt, find?_cat_alt, find?_cat_empty]

theorem find?_cat_char_cons (p : Char → Bool) (t : Pattern) (c : Char) (text : List Char) :
    (cat (char p) t).find? (c :: text) = if p c then t.find? text else none := by
  rw [find?_cat, successes]
  split
  · simp
  · rfl

/-! ### Repetitions -/

theorem mem_rests : rest ∈ rests p text ↔ ∃ span, text = span ++ rest ∧ ∀ c ∈ span, p c := by
  induction text with
  | nil => simp [rests]
  | cons c text ih =>
      rw [rests]
      constructor
      · intro h
        split at h
        · next hc =>
            rcases List.mem_append.mp h with hrest | hwhole
            · obtain ⟨span, rfl, hspan⟩ := ih.mp hrest
              exact ⟨c :: span, rfl, List.forall_mem_cons.mpr ⟨hc, hspan⟩⟩
            · exact ⟨[], (List.mem_singleton.mp hwhole).symm, List.forall_mem_nil _⟩
        · exact ⟨[], (List.mem_singleton.mp h).symm, List.forall_mem_nil _⟩
      · rintro ⟨span, hspan, hall⟩
        cases span with
        | nil =>
            obtain rfl : c :: text = rest := hspan
            split
            · exact List.mem_append_right _ (List.mem_singleton.mpr rfl)
            · exact List.mem_singleton.mpr rfl
        | cons d span =>
            obtain ⟨rfl, rfl⟩ := List.cons.inj hspan
            rw [if_pos (hall c List.mem_cons_self)]
            exact List.mem_append_left _
              (ih.mpr ⟨span, rfl, fun d hd => hall d (List.mem_cons_of_mem _ hd)⟩)

theorem pairwise_rests (p : Char → Bool) (text : List Char) :
    (rests p text).Pairwise fun rest rest' => rest.length < rest'.length := by
  induction text with
  | nil => exact List.pairwise_singleton _ _
  | cons c text ih =>
      rw [rests]
      split
      · refine List.pairwise_append.mpr ⟨ih, List.pairwise_singleton _ _, ?_⟩
        intro rest hrest whole hwhole
        obtain ⟨span, rfl, -⟩ := mem_rests.mp hrest
        rw [List.mem_singleton.mp hwhole]
        simp only [List.length_cons, List.length_append]
        omega
      · exact List.pairwise_singleton _ _

theorem restsLazy_eq_reverse (p : Char → Bool) (text : List Char) :
    restsLazy p text = (rests p text).reverse := by
  induction text with
  | nil => rfl
  | cons c text ih =>
      rw [rests, restsLazy]
      split
      · rw [ih, List.reverse_append]
        rfl
      · rfl

/-- The first result in a list in order is that of the least element that has one. -/
theorem findSome?_eq_some_iff_of_pairwise {α β : Type*} {lt : α → α → Prop}
    (hasymm : ∀ a a', lt a a' → ¬ lt a' a) {l : List α} (hl : l.Pairwise lt) {f : α → Option β}
    {b : β} :
    l.findSome? f = some b ↔ ∃ a ∈ l, f a = some b ∧ ∀ a' ∈ l, lt a' a → f a' = none := by
  rw [List.findSome?_eq_some_iff]
  constructor
  · rintro ⟨l₁, a, l₂, rfl, ha, hbefore⟩
    refine ⟨a, List.mem_append_right _ List.mem_cons_self, ha, fun a' ha' hlt => ?_⟩
    have htail := (List.pairwise_cons.mp (List.pairwise_append.mp hl).2.1).1
    rcases List.mem_append.mp ha' with hmem | hmem
    · exact hbefore a' hmem
    · rcases List.mem_cons.mp hmem with rfl | hmem
      · exact absurd hlt (hasymm _ _ hlt)
      · exact absurd hlt (hasymm _ _ (htail a' hmem))
  · rintro ⟨a, ha, hfa, hnone⟩
    obtain ⟨l₁, l₂, rfl⟩ := List.append_of_mem ha
    refine ⟨l₁, a, l₂, rfl, hfa, fun a' ha' => hnone a' (List.mem_append_left _ ha') ?_⟩
    exact (List.pairwise_append.mp hl).2.2 a' ha' a List.mem_cons_self

/-- Two rests of a text, of which one is shorter. -/
theorem exists_append_of_length_lt {span' rest' : List Char} (h : span ++ rest = span' ++ rest')
    (hlt : rest'.length < rest.length) :
    ∃ more, more ≠ [] ∧ span' = span ++ more ∧ rest = more ++ rest' := by
  rcases List.append_eq_append_iff.mp h with ⟨more, rfl, rfl⟩ | ⟨more, rfl, rfl⟩
  · refine ⟨more, ?_, rfl, rfl⟩
    rintro rfl
    exact Nat.lt_irrefl _ hlt
  · rw [List.length_append] at hlt
    omega

/-- The longest span with a result. -/
theorem findSome?_rests_eq_some {β : Type*} {f : List Char → Option β} {b : β} :
    (rests p text).findSome? f = some b ↔
      ∃ span rest, text = span ++ rest ∧ (∀ c ∈ span, p c) ∧ f rest = some b ∧
        ∀ more rest', rest = more ++ rest' → more ≠ [] → (∀ c ∈ more, p c) → f rest' = none := by
  rw [findSome?_eq_some_iff_of_pairwise (fun _ _ h => Nat.lt_asymm h) (pairwise_rests p text)]
  constructor
  · rintro ⟨rest, hrest, hb, hnone⟩
    obtain ⟨span, rfl, hspan⟩ := mem_rests.mp hrest
    refine ⟨span, rest, rfl, hspan, hb, ?_⟩
    rintro more rest' rfl hne hmore
    refine hnone rest' (mem_rests.mpr ⟨span ++ more, (List.append_assoc _ _ _).symm, ?_⟩) ?_
    · exact List.forall_mem_append.mpr ⟨hspan, hmore⟩
    · rw [List.length_append]
      have := List.length_pos_of_ne_nil hne
      omega
  · rintro ⟨span, rest, rfl, hspan, hb, hnone⟩
    refine ⟨rest, mem_rests.mpr ⟨span, rfl, hspan⟩, hb, fun rest' hrest' hlt => ?_⟩
    obtain ⟨span', htext, hspan'⟩ := mem_rests.mp hrest'
    obtain ⟨more, hne, rfl, rfl⟩ := exists_append_of_length_lt htext hlt
    exact hnone more rest' rfl hne (List.forall_mem_append.mp hspan').2

/-- The shortest span with a result. -/
theorem findSome?_restsLazy_eq_some {β : Type*} {f : List Char → Option β} {b : β} :
    (restsLazy p text).findSome? f = some b ↔
      ∃ span rest, text = span ++ rest ∧ (∀ c ∈ span, p c) ∧ f rest = some b ∧
        ∀ less more, span = less ++ more → more ≠ [] → f (more ++ rest) = none := by
  rw [restsLazy_eq_reverse, findSome?_eq_some_iff_of_pairwise (fun _ _ h => Nat.lt_asymm h)
    (List.pairwise_reverse.mpr (pairwise_rests p text))]
  simp only [List.mem_reverse]
  constructor
  · rintro ⟨rest, hrest, hb, hnone⟩
    obtain ⟨span, rfl, hspan⟩ := mem_rests.mp hrest
    refine ⟨span, rest, rfl, hspan, hb, ?_⟩
    rintro less more rfl hne
    refine hnone (more ++ rest) (mem_rests.mpr ⟨less, List.append_assoc _ _ _, ?_⟩) ?_
    · exact (List.forall_mem_append.mp hspan).1
    · rw [List.length_append]
      have := List.length_pos_of_ne_nil hne
      omega
  · rintro ⟨span, rest, rfl, hspan, hb, hnone⟩
    refine ⟨rest, mem_rests.mpr ⟨span, rfl, hspan⟩, hb, fun rest' hrest' hlt => ?_⟩
    obtain ⟨span', htext, hspan'⟩ := mem_rests.mp hrest'
    obtain ⟨more, hne, rfl, rfl⟩ := exists_append_of_length_lt htext.symm hlt
    exact hnone span' more rfl hne

/-! ### What a part can read -/

variable {c : Captures} {i : ℕ} {w : String}

theorem find?_cat_eq_some (h : (cat r t).find? text = some m) :
    ∃ c rest m', (c, rest) ∈ r.successes text ∧ t.find? rest = some m' ∧ m = c ++ m' := by
  rw [find?_cat] at h
  obtain ⟨_, ⟨c, rest⟩, _, hsplit, hrest, -⟩ := List.findSome?_eq_some_iff.mp h
  obtain ⟨m', hm', rfl⟩ := Option.map_eq_some_iff.mp hrest
  exact ⟨c, rest, m', hsplit ▸ List.mem_append_right _ List.mem_cons_self, hm', rfl⟩

theorem matches_cat :
    (cat r t).Matches text ↔ ∃ c rest, (c, rest) ∈ r.successes text ∧ t.Matches rest := by
  constructor
  · intro h
    obtain ⟨m, hm⟩ := h.exists_find?
    obtain ⟨c, rest, m', hmem, hrest, -⟩ := find?_cat_eq_some hm
    exact ⟨c, rest, hmem, matches_of_find? hrest⟩
  · rintro ⟨c, rest, hmem, hrest⟩ hnone
    rw [find?_cat] at hnone
    exact hrest (Option.map_eq_none_iff.mp (List.findSome?_eq_none_iff.mp hnone _ hmem))

theorem mem_successes_cat :
    (c, rest) ∈ (cat r s).successes text ↔
      ∃ c₁ c₂ mid, (c₁, mid) ∈ r.successes text ∧ (c₂, rest) ∈ s.successes mid ∧ c = c₁ ++ c₂ := by
  simp only [successes, List.mem_flatMap, List.mem_map, Prod.mk.injEq, Prod.exists]
  constructor
  · rintro ⟨c₁, mid, h₁, c₂, _, h₂, rfl, rfl⟩
    exact ⟨c₁, c₂, mid, h₁, h₂, rfl⟩
  · rintro ⟨c₁, c₂, mid, h₁, h₂, rfl⟩
    exact ⟨c₁, mid, h₁, c₂, rest, h₂, rfl, rfl⟩

theorem mem_successes_empty : (c, rest) ∈ empty.successes text ↔ c = [] ∧ rest = text := by
  simp [successes]

theorem mem_successes_alt :
    (c, rest) ∈ (alt r s).successes text ↔
      (c, rest) ∈ r.successes text ∨ (c, rest) ∈ s.successes text :=
  List.mem_append

theorem mem_successes_char :
    (c, rest) ∈ (char p).successes text ↔ c = [] ∧ ∃ d, p d ∧ text = d :: rest := by
  cases text with
  | nil => simp [successes]
  | cons d text =>
      rw [successes]
      split
      · next hd =>
          rw [List.mem_singleton, Prod.mk.injEq]
          constructor
          · rintro ⟨rfl, rfl⟩
            exact ⟨rfl, d, hd, rfl⟩
          · rintro ⟨rfl, e, -, he⟩
            exact ⟨rfl, (List.cons.inj he).2.symm⟩
      · next hd => simp [hd]

theorem mem_successes_many :
    (c, rest) ∈ (many p).successes text ↔
      c = [] ∧ ∃ span, text = span ++ rest ∧ ∀ d ∈ span, p d := by
  rw [successes, List.mem_map, ← mem_rests]
  simp [and_comm, eq_comm]

theorem mem_successes_manyLazy :
    (c, rest) ∈ (manyLazy p).successes text ↔
      c = [] ∧ ∃ span, text = span ++ rest ∧ ∀ d ∈ span, p d := by
  rw [← mem_successes_many, successes, successes, restsLazy_eq_reverse, List.map_reverse,
    List.mem_reverse]

theorem mem_successes_many1 :
    (c, rest) ∈ (many1 p).successes text ↔
      c = [] ∧ ∃ span, span ≠ [] ∧ text = span ++ rest ∧ ∀ d ∈ span, p d := by
  rw [many1, mem_successes_cat]
  simp only [mem_successes_char, mem_successes_many]
  constructor
  · rintro ⟨_, _, _, ⟨rfl, d, hd, rfl⟩, ⟨rfl, span, rfl, hspan⟩, rfl⟩
    exact ⟨rfl, d :: span, List.cons_ne_nil _ _, rfl, List.forall_mem_cons.mpr ⟨hd, hspan⟩⟩
  · rintro ⟨rfl, span, hne, rfl, hspan⟩
    cases span with
    | nil => exact absurd rfl hne
    | cons d span =>
        obtain ⟨hd, hspan⟩ := List.forall_mem_cons.mp hspan
        exact ⟨[], [], span ++ rest, ⟨rfl, d, hd, rfl⟩, ⟨rfl, span, rfl, hspan⟩, rfl⟩

theorem mem_successes_many1Lazy :
    (c, rest) ∈ (many1Lazy p).successes text ↔
      c = [] ∧ ∃ span, span ≠ [] ∧ text = span ++ rest ∧ ∀ d ∈ span, p d := by
  rw [← mem_successes_many1, many1Lazy, many1, mem_successes_cat, mem_successes_cat]
  simp only [mem_successes_many, mem_successes_manyLazy]

theorem mem_successes_capture :
    (c, rest) ∈ (capture i r).successes text ↔
      ∃ c', (c', rest) ∈ r.successes text ∧
        c = (i, text.take (text.length - rest.length)) :: c' := by
  rw [successes, List.mem_map]
  constructor
  · rintro ⟨⟨c', _⟩, hmem, heq⟩
    obtain ⟨rfl, rfl⟩ := Prod.mk.inj heq
    exact ⟨c', hmem, rfl⟩
  · rintro ⟨c', hmem, rfl⟩
    exact ⟨(c', rest), hmem, rfl⟩

/-- A part reads a beginning of the text. -/
theorem exists_append_of_mem_successes (h : (c, rest) ∈ r.successes text) :
    ∃ span, text = span ++ rest := by
  induction r generalizing text c rest with
  | empty => exact ⟨[], (mem_successes_empty.mp h).2.symm⟩
  | char p =>
      obtain ⟨-, d, -, rfl⟩ := mem_successes_char.mp h
      exact ⟨[d], rfl⟩
  | many p =>
      obtain ⟨-, span, htext, -⟩ := mem_successes_many.mp h
      exact ⟨span, htext⟩
  | manyLazy p =>
      obtain ⟨-, span, htext, -⟩ := mem_successes_manyLazy.mp h
      exact ⟨span, htext⟩
  | cat r s ihr ihs =>
      obtain ⟨c₁, c₂, mid, h₁, h₂, -⟩ := mem_successes_cat.mp h
      obtain ⟨span, rfl⟩ := ihr h₁
      obtain ⟨span', rfl⟩ := ihs h₂
      exact ⟨span ++ span', (List.append_assoc _ _ _).symm⟩
  | alt r s ihr ihs =>
      rcases mem_successes_alt.mp h with h | h
      · exact ihr h
      · exact ihs h
  | capture i r ih =>
      obtain ⟨c', h, -⟩ := mem_successes_capture.mp h
      exact ih h

/-- The numbers of the captures of a pattern. -/
def names : Pattern → List ℕ
  | empty | char _ | many _ | manyLazy _ => []
  | cat r s | alt r s => r.names ++ s.names
  | capture i r => i :: r.names

theorem fst_mem_names (h : (c, rest) ∈ r.successes text) : ∀ x ∈ c, x.1 ∈ r.names := by
  induction r generalizing text c rest with
  | empty => simp [(mem_successes_empty.mp h).1]
  | char p => simp [(mem_successes_char.mp h).1]
  | many p => simp [(mem_successes_many.mp h).1]
  | manyLazy p => simp [(mem_successes_manyLazy.mp h).1]
  | cat r s ihr ihs =>
      obtain ⟨c₁, c₂, mid, h₁, h₂, rfl⟩ := mem_successes_cat.mp h
      intro x hx
      rcases List.mem_append.mp hx with hx | hx
      · exact List.mem_append_left _ (ihr h₁ x hx)
      · exact List.mem_append_right _ (ihs h₂ x hx)
  | alt r s ihr ihs =>
      intro x hx
      rcases mem_successes_alt.mp h with h | h
      · exact List.mem_append_left _ (ihr h x hx)
      · exact List.mem_append_right _ (ihs h x hx)
  | capture i r ih =>
      obtain ⟨c', hbody, rfl⟩ := mem_successes_capture.mp h
      intro x hx
      rcases List.mem_cons.mp hx with rfl | hx
      · exact List.mem_cons_self
      · exact List.mem_cons_of_mem _ (ih hbody x hx)

theorem submatch_append (h : ∀ x ∈ c, x.1 ≠ i) (m : Captures) :
    submatch (c ++ m) i = submatch m i := by
  have hnone : c.lookup i = none := by
    rw [List.lookup_eq_none_iff]
    exact fun x hx => by simpa using (h x hx).symm
  rw [submatch, List.lookup_append, hnone, Option.none_or, submatch]

/-- A match of a sequence splits anywhere. -/
theorem find?_seq_append {rs rs' : List Pattern} (h : (seq (rs ++ rs')).find? text = some m) :
    ∃ c rest m', (c, rest) ∈ (seq rs).successes text ∧ (seq rs').find? rest = some m' ∧
      m = c ++ m' := by
  induction rs generalizing text m with
  | nil => exact ⟨[], text, m, mem_successes_empty.mpr ⟨rfl, rfl⟩, h, rfl⟩
  | cons r rs ih =>
      obtain ⟨c₁, mid, m₁, h₁, hmid, rfl⟩ := find?_cat_eq_some h
      obtain ⟨c₂, rest, m₂, h₂, hrest, rfl⟩ := ih hmid
      exact ⟨c₁ ++ c₂, rest, m₂, mem_successes_cat.mpr ⟨c₁, c₂, mid, h₁, h₂, rfl⟩, hrest,
        (List.append_assoc _ _ _).symm⟩

/-- The letters of a word, each in any case. -/
def Spells (w : String) (letters : List Char) : Prop :=
  List.Forall₂ (fun c d => isFold c d = true) w.toList letters

instance (w : String) (letters : List Char) : Decidable (Spells w letters) :=
  inferInstanceAs (Decidable (List.Forall₂ _ _ _))

theorem mem_successes_word :
    (c, rest) ∈ (word w).successes text ↔
      c = [] ∧ ∃ letters, text = letters ++ rest ∧ Spells w letters := by
  unfold word Spells seq
  induction w.toList generalizing c text with
  | nil =>
      simp only [List.map_nil, List.foldr_nil, mem_successes_empty, List.forall₂_nil_left_iff]
      constructor
      · rintro ⟨rfl, rfl⟩
        exact ⟨rfl, [], rfl, rfl⟩
      · rintro ⟨rfl, _, rfl, rfl⟩
        exact ⟨rfl, rfl⟩
  | cons d ds ih =>
      simp only [List.map_cons, List.foldr_cons, mem_successes_cat, mem_successes_char, ih]
      constructor
      · rintro ⟨_, _, _, ⟨rfl, e, he, rfl⟩, ⟨rfl, letters, rfl, hletters⟩, rfl⟩
        exact ⟨rfl, e :: letters, rfl, .cons he hletters⟩
      · rintro ⟨rfl, _, rfl, hletters⟩
        cases hletters with
        | @cons _ e _ letters he hletters =>
            exact ⟨[], [], letters ++ rest, ⟨rfl, e, he, rfl⟩, ⟨rfl, letters, rfl, hletters⟩, rfl⟩

/-! ### What a sequence can match -/

theorem matches_empty : empty.Matches text ↔ text = [] := by
  rw [Matches, find?_empty]
  simp

theorem matches_cat_cat : (cat (cat r s) t).Matches text ↔ (cat r (cat s t)).Matches text := by
  rw [Matches, Matches, find?_cat_cat]

theorem matches_cat_empty : (cat empty t).Matches text ↔ t.Matches text := by
  rw [Matches, Matches, find?_cat_empty]

theorem matches_cat_alt :
    (cat (alt r s) t).Matches text ↔ (cat r t).Matches text ∨ (cat s t).Matches text := by
  rw [Matches, Matches, Matches, find?_cat_alt, Ne, Option.or_eq_none_iff,
    Decidable.not_and_iff_or_not]

theorem matches_cat_opt :
    (cat (opt r) t).Matches text ↔ (cat r t).Matches text ∨ t.Matches text := by
  rw [opt, matches_cat_alt, matches_cat_empty]

theorem matches_cat_char :
    (cat (char p) t).Matches text ↔ ∃ d rest, text = d :: rest ∧ p d ∧ t.Matches rest := by
  simp only [matches_cat, mem_successes_char]
  constructor
  · rintro ⟨_, rest, ⟨-, d, hd, htext⟩, hrest⟩
    exact ⟨d, rest, htext, hd, hrest⟩
  · rintro ⟨d, rest, htext, hd, hrest⟩
    exact ⟨[], rest, ⟨rfl, d, hd, htext⟩, hrest⟩

theorem matches_cat_many :
    (cat (many p) t).Matches text ↔
      ∃ span rest, text = span ++ rest ∧ (∀ d ∈ span, p d) ∧ t.Matches rest := by
  simp only [matches_cat, mem_successes_many]
  constructor
  · rintro ⟨_, rest, ⟨-, span, htext, hspan⟩, hrest⟩
    exact ⟨span, rest, htext, hspan, hrest⟩
  · rintro ⟨span, rest, htext, hspan, hrest⟩
    exact ⟨[], rest, ⟨rfl, span, htext, hspan⟩, hrest⟩

theorem matches_cat_many1 :
    (cat (many1 p) t).Matches text ↔
      ∃ span rest, span ≠ [] ∧ text = span ++ rest ∧ (∀ d ∈ span, p d) ∧ t.Matches rest := by
  simp only [matches_cat, mem_successes_many1]
  constructor
  · rintro ⟨_, rest, ⟨-, span, hne, htext, hspan⟩, hrest⟩
    exact ⟨span, rest, hne, htext, hspan, hrest⟩
  · rintro ⟨span, rest, hne, htext, hspan, hrest⟩
    exact ⟨[], rest, ⟨rfl, span, hne, htext, hspan⟩, hrest⟩

/-- The order of the ways makes no difference to whether there is one. -/
theorem matches_cat_many1Lazy :
    (cat (many1Lazy p) t).Matches text ↔ (cat (many1 p) t).Matches text := by
  simp only [matches_cat, mem_successes_many1, mem_successes_many1Lazy]

theorem matches_cat_capture : (cat (capture i r) t).Matches text ↔ (cat r t).Matches text := by
  simp only [matches_cat, mem_successes_capture]
  constructor
  · rintro ⟨_, rest, ⟨c, hmem, -⟩, hrest⟩
    exact ⟨c, rest, hmem, hrest⟩
  · rintro ⟨c, rest, hmem, hrest⟩
    exact ⟨_, rest, ⟨c, hmem, rfl⟩, hrest⟩

theorem matches_cat_word :
    (cat (word w) t).Matches text ↔
      ∃ letters rest, text = letters ++ rest ∧ Spells w letters ∧ t.Matches rest := by
  simp only [matches_cat, mem_successes_word]
  constructor
  · rintro ⟨_, rest, ⟨-, letters, htext, hletters⟩, hrest⟩
    exact ⟨letters, rest, htext, hletters, hrest⟩
  · rintro ⟨letters, rest, htext, hletters, hrest⟩
    exact ⟨[], rest, ⟨rfl, letters, htext, hletters⟩, hrest⟩

/-- A capture holds what was read. -/
theorem take_length_sub (span rest : List Char) :
    (span ++ rest).take ((span ++ rest).length - rest.length) = span := by
  rw [List.length_append, Nat.add_sub_cancel, List.take_left']
  rfl

/-! ### The choice of a repetition -/

/-- A span that cannot be made longer without losing the match of the rest. -/
structure Longest (p : Char → Bool) (t : Pattern) (span rest : List Char) : Prop where
  all : ∀ d ∈ span, p d
  rest_matches : t.Matches rest
  longest : ∀ more rest', rest = more ++ rest' → more ≠ [] → (∀ d ∈ more, p d) → ¬ t.Matches rest'

/-- A span that cannot be made shorter, down to one character, without losing the match of the
rest. -/
structure Shortest (p : Char → Bool) (t : Pattern) (span rest : List Char) : Prop where
  all : ∀ d ∈ span, p d
  rest_matches : t.Matches rest
  shortest : ∀ less more, span = less ++ more → less ≠ [] → more ≠ [] → ¬ t.Matches (more ++ rest)

theorem longest_of_head? (hspan : ∀ d ∈ span, p d) (hrest : t.Matches rest)
    (hhead : ∀ d ∈ rest.head?, p d = false) : Longest p t span rest where
  all := hspan
  rest_matches := hrest
  longest := by
    rintro more rest' rfl hne hmore
    cases more with
    | nil => exact absurd rfl hne
    | cons d more =>
        have hd := hhead d rfl
        rw [hmore d List.mem_cons_self] at hd
        cases hd

theorem successes_many1_cons {d : Char} (hd : p d) :
    (many1 p).successes (d :: text) = (rests p text).map fun rest => ([], rest) := by
  simp [many1, successes, hd]

theorem successes_many1Lazy_cons {d : Char} (hd : p d) :
    (many1Lazy p).successes (d :: text) = (restsLazy p text).map fun rest => ([], rest) := by
  simp [many1Lazy, successes, hd]

/-- The longest span that has a match of the rest is the one of the match found. -/
theorem Longest.findSome?_rests {β : Type*} (h : Longest p t span rest)
    (g : List Char → Captures → β) :
    (rests p (span ++ rest)).findSome? (fun rest => (t.find? rest).map (g rest)) =
      (t.find? rest).map (g rest) := by
  obtain ⟨m, hm⟩ := h.rest_matches.exists_find?
  rw [hm, Option.map_some, findSome?_rests_eq_some]
  refine ⟨span, rest, rfl, h.all, by rw [hm, Option.map_some], ?_⟩
  intro more rest' hsplit hne hmore
  rw [Option.map_eq_none_iff]
  exact not_not.mp (h.longest more rest' hsplit hne hmore)

theorem Longest.find?_many (h : Longest p t span rest) :
    (cat (many p) t).find? (span ++ rest) = t.find? rest := by
  rw [find?_cat, successes, List.findSome?_map]
  exact (h.findSome?_rests fun _ m => m).trans Option.map_id'

theorem Longest.tail {d : Char} (h : Longest p t (d :: span) rest) : Longest p t span rest :=
  ⟨(List.forall_mem_cons.mp h.all).2, h.rest_matches, h.longest⟩

theorem Longest.find?_many1 (h : Longest p t span rest) (hne : span ≠ []) :
    (cat (many1 p) t).find? (span ++ rest) = t.find? rest := by
  cases span with
  | nil => exact absurd rfl hne
  | cons d span =>
      rw [List.cons_append, find?_cat, successes_many1_cons (h.all d List.mem_cons_self),
        List.findSome?_map]
      exact (h.tail.findSome?_rests fun _ m => m).trans Option.map_id'

theorem Longest.find?_capture (h : Longest p t span rest) (hne : span ≠ []) (i : ℕ) :
    (cat (capture i (many1 p)) t).find? (span ++ rest) =
      (t.find? rest).map ((i, span) :: ·) := by
  cases span with
  | nil => exact absurd rfl hne
  | cons d span =>
      rw [find?_cat, successes, List.findSome?_map, List.cons_append,
        successes_many1_cons (h.all d List.mem_cons_self), List.findSome?_map]
      refine (h.tail.findSome?_rests fun rest' m => (i, (d :: (span ++ rest)).take
        ((d :: (span ++ rest)).length - rest'.length)) :: m).trans ?_
      rw [← List.cons_append, take_length_sub]

theorem exists_longest (h : (cat (many1 p) t).Matches text) :
    ∃ span rest, span ≠ [] ∧ text = span ++ rest ∧ Longest p t span rest := by
  obtain ⟨c, rest, hmem, hrest⟩ := matches_cat.mp h
  obtain ⟨rfl, span, hne, rfl, hspan⟩ := mem_successes_many1.mp hmem
  cases span with
  | nil => exact absurd rfl hne
  | cons d span =>
      obtain ⟨hd, hspan⟩ := List.forall_mem_cons.mp hspan
      have hsome : (rests p (span ++ rest)).findSome? t.find? ≠ none := by
        intro hnone
        exact hrest (List.findSome?_eq_none_iff.mp hnone _ (mem_rests.mpr ⟨span, rfl, hspan⟩))
      obtain ⟨m, hm⟩ := Option.ne_none_iff_exists'.mp hsome
      obtain ⟨span', rest', hsplit, hspan', hm', hnone⟩ := findSome?_rests_eq_some.mp hm
      refine ⟨d :: span', rest', List.cons_ne_nil _ _, congrArg (d :: ·) hsplit, ?_⟩
      exact ⟨List.forall_mem_cons.mpr ⟨hd, hspan'⟩, matches_of_find? hm',
        fun more rest'' hrest'' hne hmore hmatch => hmatch (hnone more rest'' hrest'' hne hmore)⟩

theorem Shortest.find?_capture (h : Shortest p t span rest) (hne : span ≠ []) (i : ℕ) :
    (cat (capture i (many1Lazy p)) t).find? (span ++ rest) =
      (t.find? rest).map ((i, span) :: ·) := by
  cases span with
  | nil => exact absurd rfl hne
  | cons d span =>
      obtain ⟨hd, hspan⟩ := List.forall_mem_cons.mp h.all
      obtain ⟨m, hm⟩ := h.rest_matches.exists_find?
      rw [find?_cat, successes, List.findSome?_map, List.cons_append, successes_many1Lazy_cons hd,
        List.findSome?_map, hm, Option.map_some, findSome?_restsLazy_eq_some]
      refine ⟨span, rest, rfl, hspan, ?_, fun less more hsplit hmore => ?_⟩
      · simp only [Function.comp_apply, hm, Option.map_some, ← List.cons_append, take_length_sub]
        rfl
      · have hnone := not_not.mp
          (h.shortest (d :: less) more (congrArg (d :: ·) hsplit) (List.cons_ne_nil _ _) hmore)
        simp only [Function.comp_apply, hnone, Option.map_none]

theorem exists_shortest (h : (cat (many1Lazy p) t).Matches text) :
    ∃ span rest, span ≠ [] ∧ text = span ++ rest ∧ Shortest p t span rest := by
  obtain ⟨c, rest, hmem, hrest⟩ := matches_cat.mp h
  obtain ⟨rfl, span, hne, rfl, hspan⟩ := mem_successes_many1Lazy.mp hmem
  cases span with
  | nil => exact absurd rfl hne
  | cons d span =>
      obtain ⟨hd, hspan⟩ := List.forall_mem_cons.mp hspan
      have hsome : (restsLazy p (span ++ rest)).findSome? t.find? ≠ none := by
        intro hnone
        rw [restsLazy_eq_reverse] at hnone
        exact hrest (List.findSome?_eq_none_iff.mp hnone _
          (List.mem_reverse.mpr (mem_rests.mpr ⟨span, rfl, hspan⟩)))
      obtain ⟨m, hm⟩ := Option.ne_none_iff_exists'.mp hsome
      obtain ⟨span', rest', hsplit, hspan', hm', hnone⟩ := findSome?_restsLazy_eq_some.mp hm
      refine ⟨d :: span', rest', List.cons_ne_nil _ _, congrArg (d :: ·) hsplit, ?_⟩
      refine ⟨List.forall_mem_cons.mpr ⟨hd, hspan'⟩, matches_of_find? hm', ?_⟩
      intro less more hless hne hmore hmatch
      cases less with
      | nil => exact hne rfl
      | cons e less => exact hmatch (hnone less more (List.cons.inj hless).2 hmore)

/-! ### Words -/

theorem Spells.find?_cat_word {letters : List Char} (h : Spells w letters) (t : Pattern)
    (rest : List Char) : (cat (word w) t).find? (letters ++ rest) = t.find? rest := by
  unfold word seq
  unfold Spells at h
  generalize w.toList = ds at h
  induction h with
  | nil => exact find?_cat_empty t rest
  | @cons d e ds letters hd _ ih =>
      rw [List.map_cons, List.foldr_cons, find?_cat_cat, List.cons_append, find?_cat_char_cons,
        if_pos hd, ih]

end Pattern
