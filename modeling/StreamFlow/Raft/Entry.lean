import StreamFlow.Foundation.Frame

/-!
# Raft entries as bytes

`marshalEntries` and `unmarshalEntries` of `broker/internal/raft/node.go`: every
entry is encoded by `proto.Marshal` and put into a frame of its own. The encoding
enters as a pair of functions; `Faithful` says that decoding inverts it.

Terms and indices are unsigned 64-bit numbers that are only compared, and are natural
numbers here.
-/

namespace StreamFlow.Raft

open BigEndian Frame

/-- `raftpb.EntryType`. -/
inductive EntryType where
  | normal
  | confChange
  | confChangeV2
deriving DecidableEq, Repr

/-- `raftpb.Entry`. -/
structure Entry where
  term : ℕ
  index : ℕ
  type : EntryType
  data : Bytes
deriving DecidableEq, Repr

/-- `proto.Marshal` and `proto.Unmarshal` at the type `raftpb.Entry`; `none` is an
error. -/
structure EntryCodec where
  marshal : Entry → Option Bytes
  unmarshal : Bytes → Option Entry

/-- Decoding an encoded entry gives the entry back. -/
def EntryCodec.Faithful (codec : EntryCodec) : Prop :=
  ∀ e b, codec.marshal e = some b → codec.unmarshal b = some e

inductive WalError where
  | io
  | marshal
  | unmarshal
deriving DecidableEq, Repr

theorem eq_ok_of_toOption {α : Type*} {x : Except WalError α} {a : α}
    (h : x.toOption = some a) : x = .ok a := by
  cases x with
  | error e => cases h
  | ok b => rw [Option.some.inj h]

/-- The loop of `marshalEntries`. -/
def marshalLoop (codec : EntryCodec) : List Entry → Bytes → Except WalError Bytes
  | [], out => .ok out
  | e :: ents, out =>
      match codec.marshal e with
      | none => .error .marshal
      | some b => marshalLoop codec ents (out ++ header b.length ++ b)

def marshalEntries (codec : EntryCodec) (ents : List Entry) : Except WalError Bytes :=
  marshalLoop codec ents []

/-- The loop of `unmarshalEntries`, on what is left of the data; every turn takes at
least a header off. An incomplete frame makes the whole result empty. -/
def unmarshalLoop (codec : EntryCodec) : ℕ → Bytes → List Entry → Except WalError (List Entry)
  | 0, _, ents => .ok ents
  | n + 1, data, ents =>
      if data = [] then .ok ents
      else
        match read data with
        | none => .ok []
        | some (b, rest) =>
            match codec.unmarshal b with
            | none => .error .unmarshal
            | some e => unmarshalLoop codec n rest (ents ++ [e])

def unmarshalEntries (codec : EntryCodec) (data : Bytes) : Except WalError (List Entry) :=
  unmarshalLoop codec data.length data []

variable {codec : EntryCodec}

/-- The encodings of a list of entries. -/
def Encodings (codec : EntryCodec) (ents : List Entry) (bs : List Bytes) : Prop :=
  List.Forall₂ (fun e b => codec.marshal e = some b) ents bs

theorem Encodings.exists_marshal {ents : List Entry} {bs : List Bytes}
    (h : Encodings codec ents bs) {e : Entry} (he : e ∈ ents) :
    ∃ b, codec.marshal e = some b := by
  induction h with
  | nil => cases he
  | cons hb _ ih =>
      rcases List.mem_cons.mp he with rfl | he
      · exact ⟨_, hb⟩
      · exact ih he

theorem Encodings.exists_of_mem {ents : List Entry} {bs : List Bytes}
    (h : Encodings codec ents bs) {b : Bytes} (hb : b ∈ bs) :
    ∃ e ∈ ents, codec.marshal e = some b := by
  induction h with
  | nil => cases hb
  | cons hhead _ ih =>
      rcases List.mem_cons.mp hb with rfl | hb
      · exact ⟨_, List.mem_cons_self, hhead⟩
      · obtain ⟨e, he, hmarshal⟩ := ih hb
        exact ⟨e, List.mem_cons_of_mem _ he, hmarshal⟩

/-- A selection of encoded entries can be encoded again. -/
theorem Encodings.exists_of_subset {ents keep : List Entry} {bs : List Bytes}
    (h : Encodings codec ents bs) (hkeep : ∀ e ∈ keep, e ∈ ents) :
    ∃ bs', Encodings codec keep bs' := by
  induction keep with
  | nil => exact ⟨[], .nil⟩
  | cons e keep ih =>
      obtain ⟨b, hb⟩ := h.exists_marshal (hkeep e List.mem_cons_self)
      obtain ⟨bs', hbs'⟩ := ih fun e' he' => hkeep e' (List.mem_cons_of_mem e he')
      exact ⟨b :: bs', .cons hb hbs'⟩

/-- An entry has one encoding. -/
theorem Encodings.unique {ents : List Entry} {bs bs' : List Bytes} (h : Encodings codec ents bs)
    (h' : Encodings codec ents bs') : bs = bs' := by
  induction h generalizing bs' with
  | nil =>
      cases h'
      rfl
  | cons hb _ ih =>
      cases h' with
      | cons hb' htail =>
          obtain rfl := Option.some.inj (hb.symm.trans hb')
          rw [ih htail]

theorem marshalLoop_eq_ok_iff {ents : List Entry} {out data : Bytes} :
    marshalLoop codec ents out = .ok data ↔
      ∃ bs, Encodings codec ents bs ∧ data = out ++ frames bs := by
  induction ents generalizing out with
  | nil =>
      constructor
      · intro h
        exact ⟨[], .nil, by rw [frames_nil, List.append_nil]; exact (Except.ok.inj h).symm⟩
      · rintro ⟨bs, hbs, rfl⟩
        cases hbs
        rw [frames_nil, List.append_nil]
        rfl
  | cons e ents ih =>
      rw [marshalLoop]
      cases hb : codec.marshal e with
      | none =>
          constructor
          · intro h
            cases h
          · rintro ⟨bs, hbs, -⟩
            cases hbs with
            | cons hhead _ =>
                rw [hb] at hhead
                cases hhead
      | some b =>
          dsimp only
          rw [ih]
          constructor
          · rintro ⟨bs, hbs, rfl⟩
            exact ⟨b :: bs, .cons hb hbs, by rw [frames_cons, frame]; simp⟩
          · rintro ⟨bs, hbs, rfl⟩
            cases hbs with
            | @cons _ b' _ bs hhead htail =>
                obtain rfl := Option.some.inj (hb.symm.trans hhead)
                exact ⟨bs, htail, by rw [frames_cons, frame]; simp⟩

/-- What `marshalEntries` returns are the frames of the encodings. -/
theorem marshalEntries_eq_ok_iff {ents : List Entry} {data : Bytes} :
    marshalEntries codec ents = .ok data ↔
      ∃ bs, Encodings codec ents bs ∧ data = frames bs :=
  marshalLoop_eq_ok_iff

theorem unmarshalLoop_frames (hcodec : codec.Faithful) {ents : List Entry} {bs : List Bytes}
    (hbs : Encodings codec ents bs) (hlen : ∀ b ∈ bs, b.length < 2 ^ 32) {n : ℕ}
    (hn : (frames bs).length ≤ n) (acc : List Entry) :
    unmarshalLoop codec n (frames bs) acc = .ok (acc ++ ents) := by
  induction hbs generalizing n acc with
  | nil => cases n <;> simp [unmarshalLoop]
  | @cons e b ents bs hb hbs ih =>
      rw [frames_cons, List.length_append, frame, List.length_append, length_header] at hn
      obtain ⟨m, rfl⟩ : ∃ m, n = m + 1 := ⟨n - 1, by omega⟩
      have hne : frames (b :: bs) ≠ [] := by
        intro hnil
        have hzero := congrArg List.length hnil
        rw [frames_cons, List.length_append, frame, List.length_append, length_header] at hzero
        simp at hzero
      rw [unmarshalLoop, if_neg hne, frames_cons, read_frame_append (hlen b List.mem_cons_self)]
      dsimp only
      rw [hcodec e b hb]
      dsimp only
      rw [ih (fun b' hb' => hlen b' (List.mem_cons_of_mem b hb')) (by omega), List.append_assoc]
      rfl

/-- Decoding undoes encoding, if every encoding fits into a frame. -/
theorem unmarshalEntries_frames (hcodec : codec.Faithful) {ents : List Entry} {bs : List Bytes}
    (hbs : Encodings codec ents bs) (hlen : ∀ b ∈ bs, b.length < 2 ^ 32) :
    unmarshalEntries codec (frames bs) = .ok ents :=
  unmarshalLoop_frames hcodec hbs hlen le_rfl []

end StreamFlow.Raft
