import SchemaStore.Catalog
import SchemaStore.Proofs.Codec.RoundTrip
import SchemaStore.Proofs.Facade.Run

/-!
# A facade as a typed map

A run of sets and removals treats every key by itself. What it did to the entry of a key is an
`Effect`: the last value put there, its removal, or nothing. A store has an effect (`Effect.Shown`)
if it holds a text of the last value, no text, or the text it held before the run. One change keeps
this for every key (`Effect.shown_write`), so a run does, and a read after the run is answered from
the effect alone.
-/

namespace SchemaStore

variable {S : Schema}

/-! ## Effects -/

/-- What a run did to one entry. -/
inductive Effect (α : Type)
  /-- Nothing. -/
  | untouched
  /-- The entry was removed last. -/
  | removed
  /-- The entry was put last, with this value. -/
  | written (v : α)

/-- An effect after another one, which it replaces unless it is none. -/
def Effect.andThen {α : Type} (before : Effect α) : Effect α → Effect α
  | .untouched => before
  | after => after

/-- What a change that is no merge does to the entry of a key. -/
def Change.effect (k : S.Key) : Change S → Effect (S.Val k)
  | .put ⟨k', v⟩ => if h : k' = k then .written (h ▸ v) else .untouched
  | .remove k' => if k' = k then .removed else .untouched
  | .clear => .removed
  | .merge _ => .untouched

namespace Op

/-- The operation merges values. -/
def isMerge : Op S → Bool
  | .merge .. | .multiMerge _ => true
  | _ => false

/-- The operation removes every entry. -/
def isClear : Op S → Bool
  | .clear => true
  | _ => false

/-- The keys and values an operation puts. -/
def puts : Op S → List S.Entry
  | .set k v => [⟨k, v⟩]
  | .multiSet entries => entries
  | _ => []

/-- The keys an operation names. -/
def keys : Op S → List S.Key
  | .get k | .getLegacy k | .set k _ | .remove k => [k]
  | .merge k _ => [k.val]
  | .multiGet keys | .multiRemove keys => keys
  | .multiSet entries => entries.map (·.1)
  | .multiMerge entries => entries.map (·.1.val)
  | .allKeys | .storedKeys | .clear | .flush => []

/-- The store after some operations. -/
def afterAll {σ ε : Type} [RawStore σ ε] (ops : List (Op S)) (store : σ) : σ :=
  ops.foldl (fun s op => (op.run s).store) store

/-- What some operations did to the entry of a key, after an earlier effect. -/
def effectFrom (k : S.Key) (ops : List (Op S)) (before : Effect (S.Val k)) : Effect (S.Val k) :=
  (ops.flatMap changes).foldl (fun e c => e.andThen (c.effect k)) before

/-- What some operations did to the entry of a key. -/
def effect (k : S.Key) (ops : List (Op S)) : Effect (S.Val k) := effectFrom k ops .untouched

/-- The answer to a read of a key. -/
def answerGet (k : S.Key) (m : MemoryStore) : Except (Failure Empty) (Option (S.Val k)) :=
  ((Op.get k).run m).answer

end Op

/-- The answer to a read of a key after an effect, given the answer before it. -/
def Effect.answer {α : Type} (before : Except (Failure Empty) (Option α)) :
    Effect α → Except (Failure Empty) (Option α)
  | .untouched => before
  | .removed => .ok none
  | .written v => .ok (some v)

/-- The value has a text that stands for it. -/
def Codec.ComesBack (s : Shape) (v : s.Val) : Prop :=
  ∃ text, encode s v = .ok text ∧ decode s text = .ok v

/-! ## Reads -/

theorem Op.answerGet_eq (k : S.Key) (m : MemoryStore) :
    answerGet k m = match m.get (Schema.name k) with
      | none => .ok none
      | some raw => (Batch.decodeText k raw).map some := by
  have hanswer : answerGet k m =
      (interpret (readValue k) (ask (.get (Schema.name k)) m) : Reply (Failure Empty) _ _).answer := rfl
  have hask : ask (.get (Schema.name k)) m =
      (⟨.ok (m.get (Schema.name k)), m, []⟩ : Reply (Failure Empty) MemoryStore (Option String)) := rfl
  rw [hanswer, hask]
  cases m.get (Schema.name k) <;> rfl

/-- The store shows an effect on the entry of a key, which had some text before. -/
def Effect.Shown (k : S.Key) (before : Option String) (m : MemoryStore) :
    Effect (S.Val k) → Prop
  | .untouched => m.get (Schema.name k) = before
  | .removed => m.get (Schema.name k) = none
  | .written v => ∃ text, m.get (Schema.name k) = some text ∧
      Codec.decode (Schema.shape k) text = .ok v

theorem Effect.answerGet_of_shown {k : S.Key} {e : Effect (S.Val k)} {m m' : MemoryStore}
    (h : e.Shown k (m.get (Schema.name k)) m') :
    Op.answerGet k m' = e.answer (Op.answerGet k m) := by
  rw [Op.answerGet_eq]
  cases e with
  | untouched =>
    rw [h, ← Op.answerGet_eq]
    rfl
  | removed =>
    rw [h]
    rfl
  | written v =>
    obtain ⟨text, htext, hdecode⟩ := h
    rw [htext]
    dsimp only
    rw [Batch.decodeText, hdecode]
    rfl

/-! ## One change -/

namespace Change

/-- A change that is no merge, of a value that comes back. -/
def IsPlain : Change S → Prop
  | .put e => Codec.ComesBack (Schema.shape e.1) e.2
  | .merge _ => False
  | .remove _ | .clear => True

/-- The key of a change, if it has one. -/
def key? : Change S → Option S.Key
  | .put e => some e.1
  | .merge e => some e.1.val
  | .remove k => some k
  | .clear => none

theorem eq_clear {c : Change S} (h : c.key? = none) : c = .clear := by
  cases c with
  | put e => cases h
  | merge e => cases h
  | remove k => cases h
  | clear => rfl

/-- A change of another entry leaves an entry as it is. -/
theorem get_write_of_ne {c : Change S} {w : Write} (h : c.write? = some w) {k : S.Key}
    (hk : c.key? = some k) {key : String} (hne : Schema.name k ≠ key) (m : MemoryStore) :
    (m.write w).get key = m.get key := by
  cases c with
  | put e =>
    cases hk
    obtain ⟨text, -, rfl⟩ := write?_put_eq h
    exact (m.get_set _ key text).trans (if_neg hne.symm)
  | merge e =>
    cases hk
    obtain ⟨text, -, rfl⟩ := write?_merge_eq h
    exact (m.get_merge _ key text).trans (if_neg hne.symm)
  | remove k' =>
    cases hk
    cases h
    exact (m.get_remove _ key).trans (if_neg hne.symm)
  | clear => cases hk

theorem effect_of_ne {c : Change S} {k k' : S.Key} (hk : c.key? = some k') (hne : k' ≠ k) :
    c.effect k = .untouched := by
  cases c with
  | put e =>
    cases hk
    exact dif_neg hne
  | merge e => rfl
  | remove k'' =>
    cases hk
    exact if_neg hne
  | clear => cases hk

end Change

namespace Effect

variable {k : S.Key} {before : Option String} {c : Change S} {w : Write}

theorem shown_write_here (hc : c.IsPlain) (hw : c.write? = some w) (hk : c.key? = some k)
    (e : Effect (S.Val k)) (m : MemoryStore) :
    (e.andThen (c.effect k)).Shown k before (m.write w) := by
  cases c with
  | put e' =>
    obtain ⟨k', v⟩ := e'
    cases hk
    obtain ⟨text, htext, rfl⟩ := Change.write?_put_eq hw
    obtain ⟨text', htext', hdecode⟩ := hc
    obtain rfl : text' = text := Except.ok.inj (htext'.symm.trans htext)
    have heffect : (Change.put ⟨k', v⟩).effect k' = .written v := dif_pos rfl
    rw [heffect]
    exact ⟨text', (m.get_set _ _ _).trans (if_pos rfl), hdecode⟩
  | merge e' => exact hc.elim
  | remove k' =>
    cases hk
    cases hw
    have heffect : (Change.remove k).effect k = .removed := if_pos rfl
    rw [heffect]
    exact (m.get_remove _ _).trans (if_pos rfl)
  | clear => cases hk

/-- A change shows its effect on every key. -/
theorem shown_write (hc : c.IsPlain) (hw : c.write? = some w) {e : Effect (S.Val k)}
    {m : MemoryStore} (he : e.Shown k before m) :
    (e.andThen (c.effect k)).Shown k before (m.write w) := by
  cases hkey : c.key? with
  | none =>
    obtain rfl := Change.eq_clear hkey
    cases hw
    exact MemoryStore.get_empty _
  | some k' =>
    by_cases hk : k' = k
    · exact shown_write_here hc hw (hk ▸ hkey) e m
    · have hget := Change.get_write_of_ne hw hkey (fun hname => hk (Schema.name_inj hname)) m
      have hframe : e.Shown k before (m.write w) := by
        cases e <;> simpa only [Shown, hget] using he
      rw [Change.effect_of_ne hkey hk]
      exact hframe

end Effect

/-! ## Whole runs -/

namespace Op

variable {m : MemoryStore}

theorem isPlain_of_puts {op : Op S} (hmerge : op.isMerge = false)
    (hputs : ∀ e ∈ op.puts, Codec.ComesBack (Schema.shape e.1) e.2) :
    ∀ c ∈ op.changes, c.IsPlain := by
  cases op with
  | set k v => exact List.forall_mem_singleton.2 (hputs _ List.mem_cons_self)
  | multiSet entries => exact List.forall_mem_map.2 hputs
  | remove k => exact List.forall_mem_singleton.2 trivial
  | multiRemove keys => exact List.forall_mem_map.2 fun _ _ => trivial
  | clear => exact List.forall_mem_singleton.2 trivial
  | merge k v => cases hmerge
  | multiMerge entries => cases hmerge
  | get k | getLegacy k | multiGet keys | allKeys | storedKeys | flush => exact nofun

theorem exists_write_of_isPlain {c : Change S} (h : c.IsPlain) : ∃ w, c.write? = some w := by
  cases c with
  | put e =>
    obtain ⟨text, htext, -⟩ := h
    exact ⟨.put (Schema.name e.1) text, by rw [Change.write?, htext]; rfl⟩
  | merge e => exact h.elim
  | remove k => exact ⟨_, rfl⟩
  | clear => exact ⟨_, rfl⟩

/-- After a run of sets and removals the store shows, for every key, what the run did to it. -/
theorem shown_afterAll {ops : List (Op S)} (h : ∀ op ∈ ops, ∀ c ∈ op.changes, c.IsPlain)
    {k : S.Key} {before : Option String} {e : Effect (S.Val k)} (he : e.Shown k before m) :
    (effectFrom k ops e).Shown k before (afterAll ops m) := by
  induction ops generalizing e m with
  | nil => exact he
  | cons op ops ih =>
    have hop := h op List.mem_cons_self
    obtain ⟨ws, hws, hrun⟩ := run_of_writable m fun c hc => exists_write_of_isPlain (hop c hc)
    have hshown := Change.foldl_related (R := fun e m => Effect.Shown k before m e) hws
      (fun c hc w hw e m he => Effect.shown_write (hop c hc) hw he) he
    rw [← hrun] at hshown
    have hrest := ih (fun op hop => h op (List.mem_cons_of_mem _ hop)) hshown
    rw [effectFrom, List.flatMap_cons, List.foldl_append]
    exact hrest

/-- An operation changes none but its own keys, unless it clears the store. -/
theorem key?_of_mem_changes {op : Op S} (hclear : op.isClear = false) {c : Change S}
    (hc : c ∈ op.changes) : ∃ k ∈ op.keys, c.key? = some k := by
  cases op with
  | set k v =>
    cases List.mem_singleton.1 hc
    exact ⟨k, List.mem_cons_self, rfl⟩
  | remove k =>
    cases List.mem_singleton.1 hc
    exact ⟨k, List.mem_cons_self, rfl⟩
  | merge k v =>
    cases List.mem_singleton.1 hc
    exact ⟨k.val, List.mem_cons_self, rfl⟩
  | multiSet entries =>
    obtain ⟨e, he, rfl⟩ := List.mem_map.1 hc
    exact ⟨e.1, List.mem_map_of_mem he, rfl⟩
  | multiMerge entries =>
    obtain ⟨e, he, rfl⟩ := List.mem_map.1 hc
    exact ⟨e.1.val, List.mem_map_of_mem he, rfl⟩
  | multiRemove keys =>
    obtain ⟨k, hk, rfl⟩ := List.mem_map.1 hc
    exact ⟨k, hk, rfl⟩
  | clear => cases hclear
  | get k | getLegacy k | multiGet keys | allKeys | storedKeys | flush => cases hc

/-- An operation leaves every entry it does not name as it is, unless it removes all of them. -/
theorem get_run_of_unnamed (op : Op S) {key : String} (hclear : op.isClear = false)
    (hkeys : ∀ k ∈ op.keys, Schema.name k ≠ key) : (op.run m).store.get key = m.get key := by
  rcases op.run_cases m with ⟨-, hsame⟩ | ⟨-, ws, hws, hrun⟩
  · rw [hsame]
  · rw [hrun]
    refine Change.foldl_related (R := fun (_ : Unit) m' => m'.get key = m.get key) hws
      (f := fun _ _ => ()) ?_ (a := ()) rfl
    intro c hc w hw _ m' hm'
    obtain ⟨k, hk, hkey⟩ := key?_of_mem_changes hclear hc
    exact (Change.get_write_of_ne hw hkey (hkeys k hk) m').trans hm'

theorem get_afterAll_of_unnamed {ops : List (Op S)} {key : String}
    (h : ∀ op ∈ ops, op.isClear = false ∧ ∀ k ∈ op.keys, Schema.name k ≠ key) :
    (afterAll ops m).get key = m.get key := by
  induction ops generalizing m with
  | nil => rfl
  | cons op ops ih =>
    obtain ⟨hclear, hkeys⟩ := h op List.mem_cons_self
    have hrest := @ih (op.run m).store fun op hop => h op (List.mem_cons_of_mem _ hop)
    exact hrest.trans (op.get_run_of_unnamed hclear hkeys)

end Op

/-! ## Reads of several keys -/

theorem Batch.decodeSlot_value {k : S.Key} {text : Option String} {v : Option (S.Val k)}
    (h : (match text with
      | none => .ok none
      | some raw => (decodeText k raw).map some : Except (Failure Empty) _) = .ok v) :
    (decodeSlot k text).value = (.ok ⟨k, v⟩ : Except (Failure Empty) _) := by
  cases text with
  | none =>
    cases h
    rfl
  | some raw =>
    obtain ⟨w, hw, rfl⟩ := exists_of_map_ok h
    rw [decodeSlot, hw]
    rfl

/-- What a store in memory answers is matched with the keys without a mismatch. -/
theorem Batch.decode_answers (m : MemoryStore) : ∀ {slots : List (Slot S)},
    (∀ slot ∈ slots, Op.answerGet slot.1 m = .ok slot.2) →
    (decode (slots.map (·.1)) ((names (slots.map (·.1))).map fun key => (key, m.get key))).value =
      (.ok slots : Except (Failure Empty) _)
  | [], _ => rfl
  | ⟨k, v⟩ :: slots, h => by
    -- the slot is decoded by the text that a read of its key would find
    have hslot := Op.answerGet_eq k m ▸ h ⟨k, v⟩ List.mem_cons_self
    have hvalue := decodeSlot_value hslot
    have hrest := decode_answers m fun slot hs => h slot (List.mem_cons_of_mem _ hs)
    rw [names] at hrest ⊢
    simp only [List.map_cons, decode]
    rw [if_neg (not_not_intro rfl)]
    generalize (decodeSlot k (m.get (Schema.name k)) : Logged (Except (Failure Empty) _)) = read at hvalue ⊢
    obtain ⟨value, events⟩ := read
    cases hvalue
    simp only [hrest]
    rfl

theorem Op.answer_multiGet (keys : List S.Key) (m : MemoryStore) :
    ((Op.multiGet keys).run m).answer =
      (Batch.decode keys ((Batch.names keys).map fun key => (key, m.get key))).value := rfl

/-- A run of sets and removals over a store in memory is answered like a typed map. A read of a key
gives the value that was put there last, nothing after a removal, and what it gave before the run if
the run did nothing to the key. A read of several keys gives what the reads of each of them give, in
the same order. Entries that no operation names keep their texts unless all entries are removed. -/
theorem Op.afterAll_refines (m : MemoryStore) (ops : List (Op S))
    (hmerge : ∀ op ∈ ops, op.isMerge = false)
    (hputs : ∀ op ∈ ops, ∀ e ∈ op.puts, Codec.ComesBack (Schema.shape e.1) e.2) :
    (∀ k : S.Key, answerGet k (afterAll ops m) = (effect k ops).answer (answerGet k m)) ∧
      (∀ slots : List (Batch.Slot S),
        (∀ slot ∈ slots, answerGet slot.1 (afterAll ops m) = .ok slot.2) →
          ((Op.multiGet (slots.map (·.1))).run (afterAll ops m)).answer = .ok slots) ∧
      ∀ key, (∀ op ∈ ops, op.isClear = false ∧ ∀ k ∈ op.keys, Schema.name k ≠ key) →
        (afterAll ops m).get key = m.get key := by
  have hplain : ∀ op ∈ ops, ∀ c ∈ op.changes, c.IsPlain := fun op hop =>
    isPlain_of_puts (hmerge op hop) (hputs op hop)
  refine ⟨fun k => ?_, fun slots hslots => ?_, fun key hkey => get_afterAll_of_unnamed hkey⟩
  · have hstart : Effect.untouched.Shown k (m.get (Schema.name k)) m := rfl
    exact Effect.answerGet_of_shown (shown_afterAll hplain hstart)
  · rw [answer_multiGet]
    exact Batch.decode_answers _ hslots

/-- The key `launches`. -/
def Catalog.launches : prefs.Key := ⟨2, by decide⟩

theorem Op.afterAll_refines_launches :
    answerGet Catalog.launches (afterAll
      [.remove Catalog.launches, .multiSet [⟨Catalog.launches, ⟨3, by decide⟩⟩,
        ⟨Catalog.launches, ⟨4, by decide⟩⟩]] (.ofList [("launches", "unread")])) =
      .ok (some ⟨4, by decide⟩) := by
  have hback : ∀ n : IntKind.u64.Val, Codec.ComesBack (Schema.shape Catalog.launches) n := fun n =>
    ⟨_, Codec.encode_tree (s := .int .u64) (j := .num (.int n.val)) rfl nofun,
      Codec.decode_of_reads nofun (Token.reads_integer .u64 n)⟩
  refine (afterAll_refines _ _ (by decide) fun op hop e he => ?_).1 Catalog.launches
  rcases List.mem_cons.1 hop with rfl | hop
  · cases he
  · cases List.mem_singleton.1 hop
    rcases List.mem_cons.1 he with rfl | he
    · exact hback _
    · cases List.mem_singleton.1 he
      exact hback _

end SchemaStore
