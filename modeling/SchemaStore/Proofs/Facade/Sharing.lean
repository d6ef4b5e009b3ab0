import SchemaStore.Proofs.Facade.TypedMap

/-!
# Facades that share a store

Two facades take turns on one store in memory. If their schemas have no key in common, neither of
them notices the other: what an operation gives depends on the entries under the keys of its own
schema alone (`Op.outcome_of_agree`), and so do these entries after it (`Op.agreeOn_run`), while an
operation through the other facade leaves them alone. So a run and what is left of it without the
other facade stay in agreement on the keys of the first one (`Turn.run_of_agree`).

The operations on the whole store are the exception. Listing all keys shows the entries of others,
and clearing the store removes them.
-/

namespace SchemaStore

variable {S T : Schema}

/-! ## Stores that agree on some keys -/

namespace MemoryStore

/-- The stores have the same texts under some keys. -/
def AgreeOn (keys : List String) (m m' : MemoryStore) : Prop :=
  ∀ key ∈ keys, m.get key = m'.get key

variable {keys : List String} {m m' : MemoryStore}

theorem AgreeOn.refl (keys : List String) (m : MemoryStore) : AgreeOn keys m m := fun _ _ => rfl

/-- One write keeps the agreement, under whatever key it writes. -/
theorem AgreeOn.write (h : AgreeOn keys m m') (w : Write) :
    AgreeOn keys (m.write w) (m'.write w) := by
  intro key hkey
  cases w with
  | put k text => simp only [MemoryStore.write, get_set, h key hkey]
  | remove k => simp only [MemoryStore.write, get_remove, h key hkey]
  | merge k text =>
    simp only [MemoryStore.write, get_merge]
    by_cases hk : key = k
    · subst hk
      rw [h key hkey]
    · rw [if_neg hk, if_neg hk]
      exact h key hkey
  | clear => rfl

theorem AgreeOn.after (h : AgreeOn keys m m') (c : Call) : AgreeOn keys (m.after c) (m'.after c) := by
  rw [after_eq_foldl, after_eq_foldl]
  induction c.writes generalizing m m' with
  | nil => exact h
  | cons w ws ih => exact ih (h.write w)

/-- Stores that agree on some keys list the same of them, in the same order. -/
theorem AgreeOn.filter_keys (h : AgreeOn keys m m') :
    m.entries.keys.filter (· ∈ keys) = m'.entries.keys.filter (· ∈ keys) := by
  have hentries : m.entries.entries.filter (fun e => e.1 ∈ keys) =
      m'.entries.entries.filter (fun e => e.1 ∈ keys) := by
    apply SortedMap.eq_of_lookup_eq
    · exact m.entries.ascending.filter _
    · exact m'.entries.ascending.filter _
    · intro key
      rw [SortedMap.lookup_filter (· ∈ keys), SortedMap.lookup_filter (· ∈ keys)]
      split
      · next hkey => exact h key (of_decide_eq_true hkey)
      · rfl
  rw [SortedMap.keys, SortedMap.keys, List.filter_map, List.filter_map]
  exact congrArg (List.map Prod.fst) hentries

end MemoryStore

/-! ## One operation -/

/-- What the caller of an operation sees of its reply: the answer and what is reported. -/
def Reply.shown {ε σ α : Type} (reply : Reply ε σ α) : Except ε α × List Event :=
  (reply.answer, reply.events)

/-- An operation with what it has given. -/
structure Op.Outcome (S : Schema) (ε : Type) where
  op : Op S
  answer : Except (Failure ε) op.Answer
  events : List Event

theorem Schema.key?_eq_none {name : String} (h : name ∉ S.names) : S.key? name = none := by
  rw [Schema.key?, List.findFinIdx?_eq_none_iff]
  intro d hd hname
  exact h (List.mem_map.2 ⟨d, hd, eq_of_beq hname⟩)

namespace Op

/-- The operation asks for nothing beyond the entries of its own schema. -/
def isScoped : Op S → Bool
  | .allKeys | .clear => false
  | _ => true

/-- What an operation gives. -/
def outcome {σ ε : Type} [RawStore σ ε] (op : Op S) (store : σ) : Outcome S ε :=
  ⟨op, (op.run store).answer, (op.run store).events⟩

/-- What some operations give, one after another. -/
def outcomes {σ ε : Type} [RawStore σ ε] : List (Op S) → σ → List (Outcome S ε)
  | [], _ => []
  | op :: rest, store => op.outcome store :: outcomes rest (op.run store).store

variable {m m' : MemoryStore}

theorem isClear_of_isScoped {op : Op S} (h : op.isScoped = true) : op.isClear = false := by
  cases op with
  | clear => cases h
  | _ => rfl

theorem declared_filter (keys : List String) :
    (declared keys : List S.Key) = declared (keys.filter (· ∈ S.names)) := by
  rw [declared, declared, List.filterMap_filter]
  apply List.filterMap_congr
  intro key _
  by_cases hkey : key ∈ S.names
  · simp [hkey]
  · simp [hkey, Schema.key?_eq_none]

section Shown

variable {α β : Type} {reply reply' : Reply (Failure Empty) MemoryStore α}

theorem shown_ask {c : Call} (h : m.answer c = m'.answer c) : (ask c m).shown = (ask c m').shown := by
  have hanswer : ∀ m : MemoryStore, (ask c m).shown = (.ok (m.answer c), []) := fun _ => rfl
  rw [hanswer, hanswer, h]

theorem shown_after (h : reply.shown = reply'.shown) (events : List Event) :
    (after events reply).shown = (after events reply').shown := by
  obtain ⟨answer, store, seen⟩ := reply
  obtain ⟨answer', store', seen'⟩ := reply'
  cases h
  rfl

theorem shown_interpret (h : reply.shown = reply'.shown)
    (f : α → Logged (Except (Failure Empty) β)) :
    (interpret f reply).shown = (interpret f reply').shown := by
  obtain ⟨answer, store, events⟩ := reply
  obtain ⟨answer', store', events'⟩ := reply'
  cases h
  cases answer <;> rfl

end Shown

/-- An operation gives the same on stores that agree on the keys of its schema. -/
theorem shown_run (h : m.AgreeOn S.names m') {op : Op S} (hop : op.isScoped = true) :
    (op.run m).shown = (op.run m').shown := by
  have hget : ∀ k : S.Key, m.get (Schema.name k) = m'.get (Schema.name k) := fun k =>
    h _ (List.mem_map_of_mem (List.get_mem _ k))
  apply shown_after
  cases op with
  | get k => exact shown_interpret (shown_ask (c := .get (Schema.name k)) (hget k)) _
  | getLegacy k => exact shown_interpret (shown_ask (c := .get (Schema.name k)) (hget k)) _
  | multiGet keys =>
    apply shown_interpret
    apply shown_ask
    apply List.map_congr_left
    intro key hkey
    obtain ⟨k, -, rfl⟩ := List.mem_map.1 hkey
    rw [hget k]
  | storedKeys =>
    have hbody : ∀ m : MemoryStore,
        (body (S := S) .storedKeys m).shown = (.ok (declared m.entries.keys), []) := fun _ => rfl
    rw [hbody, hbody, declared_filter, h.filter_keys, ← declared_filter]
  | set k v =>
    rw [body, body]
    split
    · rfl
    · exact shown_ask rfl
  | merge k v =>
    rw [body, body]
    split
    · rfl
    · exact shown_ask rfl
  | multiSet entries =>
    rw [body, body]
    split
    · rfl
    · exact shown_after (shown_ask rfl) _
  | multiMerge entries =>
    rw [body, body]
    split
    · rfl
    · exact shown_after (shown_ask rfl) _
  | remove k | multiRemove keys | flush => exact shown_ask rfl
  | allKeys | clear => cases hop

/-- What an operation gives depends on the entries of its own schema alone. -/
theorem outcome_of_agree (h : m.AgreeOn S.names m') {op : Op S} (hop : op.isScoped = true) :
    op.outcome m = op.outcome m' := by
  obtain ⟨hanswer, hevents⟩ := Prod.mk.inj (shown_run h hop)
  rw [outcome, hanswer, hevents]
  rfl

/-- An operation keeps the agreement of two stores on any keys, as it does the same to both. -/
theorem agreeOn_run {keys : List String} (h : m.AgreeOn keys m') (op : Op S) :
    (op.run m).store.AgreeOn keys (op.run m').store := by
  cases hcall : (op.call : Except (Failure Empty) Call) with
  | error f =>
    obtain ⟨events, hrun⟩ := run_of_refused hcall m
    obtain ⟨events', hrun'⟩ := run_of_refused hcall m'
    rw [hrun, hrun']
    exact h
  | ok c =>
    rw [(run_of_call hcall m).store_eq, (run_of_call hcall m').store_eq]
    exact h.after c

/-- An operation leaves the entries under keys of others alone, unless it clears the store. -/
theorem get_run_of_foreign {op : Op S} (hop : op.isScoped = true) {key : String}
    (hkey : key ∉ S.names) : (op.run m).store.get key = m.get key := by
  apply get_run_of_unnamed op (isClear_of_isScoped hop)
  intro k _ hname
  exact hkey (hname ▸ List.mem_map_of_mem (List.get_mem _ k))

end Op

/-! ## Taking turns -/

/-- An operation through one of two facades. -/
abbrev Turn (S T : Schema) : Type := Op S ⊕ Op T

namespace Turn

/-- The operation asks for nothing beyond the entries of its own schema. -/
def isScoped : Turn S T → Bool
  | .inl op => op.isScoped
  | .inr op => op.isScoped

section Runs

variable {σ ε : Type} [RawStore σ ε]

/-- The store after an operation through either facade. -/
def after (store : σ) : Turn S T → σ
  | .inl op => (op.run store).store
  | .inr op => (op.run store).store

/-- The store after some turns. -/
def afterAll (turns : List (Turn S T)) (store : σ) : σ := turns.foldl after store

/-- What the operations through the first facade give. -/
def outcomes : List (Turn S T) → σ → List (Op.Outcome S ε)
  | [], _ => []
  | .inl op :: rest, store => op.outcome store :: outcomes rest (op.run store).store
  | .inr op :: rest, store => outcomes rest (op.run store).store

end Runs

/-- What is left of some turns without those of the second facade. -/
def ofFirst (turns : List (Turn S T)) : List (Op S) := turns.filterMap Sum.getLeft?

variable {m m' : MemoryStore} {turns : List (Turn S T)}

/-- A run and what is left of it without the second facade, from stores that agree on the keys of the
first one. -/
theorem run_of_agree (hdisjoint : ∀ key ∈ S.names, key ∉ T.names)
    (hscoped : ∀ t ∈ turns, t.isScoped = true) (h : m.AgreeOn S.names m') :
    outcomes turns m = Op.outcomes (ofFirst turns) m' ∧
      (afterAll turns m).AgreeOn S.names (Op.afterAll (ofFirst turns) m') := by
  induction turns generalizing m m' with
  | nil => exact ⟨rfl, h⟩
  | cons t turns ih =>
    have ht := hscoped t List.mem_cons_self
    have hrest := fun t' ht' => hscoped t' (List.mem_cons_of_mem _ ht')
    cases t with
    | inl op =>
      obtain ⟨hanswers, hstores⟩ := ih hrest (Op.agreeOn_run h op)
      refine ⟨?_, hstores⟩
      rw [outcomes, hanswers, Op.outcome_of_agree h ht]
      rfl
    | inr op =>
      -- only the run with both facades goes on, and keeps what the first one sees
      apply ih hrest
      intro key hkey
      rw [Op.get_run_of_foreign ht (hdisjoint key hkey)]
      exact h key hkey

theorem get_afterAll_of_foreign (hscoped : ∀ t ∈ turns, t.isScoped = true) {key : String}
    (hS : key ∉ S.names) (hT : key ∉ T.names) : (afterAll turns m).get key = m.get key := by
  induction turns generalizing m with
  | nil => rfl
  | cons t turns ih =>
    have ht := hscoped t List.mem_cons_self
    have hrest := @ih (after m t) fun t' ht' => hscoped t' (List.mem_cons_of_mem _ ht')
    apply hrest.trans
    cases t with
    | inl op => exact Op.get_run_of_foreign ht hS
    | inr op => exact Op.get_run_of_foreign ht hT

/-- Two facades of schemas without a common key take turns on one store. Every operation of the first
one gives what it gives in the run without the second one, and afterwards the entries of the first
schema have the same texts as after that run. Entries that belong to neither schema keep theirs. -/
theorem unnoticed (hdisjoint : ∀ key ∈ S.names, key ∉ T.names) (m : MemoryStore)
    (turns : List (Turn S T)) (hscoped : ∀ t ∈ turns, t.isScoped = true) :
    outcomes turns m = Op.outcomes (ofFirst turns) m ∧
      (∀ k : S.Key, (afterAll turns m).get (Schema.name k) =
        (Op.afterAll (ofFirst turns) m).get (Schema.name k)) ∧
      ∀ key, key ∉ S.names → key ∉ T.names → (afterAll turns m).get key = m.get key := by
  obtain ⟨hanswers, hstores⟩ := run_of_agree hdisjoint hscoped (.refl S.names m)
  refine ⟨hanswers, fun k => ?_, fun key hS hT => get_afterAll_of_foreign hscoped hS hT⟩
  exact hstores _ (List.mem_map_of_mem (List.get_mem _ k))

end Turn

namespace Catalog

/-- The key of the token of a session. -/
def token : session.Key := ⟨0, by decide⟩

/-- Preferences and a session take turns. -/
def turns : List (Turn prefs session) :=
  [.inr (.set token "t"), .inl (.set launches ⟨3, by decide⟩), .inl .storedKeys,
    .inr (.multiRemove [token, token]), .inl (.get launches)]

/-- A store with an entry of each schema and one of neither. -/
def sharedStore : MemoryStore :=
  .ofList [("session.token", "u"), ("greeting", "hello"), ("color", "red")]

end Catalog

open Catalog in
theorem Turn.unnoticed_turns :
    outcomes turns sharedStore =
        Op.outcomes [.set launches ⟨3, by decide⟩, .storedKeys, .get launches] sharedStore ∧
      (afterAll turns sharedStore).get "greeting" =
        (Op.afterAll (ofFirst turns) sharedStore).get "greeting" ∧
      (afterAll turns sharedStore).get "color" = some "red" := by
  obtain ⟨houtcomes, hfirst, hforeign⟩ :=
    Turn.unnoticed (S := prefs) (T := session) (by decide) sharedStore turns (by decide)
  exact ⟨houtcomes, hfirst ⟨0, by decide⟩, hforeign "color" (by decide) (by decide)⟩

end SchemaStore
