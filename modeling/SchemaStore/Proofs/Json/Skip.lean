import SchemaStore.Proofs.Json.SkipToken

/-!
# Skipping what can be read

Skipping a value gets as far as reading it (`Skip.value_of_read`), though the two go different ways.
The reader descends into a container and returns, while skipping keeps the open containers on a list
and takes one token at a time. `Skip.Moves` says that skipping gets from one place to another; it
counts the steps against the characters that are passed, so that the bound on the steps is never
met. A container is passed if each of its members is (`moves_items`, `moves_entries`).
-/

namespace SchemaStore.Skip

/-! ## Steps -/

/-- The step that finds the first member of a container passes no character. -/
def Stage.pending : Stage → Nat
  | .opened => 1
  | .value | .element => 0

/-- Skipping gets from one place to another, in at most two steps for each character it passes. -/
structure Moves (stage : Stage) (stack : List Bracket) (cs : List Char) (stage' : Stage)
    (stack' : List Bracket) (cs' : List Char) : Prop where
  suffix : cs' <:+ cs
  steps : ∃ k, k + (2 * cs'.length + stage'.pending) ≤ 2 * cs.length + stage.pending ∧
    ∀ n, run (n + k) stage stack cs = run n stage' stack' cs'

section Moves

variable {stage stage' stage'' : Stage} {stack stack' stack'' : List Bracket}
  {cs cs' cs'' rest tail : List Char}

/-- Two stretches make one, the steps of each being counted against its own characters. -/
theorem Moves.trans (h : Moves stage stack cs stage' stack' cs')
    (h' : Moves stage' stack' cs' stage'' stack'' cs'') :
    Moves stage stack cs stage'' stack'' cs'' := by
  obtain ⟨k, hk, hrun⟩ := h.steps
  obtain ⟨k', hk', hrun'⟩ := h'.steps
  refine ⟨h'.suffix.trans h.suffix, k' + k, by omega, fun n => ?_⟩
  rw [← Nat.add_assoc, hrun, hrun']

theorem moves_step (hsuffix : cs' <:+ cs)
    (hlength : 1 + (2 * cs'.length + stage'.pending) ≤ 2 * cs.length + stage.pending)
    (hrun : ∀ n, run (n + 1) stage stack cs = run n stage' stack' cs') :
    Moves stage stack cs stage' stack' cs' :=
  ⟨hsuffix, 1, hlength, hrun⟩

/-- Passing a value and nothing else is skipping it. -/
theorem value_of_moves (h : Moves .value [] cs .element [] rest) : value cs = .ok rest := by
  obtain ⟨k, hk, hrun⟩ := h.steps
  simp only [Stage.pending] at hk
  have hbound : 2 * cs.length + 2 = (2 * cs.length + 1 - k + 1) + k := by omega
  rw [value, hbound, hrun]
  rfl

theorem length_of_skipBlanks {c : Char} (h : Text.skipBlanks cs = c :: tail) (hrest : rest <:+ tail) :
    rest <:+ cs ∧ rest.length + 1 ≤ cs.length := by
  have htail : c :: tail <:+ cs := h ▸ Text.skipBlanks_suffix cs
  have hlength := htail.length_le
  have hle := hrest.length_le
  refine ⟨hrest.trans ((List.suffix_cons c tail).trans htail), ?_⟩
  rw [List.length_cons] at hlength
  omega

/-- A value without members is passed in one step. -/
theorem moves_plain (h : start cs = .ok (none, rest)) (stack : List Bracket) :
    Moves .value stack cs .element stack rest := by
  obtain ⟨c, tail, hcs, hrest⟩ := start_ok h
  obtain ⟨hsuffix, hlength⟩ := length_of_skipBlanks hcs hrest
  refine moves_step hsuffix (by simp only [Stage.pending]; omega) fun n => ?_
  rw [run, h]

theorem moves_open {b : Bracket} (h : start cs = .ok (some b, rest)) (stack : List Bracket) :
    Moves .value stack cs .opened (b :: stack) rest := by
  obtain ⟨c, tail, hcs, hrest⟩ := start_ok h
  obtain ⟨hsuffix, hlength⟩ := length_of_skipBlanks hcs hrest
  refine moves_step hsuffix (by simp only [Stage.pending]; omega) fun n => ?_
  rw [run, h]

/-! ## Members -/

/-- The character that closes a container. -/
def Bracket.closing : Bracket → Char
  | .list => ']'
  | .object => '\x7d'

/-- A closing bracket takes its container off the list, unless a value has to come first. -/
theorem moves_close {b : Bracket} (hstage : stage ≠ .value)
    (h : Text.skipBlanks cs = b.closing :: rest) : Moves stage (b :: stack) cs .element stack rest := by
  obtain ⟨hsuffix, hlength⟩ := length_of_skipBlanks h (List.suffix_refl rest)
  refine moves_step hsuffix (by simp only [Stage.pending]; omega) fun n => ?_
  cases stage with
  | value => exact absurd rfl hstage
  | opened | element => cases b <;> simp [run, h, Bracket.closing]

theorem moves_first_item {c : Char} (h : Text.skipBlanks cs = c :: tail) (hc : c ≠ ']') :
    Moves .opened (.list :: stack) cs .value (.list :: stack) (c :: tail) := by
  have hsuffix : c :: tail <:+ cs := h ▸ Text.skipBlanks_suffix cs
  have hlength := hsuffix.length_le
  refine moves_step hsuffix (by simp only [Stage.pending]; omega) fun n => ?_
  simp [run, h, hc]

theorem moves_next_item (h : Text.skipBlanks cs = ',' :: tail) :
    Moves .element (.list :: stack) cs .value (.list :: stack) tail := by
  obtain ⟨hsuffix, hlength⟩ := length_of_skipBlanks h (List.suffix_refl tail)
  refine moves_step hsuffix (by simp only [Stage.pending]; omega) fun n => ?_
  simp [run, h]

theorem moves_first_key (h : Text.skipBlanks cs = '"' :: tail) (hkey : key ('"' :: tail) = .ok rest)
    (hrest : rest <:+ tail) :
    Moves .opened (.object :: stack) cs .value (.object :: stack) rest := by
  obtain ⟨hsuffix, hlength⟩ := length_of_skipBlanks h hrest
  refine moves_step hsuffix (by simp only [Stage.pending]; omega) fun n => ?_
  simp [run, h, hkey]

theorem moves_next_key (h : Text.skipBlanks cs = ',' :: tail) (hkey : key tail = .ok rest)
    (hrest : rest <:+ tail) :
    Moves .element (.object :: stack) cs .value (.object :: stack) rest := by
  obtain ⟨hsuffix, hlength⟩ := length_of_skipBlanks h hrest
  refine moves_step hsuffix (by simp only [Stage.pending]; omega) fun n => ?_
  simp [run, h, hkey]

theorem colon_suffix (h : Container.colon cs = .ok rest) : rest <:+ cs := by
  unfold Container.colon at h
  split at h
  · cases h
  · next hcs =>
    cases h
    exact (length_of_skipBlanks hcs (List.suffix_refl _)).1
  · cases h

/-- A key that is read is skipped. -/
theorem key_of_token {k : String} {start mid : List Char} (h : Text.skipBlanks cs = '"' :: start)
    (hstring : Token.string start = .ok (k, mid)) (hcolon : Container.colon mid = .ok rest) :
    key cs = .ok rest ∧ rest <:+ start := by
  obtain ⟨s, hs, -⟩ := Read.map_ok hstring
  have hbody := stringBody_of_token hs
  refine ⟨?_, (colon_suffix hcolon).trans (stringBody_suffix hbody)⟩
  simp only [key, h, hbody, hcolon]

/-! ## What the reader does -/

theorem nextItem_first {start : List Char} (h : Container.nextItem true cs = .ok (some start)) :
    ∃ c tail, Text.skipBlanks cs = c :: tail ∧ c ≠ ']' ∧ start = c :: tail := by
  unfold Container.nextItem at h
  split at h
  · cases h
  · cases h
  · next c tail hc hcs =>
    cases h
    exact ⟨c, tail, hcs, hc, rfl⟩

theorem nextItem_later {start : List Char} (h : Container.nextItem false cs = .ok (some start)) :
    ∃ tail, Text.skipBlanks cs = ',' :: tail ∧ start = Text.skipBlanks tail := by
  unfold Container.nextItem at h
  split at h
  · cases h
  · cases h
  · next c tail _ hcs =>
    split at h
    · next hfirst => cases hfirst
    · split at h
      · next hcomma =>
        subst hcomma
        split at h
        · cases h
        · cases h
        · cases h
          exact ⟨tail, hcs, rfl⟩
      · cases h

theorem nextKey_end {first : Bool} (h : Container.nextKey first cs = .ok none) :
    ∃ tail, Text.skipBlanks cs = '\x7d' :: tail := by
  unfold Container.nextKey at h
  split at h
  · cases h
  · next tail hcs => exact ⟨tail, hcs⟩
  · split at h
    · split at h <;> cases h
    · split at h
      · split at h <;> cases h
      · cases h

theorem nextKey_first {start : List Char} (h : Container.nextKey true cs = .ok (some start)) :
    Text.skipBlanks cs = '"' :: start := by
  unfold Container.nextKey at h
  split at h
  · cases h
  · cases h
  · next c tail _ hcs =>
    split at h
    · split at h
      · next hquote =>
        cases h
        rw [hcs, hquote]
      · cases h
    · next hfirst => exact absurd rfl hfirst

theorem nextKey_later {start : List Char} (h : Container.nextKey false cs = .ok (some start)) :
    ∃ tail, Text.skipBlanks cs = ',' :: tail ∧ Text.skipBlanks tail = '"' :: start := by
  unfold Container.nextKey at h
  split at h
  · cases h
  · cases h
  · next c tail _ hcs =>
    split at h
    · next hfirst => cases hfirst
    · split at h
      · next hcomma =>
        subst hcomma
        split at h
        · cases h
        · next hkey =>
          cases h
          exact ⟨tail, hcs, hkey⟩
        · cases h
        · cases h
      · cases h

theorem closeList_ok (h : Container.closeList cs = (rest, none)) :
    Text.skipBlanks cs = ']' :: rest := by
  unfold Container.closeList at h
  split at h
  · cases h
  · next hcs =>
    cases h
    exact hcs
  · cases h
  · cases h

theorem closeObject_ok (h : Container.closeObject cs = (rest, none)) :
    Text.skipBlanks cs = '\x7d' :: rest := by
  unfold Container.closeObject at h
  split at h
  · cases h
  · next hcs =>
    cases h
    exact hcs
  · cases h
  · cases h

/-- Where skipping stands before a member. -/
def Stage.before (first : Bool) : Stage := if first then .opened else .element

/-- Where the reader goes to an item, skipping goes to a value. -/
theorem moves_nextItem {first : Bool} {start : List Char}
    (h : Container.nextItem first cs = .ok (some start)) (stack : List Bracket) :
    ∃ mid, Text.skipBlanks mid = start ∧
      Moves (.before first) (.list :: stack) cs .value (.list :: stack) mid := by
  cases first with
  | true =>
    obtain ⟨c, tail, hcs, hc, rfl⟩ := nextItem_first h
    have hskip := Text.skipBlanks_skipBlanks cs
    rw [hcs] at hskip
    exact ⟨c :: tail, hskip, moves_first_item hcs hc⟩
  | false =>
    obtain ⟨tail, hcs, rfl⟩ := nextItem_later h
    exact ⟨tail, rfl, moves_next_item hcs⟩

theorem moves_nextKey {first : Bool} {start mid : List Char} {k : String}
    (h : Container.nextKey first cs = .ok (some start)) (hkey : Token.string start = .ok (k, mid))
    (hcolon : Container.colon mid = .ok rest) (stack : List Bracket) :
    Moves (.before first) (.object :: stack) cs .value (.object :: stack) rest := by
  cases first with
  | true =>
    have hcs := nextKey_first h
    obtain ⟨hskip, hsuffix⟩ := key_of_token hcs hkey hcolon
    exact moves_first_key hcs (by rwa [key, hcs] at hskip) hsuffix
  | false =>
    obtain ⟨tail, hcs, htail⟩ := nextKey_later h
    obtain ⟨hskip, hsuffix⟩ := key_of_token htail hkey hcolon
    exact moves_next_key hcs hskip (length_of_skipBlanks htail hsuffix).1

/-- What is left after the items of a list is left of the list. -/
theorem suffix_of_items {α : Type} {item : List Char → Read α}
    (hitem : ∀ cs a rest, item cs = .ok (a, rest) → rest <:+ cs) {n : Nat} {first : Bool}
    {as : List α} (h : Container.items item n first cs = .ok (as, tail)) : tail <:+ cs := by
  induction n generalizing first cs as with
  | zero => cases h
  | succ n ih =>
    rcases Container.items_succ_ok h with ⟨-, -, rfl⟩ | ⟨start, a, later, as, hnext, ha, hlater, -⟩
    · exact List.suffix_refl _
    · obtain ⟨mid, rfl, hmoves⟩ := moves_nextItem hnext []
      have hstart := (Text.skipBlanks_suffix mid).trans hmoves.suffix
      exact (ih hlater).trans ((hitem _ a later ha).trans hstart)

theorem suffix_of_entries {α : Type} {value : List Char → Read α}
    (hvalue : ∀ cs a rest, value cs = .ok (a, rest) → rest <:+ cs) {n : Nat} {first : Bool}
    {m m' : SortedMap String α}
    (h : Container.entries (Container.mapEntry Token.string value) n first m cs = .ok (m', tail)) :
    tail <:+ cs := by
  induction n generalizing first cs m with
  | zero => cases h
  | succ n ih =>
    rcases Container.entries_succ_ok h with ⟨-, -, rfl⟩ | ⟨start, c, later, hnext, hentry, hlater⟩
    · exact List.suffix_refl _
    · obtain ⟨k, mid, text, v, hkey, hcolon, hv, -⟩ := Container.mapEntry_ok hentry
      have hmoves := moves_nextKey hnext hkey hcolon []
      exact (ih hlater).trans ((hvalue text v later hv).trans hmoves.suffix)

/-- The items of a list are passed, with the bracket that closes it, if each of them is. -/
theorem moves_items {α : Type} {item : List Char → Read α}
    (hblanks : ∀ cs, item (Text.skipBlanks cs) = item cs)
    (hitem : ∀ cs a rest, item cs = .ok (a, rest) →
      ∀ stack, Moves .value stack cs .element stack rest)
    {n : Nat} {first : Bool} {as : List α} (h : Container.items item n first cs = .ok (as, tail))
    (hclose : Text.skipBlanks tail = ']' :: rest) (stack : List Bracket) :
    Moves (.before first) (.list :: stack) cs .element stack rest := by
  induction n generalizing first cs as with
  | zero => cases h
  | succ n ih =>
    rcases Container.items_succ_ok h with ⟨-, -, rfl⟩ | ⟨start, a, later, as, hnext, ha, hlater, -⟩
    · exact moves_close (b := .list) (by cases first <;> nofun) hclose
    · obtain ⟨mid, rfl, hmoves⟩ := moves_nextItem hnext stack
      rw [hblanks] at ha
      exact (hmoves.trans (hitem mid a later ha _)).trans (ih hlater)

/-- The entries of an object are passed, with the brace that closes it, if each value is. -/
theorem moves_entries {α : Type} {value : List Char → Read α}
    (hvalue : ∀ cs a rest, value cs = .ok (a, rest) →
      ∀ stack, Moves .value stack cs .element stack rest)
    {n : Nat} {first : Bool} {m m' : SortedMap String α}
    (h : Container.entries (Container.mapEntry Token.string value) n first m cs = .ok (m', tail))
    (hclose : Text.skipBlanks tail = '\x7d' :: rest) (stack : List Bracket) :
    Moves (.before first) (.object :: stack) cs .element stack rest := by
  induction n generalizing first cs m with
  | zero => cases h
  | succ n ih =>
    rcases Container.entries_succ_ok h with ⟨-, -, rfl⟩ | ⟨start, c, later, hnext, hentry, hlater⟩
    · exact moves_close (b := .object) (by cases first <;> nofun) hclose
    · obtain ⟨k, mid, text, v, hkey, hcolon, hv, -⟩ := Container.mapEntry_ok hentry
      have hmoves := moves_nextKey hnext hkey hcolon stack
      exact (hmoves.trans (hvalue text v later hv _)).trans (ih hlater)

end Moves

/-! ## Values -/

theorem start_of_literalAs {letters : String} {a d : Document} {cs rest : List Char}
    (h : Token.literalAs letters a cs = .ok (d, rest)) :
    Token.literal letters.toList cs = .ok rest := by
  rw [Token.literalAs] at h
  split at h
  · next hliteral =>
    cases h
    exact hliteral
  · cases h

theorem start_plain {cs : List Char} {r : Except Fault (List Char)} {rest : List Char}
    (h : start cs = r.map fun rest => (none, rest)) (hr : r = .ok rest) :
    start cs = .ok (none, rest) := by
  rw [h, hr]
  rfl

/-- A value that opens no container is skipped as one token. -/
theorem start_of_read_zero {cs rest : List Char} {d : Document}
    (h : Document.read 0 cs = .ok (d, rest)) : start cs = .ok (none, rest) := by
  rw [Document.read.eq_def] at h
  dsimp only at h
  split at h
  · cases h
  · next hcs => exact start_plain (by rw [start, hcs]; rfl) (start_of_literalAs h)
  · next hcs => exact start_plain (by rw [start, hcs]; rfl) (start_of_literalAs h)
  · next hcs => exact start_plain (by rw [start, hcs]; rfl) (start_of_literalAs h)
  · next hcs =>
    obtain ⟨i, hi, -⟩ := Read.map_ok h
    exact start_plain (by rw [start, hcs]; rfl) (number_of_token hi)
  · next hcs =>
    obtain ⟨s, hs, -⟩ := Read.map_ok h
    obtain ⟨t, ht, -⟩ := Read.map_ok hs
    exact start_plain (by rw [start, hcs]; rfl) (stringBody_of_token ht)
  · cases h
  · cases h
  · next hcs =>
    split at h
    · next hdigit =>
      obtain ⟨i, hi, -⟩ := Read.map_ok h
      refine start_plain ?_ (number_of_token hi)
      simp_all [start]
    · cases h

/-- What the reader takes is passed, whatever containers are open around it. -/
theorem moves_of_read {depth : Nat} {cs rest : List Char} {d : Document}
    (h : Document.read depth cs = .ok (d, rest)) (stack : List Bracket) :
    Moves .value stack cs .element stack rest := by
  induction depth generalizing cs rest d stack with
  | zero => exact moves_plain (start_of_read_zero h) stack
  | succ depth ih =>
    have hvalue : ∀ cs d rest, Document.read depth cs = .ok (d, rest) →
        ∀ stack, Moves .value stack cs .element stack rest := fun _ _ _ => ih
    cases Document.readBy_of_read h with
    | plain always => exact moves_plain (start_of_read_zero (always 0)) stack
    | text start body =>
      obtain ⟨t, ht, -⟩ := Read.map_ok body
      exact moves_plain (start_plain (by rw [Skip.start, start]; rfl) (stringBody_of_token ht)) stack
    | @items _ _ inner _ start body =>
      obtain ⟨tail, hitems, hclose⟩ := Container.enclose_ok body
      have hopen : Skip.start cs = .ok (some .list, inner) := by
        rw [Skip.start, start]
        rfl
      have hmembers : Moves (.before true) (.list :: stack) inner .element stack rest :=
        moves_items (Document.read_skipBlanks depth) hvalue hitems (closeList_ok hclose) stack
      exact (moves_open hopen stack).trans hmembers
    | @fields _ _ inner _ start body =>
      obtain ⟨tail, hentries, hclose⟩ := Container.enclose_ok body
      have hopen : Skip.start cs = .ok (some .object, inner) := by
        rw [Skip.start, start]
        rfl
      have hmembers : Moves (.before true) (.object :: stack) inner .element stack rest :=
        moves_entries hvalue hentries (closeObject_ok hclose) stack
      exact (moves_open hopen stack).trans hmembers

/-- Skipping a value leaves what reading it leaves. -/
theorem value_of_read {depth : Nat} {cs rest : List Char} {d : Document}
    (h : Document.read depth cs = .ok (d, rest)) : value cs = .ok rest :=
  value_of_moves (moves_of_read h [])

end SchemaStore.Skip
