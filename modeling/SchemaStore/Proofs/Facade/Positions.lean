import SchemaStore.Batch
import SchemaStore.Proofs.Shape.RoundTrip

/-!
# Answers place by place

The answer of a store to a read of several keys is matched with the keys place by place, whatever
the store has answered. At each place there is either a value for the key (`Batch.Fits`) or exactly
one thing wrong (`Batch.Fault`), and another name comes before a text that is no value. Values come
out if every place has one and nothing is left over; otherwise the failure is that of the first
place where something is wrong, and what is left over is looked at only after every place
(`Batch.decode_eq_error_iff`).
-/

namespace SchemaStore.Batch

variable {S : Schema} {ε : Type}

/-- What is answered at the place of a key, and what is read from it. -/
inductive Fits : Slot S → String × Option String → Prop
  /-- There is no entry under the key. -/
  | absent (k : S.Key) : Fits ⟨k, none⟩ (Schema.name k, none)
  /-- There is a text, which is decoded. -/
  | present {k : S.Key} {v : S.Val k} {raw : String}
      (h : Codec.decode (Schema.shape k) raw = .ok v) : Fits ⟨k, some v⟩ (Schema.name k, some raw)

/-- The answer at the place of a key is for the key, and its text, if there is one, is a value. -/
def IsFor (k : S.Key) (entry : String × Option String) : Prop :=
  entry.1 = Schema.name k ∧
    ∀ raw, entry.2 = some raw → ∃ v, Codec.decode (Schema.shape k) raw = .ok v

/-- What is wrong at the place of a key. -/
inductive Fault (k : S.Key) : Option (String × Option String) → Failure ε → Prop
  /-- The answer has ended. -/
  | ended : Fault k none (.batchMismatch (Schema.name k) Failure.endOfResponse)
  /-- The answer is for another name. -/
  | otherName {name : String} (h : name ≠ Schema.name k) (text : Option String) :
      Fault k (some (name, text)) (.batchMismatch (Schema.name k) name)
  /-- The text is no value of the key. -/
  | unreadable {raw : String} {c : Complaint}
      (h : Codec.decode (Schema.shape k) raw = .error c) :
      Fault k (some (Schema.name k, some raw)) (.decode (Schema.name k) c)

variable {k : S.Key} {keys : List S.Key} {entry : String × Option String}
  {answer : List (String × Option String)} {slot : Slot S} {slots : List (Slot S)} {f : Failure ε}

/-! ## One place -/

/-- At the place of a key an entry either yields a value or shows a fault. -/
theorem fits_or_fault (ε : Type) (k : S.Key) (entry : String × Option String) :
    (∃ v, Fits ⟨k, v⟩ entry) ∨ ∃ f : Failure ε, Fault k (some entry) f := by
  obtain ⟨name, text⟩ := entry
  by_cases hname : name = Schema.name k
  · subst hname
    cases text with
    | none => exact .inl ⟨none, .absent k⟩
    | some raw =>
      cases h : Codec.decode (Schema.shape k) raw with
      | ok v => exact .inl ⟨some v, .present h⟩
      | error c => exact .inr ⟨_, .unreadable h⟩
  · exact .inr ⟨_, .otherName hname text⟩

/-- An entry is for a key exactly if it has a value of the key or none. -/
theorem exists_fits_iff : (∃ v, Fits ⟨k, v⟩ entry) ↔ IsFor k entry := by
  constructor
  · rintro ⟨v, hfits⟩
    cases hfits with
    | absent => exact ⟨rfl, nofun⟩
    | present h =>
      refine ⟨rfl, fun raw hraw => ?_⟩
      cases hraw
      exact ⟨_, h⟩
  · obtain ⟨name, text⟩ := entry
    rintro ⟨rfl, htext⟩
    cases text with
    | none => exact ⟨none, .absent k⟩
    | some raw =>
      obtain ⟨v, hv⟩ := htext raw rfl
      exact ⟨some v, .present hv⟩

theorem Fits.not_fault (h : Fits slot entry) (f : Failure ε) : ¬ Fault slot.1 (some entry) f := by
  intro hf
  cases h with
  | absent =>
    cases hf with
    | otherName hname => exact hname rfl
  | present hv =>
    cases hf with
    | otherName hname => exact hname rfl
    | unreadable hc =>
      rw [hv] at hc
      cases hc

/-- A place has one fault only. A text is looked at after the name it stands under, so another name
leaves no room for an unreadable text. -/
theorem Fault.unique {place : Option (String × Option String)} {f f' : Failure ε}
    (h : Fault k place f) (h' : Fault k place f') : f = f' := by
  cases h with
  | ended =>
    cases h'
    rfl
  | otherName hname =>
    cases h' with
    | otherName => rfl
    | unreadable => exact absurd rfl hname
  | unreadable hc =>
    cases h' with
    | otherName hname => exact absurd rfl hname
    | unreadable hc' =>
      rw [hc] at hc'
      rw [Except.error.inj hc']

/-- A fault at the first place is the failure, whatever the later places hold. -/
theorem decode_of_fault {f : Failure ε} {k : S.Key} {answer : List (String × Option String)}
    (h : Fault k answer.head? f) (keys : List S.Key) :
    (decode (k :: keys) answer).value = .error f := by
  cases answer with
  | nil =>
    cases h
    rfl
  | cons entry rest =>
    cases h with
    | otherName hname text => rw [decode, if_pos hname]
    | unreadable hc =>
      rw [decode, if_neg (not_not_intro rfl), decodeSlot, decodeText, hc]
      rfl

theorem decode_of_fits (h : Fits slot entry) (keys : List S.Key)
    (rest : List (String × Option String)) :
    ((decode (slot.1 :: keys) (entry :: rest)).value : Except (Failure ε) _) =
      (decode keys rest).value.map (slot :: ·) := by
  cases h with
  | absent => rw [decode, if_neg (not_not_intro rfl), decodeSlot]
  | present hv =>
    rw [decode, if_neg (not_not_intro rfl), decodeSlot, decodeText, hv]
    rfl

/-! ## All places -/

/-- Some values come out exactly if the answer has them at the places of their keys, and neither a
key nor an entry is left over. -/
theorem decode_eq_ok_iff : (decode keys answer).value = (.ok slots : Except (Failure ε) _) ↔
    slots.map (·.1) = keys ∧ List.Forall₂ Fits slots answer := by
  constructor
  · intro h
    induction keys generalizing answer slots with
    | nil =>
      cases answer with
      | nil =>
        cases h
        exact ⟨rfl, .nil⟩
      | cons entry rest => cases h
    | cons k keys ih =>
      cases answer with
      | nil => cases h
      | cons entry rest =>
        rcases fits_or_fault ε k entry with ⟨v, hv⟩ | ⟨f, hf⟩
        · rw [decode_of_fits hv] at h
          obtain ⟨others, hothers, rfl⟩ := exists_of_map_ok h
          obtain ⟨hkeys, hfits⟩ := ih hothers
          exact ⟨congrArg (k :: ·) hkeys, .cons hv hfits⟩
        · rw [decode_of_fault hf] at h
          cases h
  · rintro ⟨rfl, h⟩
    induction h with
    | nil => rfl
    | cons hfits _ ih =>
      rw [List.map_cons, decode_of_fits hfits, ih]
      rfl

theorem exists_slots_iff :
    (∃ slots, slots.map (·.1) = keys ∧ List.Forall₂ Fits slots answer) ↔
      List.Forall₂ IsFor keys answer := by
  constructor
  · rintro ⟨slots, rfl, hfits⟩
    rw [List.forall₂_map_left_iff]
    exact hfits.imp fun slot entry h => exists_fits_iff.1 ⟨slot.2, h⟩
  · intro h
    induction h with
    | nil => exact ⟨[], rfl, .nil⟩
    | cons hentry _ ih =>
      obtain ⟨v, hv⟩ := exists_fits_iff.2 hentry
      obtain ⟨slots, hkeys, hfits⟩ := ih
      exact ⟨⟨_, v⟩ :: slots, congrArg (_ :: ·) hkeys, .cons hv hfits⟩

/-- What is wrong at the place with a given number. -/
def FaultAt (keys : List S.Key) (answer : List (String × Option String)) (i : Nat) (f : Failure ε) :
    Prop := ∃ k, keys[i]? = some k ∧ Fault k answer[i]? f

/-- Nothing is wrong at any place. -/
def Faultless (ε : Type) (keys : List S.Key) (answer : List (String × Option String)) : Prop :=
  ∀ i, ∀ f : Failure ε, ¬ FaultAt keys answer i f

/-- What is wrong at the first place where something is. -/
def FirstFault (keys : List S.Key) (answer : List (String × Option String)) (f : Failure ε) : Prop :=
  ∃ i, FaultAt keys answer i f ∧ ∀ j < i, ∀ f' : Failure ε, ¬ FaultAt keys answer j f'

theorem faultAt_zero : FaultAt (k :: keys) answer 0 f ↔ Fault k answer.head? f := by
  simp [FaultAt, List.head?_eq_getElem?]

theorem faultAt_succ {i : Nat} :
    FaultAt (k :: keys) answer (i + 1) f ↔ FaultAt keys answer.tail i f := by
  simp [FaultAt]

theorem firstFault_of_fault (h : Fault k answer.head? f) {f' : Failure ε} :
    FirstFault (k :: keys) answer f' ↔ f' = f := by
  constructor
  · rintro ⟨i, hfault, hfirst⟩
    cases i with
    | zero => exact (faultAt_zero.1 hfault).unique h
    | succ i => exact absurd (faultAt_zero.2 h) (hfirst 0 (Nat.succ_pos i) f)
  · rintro rfl
    exact ⟨0, faultAt_zero.2 h, fun j hj => absurd hj (Nat.not_lt_zero j)⟩

section Later

variable (hhead : ∀ f : Failure ε, ¬ Fault k answer.head? f)

include hhead

theorem faultless_cons :
    Faultless ε (k :: keys) answer ↔ Faultless ε keys answer.tail := by
  constructor
  · intro h i f hfault
    exact h (i + 1) f (faultAt_succ.2 hfault)
  · intro h i f hfault
    cases i with
    | zero => exact hhead f (faultAt_zero.1 hfault)
    | succ i => exact h i f (faultAt_succ.1 hfault)

/-- Where nothing is wrong at the first place, the first fault is that of the later places. -/
theorem firstFault_cons : FirstFault (k :: keys) answer f ↔ FirstFault keys answer.tail f := by
  constructor
  · rintro ⟨i, hfault, hfirst⟩
    cases i with
    | zero => exact absurd (faultAt_zero.1 hfault) (hhead f)
    | succ i =>
      refine ⟨i, faultAt_succ.1 hfault, fun j hj f' hj' => ?_⟩
      exact hfirst (j + 1) (Nat.succ_lt_succ hj) f' (faultAt_succ.2 hj')
  · rintro ⟨i, hfault, hfirst⟩
    refine ⟨i + 1, faultAt_succ.2 hfault, fun j hj f' hj' => ?_⟩
    cases j with
    | zero => exact hhead f' (faultAt_zero.1 hj')
    | succ j => exact hfirst j (Nat.lt_of_succ_lt_succ hj) f' (faultAt_succ.1 hj')

end Later

/-- The failure is the first fault there is. An entry left over after the last key is reported only
where every key has found its own. -/
theorem decode_eq_error_iff : (decode keys answer).value = .error f ↔ FirstFault keys answer f ∨
    Faultless ε keys answer ∧
      ∃ extra, answer[keys.length]? = some extra ∧
        f = .batchMismatch Failure.endOfResponse extra.1 := by
  induction keys generalizing answer with
  | nil =>
    -- without a key there is no place, so that only an entry left over can fail the answer
    have hnone : ∀ i, ∀ f' : Failure ε, ¬ FaultAt (S := S) [] answer i f' := by
      rintro i f' ⟨k, hk, -⟩
      cases hk
    have hnever : ¬ FirstFault (S := S) [] answer f := fun ⟨i, hfault, _⟩ => hnone i f hfault
    cases answer with
    | nil => simp [decode, hnever]
    | cons extra rest => simp [decode, hnever, Faultless, hnone, eq_comm]
  | cons k keys ih =>
    -- an answer that has ended is a fault of the first place as well
    have hhead : (∃ g : Failure ε, Fault k answer.head? g) ∨
        ∃ v entry rest, answer = entry :: rest ∧ Fits ⟨k, v⟩ entry := by
      cases answer with
      | nil => exact .inl ⟨_, .ended⟩
      | cons entry rest =>
        rcases fits_or_fault ε k entry with ⟨v, hv⟩ | hfault
        · exact .inr ⟨v, entry, rest, rfl, hv⟩
        · exact .inl hfault
    rcases hhead with ⟨g, hg⟩ | ⟨v, entry, rest, rfl, hv⟩
    · have hfault : ¬ Faultless ε (k :: keys) answer := fun h => h 0 g (faultAt_zero.2 hg)
      rw [decode_of_fault hg, firstFault_of_fault hg]
      simp [hfault, eq_comm]
    · have hnone : ∀ f' : Failure ε, ¬ Fault k (entry :: rest).head? f' := hv.not_fault
      rw [decode_of_fits hv, firstFault_cons hnone, faultless_cons hnone]
      rw [List.length_cons, List.getElem?_cons_succ, List.tail_cons, ← ih]
      cases (decode keys rest).value <;> simp [Except.map]

/-- Values are read exactly if every entry is for the key at its place and no key or entry is left
over, and then each place has its key with the value of its text. Otherwise the failure is that of
the first place where something is wrong, or, if there is none, the first entry left over. -/
theorem decode_positions (keys : List S.Key) (answer : List (String × Option String)) :
    ((∃ slots, (decode keys answer).value = (.ok slots : Except (Failure ε) _)) ↔
      List.Forall₂ IsFor keys answer) ∧
    (∀ slots, (decode keys answer).value = (.ok slots : Except (Failure ε) _) ↔
      slots.map (·.1) = keys ∧ List.Forall₂ Fits slots answer) ∧
    ∀ f : Failure ε, (decode keys answer).value = .error f ↔
      FirstFault keys answer f ∨
        Faultless ε keys answer ∧
          ∃ extra, answer[keys.length]? = some extra ∧
            f = .batchMismatch Failure.endOfResponse extra.1 := by
  refine ⟨?_, fun slots => decode_eq_ok_iff, fun f => decode_eq_error_iff⟩
  rw [← exists_slots_iff]
  exact exists_congr fun slots => decode_eq_ok_iff

end SchemaStore.Batch
