import SchemaStore.Store.Call

/-!
# A monitored store

`Monitored` stands between a facade and a store. It writes down the calls that arrive, makes the
calls of chosen names fail before they reach the store, and may bend the answer to a read of several
keys. It shows what a facade does when a store fails or answers wrongly.
-/

namespace SchemaStore

/-- The failures of a monitored store. -/
inductive MonitorError (ε : Type)
  /-- The call was made to fail. -/
  | quota
  /-- The store failed. -/
  | store (e : ε)
deriving DecidableEq

/-- How the answer to a read of several keys is bent. -/
structure Bend where
  /-- The answer that is given instead, as it stands. -/
  answer : Option (List (String × Option String))
  /-- The store's own answer is reversed. -/
  reverse : Bool

/-- A bent answer. -/
def Bend.apply (b : Bend) : (c : Call) → c.Answer → c.Answer
  | .multiGet _, answer =>
    b.answer.getD (if b.reverse then List.reverse answer else answer)
  | _, answer => answer

/-- A store with a record of the calls to it. -/
structure Monitored (σ : Type) where
  store : σ
  /-- The calls that arrived, in order. -/
  calls : List Call
  /-- Calls of these names fail. -/
  failing : List String
  bend : Bend

namespace Monitored

variable {σ ε : Type}

/-- A store whose calls pass unchanged. -/
def of (store : σ) : Monitored σ := ⟨store, [], [], ⟨none, false⟩⟩

/-- The call is made to fail; a star stands for every name. -/
def fails (m : Monitored σ) (c : Call) : Bool := m.failing.contains c.name || m.failing.contains "*"

instance [RawStore σ ε] : RawStore (Monitored σ) (MonitorError ε) where
  perform c m :=
    let noted := { m with calls := m.calls ++ [c] }
    if m.fails c then ⟨.error .quota, noted, []⟩
    else
      let reply := RawStore.perform c m.store
      ⟨(reply.answer.map (m.bend.apply c)).mapError .store, { noted with store := reply.store },
        reply.events⟩

end Monitored

end SchemaStore
