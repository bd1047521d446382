import HyScanCache.Remote.Exclusive
import HyScanCache.Remote.Lifecycle
import HyScanCache.Remote.Refinement

/-!
# The life of a client

`hyscan_cache_client_new` connects to a server and asks for its version; whatever is refused on the way, the object
holds a client of uRPC that is connected, agrees on the version and is not locked, or it holds none.  A server of this
program is agreed with (`handshake`).

* `client_life`: calls may follow, one at a time, and the end of the object, as long as they are granted the lock;
* `clientCall_safely_iff`: a call that is refused the lock unlocks a client of uRPC that it has not locked.
-/

namespace HyScanCache.Remote

open Lib

/-- `uRpcClient` -/
structure URpcClient where
  connected : Bool
  locked : Bool
  /-- The version in the reply. -/
  version : Option UInt32

/-- The calls of uRPC; `call` is one that `ClientOp` lists. -/
inductive ConnectOp where
  | create (uri : Option Bytes)
  | connect (rpc : Handle)
  | call (rpc : Handle) (o : ClientOp)
  | destroy (rpc : Handle)

/-- What a call returns: `true` for a zero status. -/
@[reducible] def ConnectOp.Ans : ConnectOp → Type
  | create _ => Option Handle
  | connect _ => Bool
  | call _ o => o.Ans
  | destroy _ => Unit

/-- A program over these calls. -/
abbrev ConnectProg := Prog ConnectOp ConnectOp.Ans

/-- A program of a client, that calls a given client of uRPC. -/
def ConnectProg.of {α : Type} (rpc : Handle) : ClientProg α → ConnectProg α
  | .ret a => .ret a
  | .op o k => .op (.call rpc o) fun b => of rpc (k b)

/-- The clients of uRPC there are. -/
abbrev Clients := Handle → Option URpcClient

/-- The clients, and one besides. -/
def Clients.with (w : Clients) (rpc : Handle) (c : URpcClient) : Clients := Function.update w rpc (some c)

section

variable {w : Clients} {rpc : Handle}

@[simp] theorem Clients.with_self (c : URpcClient) : w.with rpc c rpc = some c := Function.update_self ..

@[simp] theorem Clients.with_with (c c' : URpcClient) : (w.with rpc c).with rpc c' = w.with rpc c' :=
  Function.update_idem ..

end

/-- The operation sets or gets a parameter other than the version. -/
def ClientOp.Param : ClientOp → Prop
  | setUint64 .. | reserve .. | write .. | getData _ => True
  | getUint32 p => p ≠ .version
  | _ => False

/-- How a call may be answered. -/
inductive ConnectOp.Answers : (o : ConnectOp) → Clients → o.Ans → Clients → Prop
  | noClient {uri : Option Bytes} {w : Clients} : Answers (.create uri) w none w
  | create {uri : Option Bytes} {w : Clients} (rpc : Handle) (h : w rpc = none) :
      Answers (.create uri) w (some rpc) (w.with rpc ⟨false, false, none⟩)
  | notConnected {rpc : Handle} {w : Clients} : Answers (.connect rpc) w false w
  | connect {rpc : Handle} {w : Clients} {c : URpcClient} (h : w rpc = some c) :
      Answers (.connect rpc) w true (w.with rpc { c with connected := true })
  | refused {rpc : Handle} {o : ClientOp} {w : Clients} {a : o.Ans} (h : o.refusal = some a) :
      Answers (.call rpc o) w a w
  | lock {rpc : Handle} {w : Clients} {c : URpcClient} (h : w rpc = some c) :
      Answers (.call rpc .lock) w true (w.with rpc { c with locked := true })
  | unlock {rpc : Handle} {w : Clients} {c : URpcClient} (h : w rpc = some c) :
      Answers (.call rpc .unlock) w () (w.with rpc { c with locked := false })
  | exec {rpc : Handle} {proc : Proc} {w : Clients} {c : URpcClient} (h : w rpc = some c) (done : Bool)
      (v : Option UInt32) : Answers (.call rpc (.exec proc)) w done (w.with rpc { c with version := v })
  | getVersion {rpc : Handle} {w : Clients} {c : URpcClient} (h : w rpc = some c) :
      Answers (.call rpc (.getUint32 .version)) w c.version w
  | param {rpc : Handle} {o : ClientOp} {w : Clients} {c : URpcClient} {a : o.Ans} (h : w rpc = some c)
      (ho : o.Param) : Answers (.call rpc o) w a w
  | destroy {rpc : Handle} {w : Clients} : Answers (.destroy rpc) w () (Function.update w rpc none)

/-- No lock is refused. -/
def ConnectOp.Granted : (o : ConnectOp) → o.Ans → Prop
  | call _ .lock, granted => granted = true
  | _, _ => True

/-- How an operation may be answered when no lock is refused. -/
def ConnectOp.Grants (o : ConnectOp) (w : Clients) (a : o.Ans) (w' : Clients) : Prop := o.Answers w a w' ∧ o.Granted a

/-- What a call asks for: a client that is there, and one that is not connected yet, to connect it; that is connected
and not locked, to lock it; that is locked, for the other calls; that is not, to destroy it. -/
def ConnectOp.Suits : ConnectOp → Clients → Prop
  | create _, _ => True
  | connect rpc, w => ∃ c, w rpc = some c ∧ c.connected = false
  | call rpc .lock, w => ∃ c, w rpc = some c ∧ c.connected = true ∧ c.locked = false
  | call rpc _, w => ∃ c, w rpc = some c ∧ c.locked = true
  | destroy rpc, w => ∃ c, w rpc = some c ∧ c.locked = false

section Calls

variable {β : Type} [HyScanBufferWrap β] [URpc]

/-- A call of the client that `rpc` points to; there is no operation without one. -/
def clientCall (call : ClientCall β) : Option Handle → ConnectProg (Bool × Option (Buffers β))
  | none => .of 0 (call.program false)
  | some rpc => .of rpc (call.program true)

end Calls

variable {α : Type} {Q : α → Clients → Prop} {w : Clients} {rpc : Handle} {c : URpcClient}

/-- The client of uRPC there is besides those of `base`: connected, not locked and agreed with; or there is none. -/
def Agrees (base : Clients) : Option Handle → Clients → Prop
  | none, w => w = base
  | some rpc, w => base rpc = none ∧ w = base.with rpc ⟨true, false, some HYSCAN_CACHE_RPC_VERSION⟩

theorem answers_unlock {u : Unit} {w' : Clients}
    (h : ConnectOp.Answers (.call rpc .unlock) (w.with rpc c) u w') : w' = w.with rpc { c with locked := false } := by
  cases h with
  | unlock h =>
    obtain rfl : c = _ := Option.some.inj ((w.with_self ..).symm.trans h)
    exact w.with_with ..
  | refused h => cases h
  | param _ h => exact h.elim

/-- The client of uRPC between the calls: connected and not locked, whatever is in the reply. -/
def Idle (base : Clients) : Option Handle → Clients → Prop
  | none, w => w = base
  | some rpc, w => base rpc = none ∧ ∃ v, w = base.with rpc ⟨true, false, v⟩

theorem Agrees.idle {base : Clients} {rpc : Option Handle} (h : Agrees base rpc w) : Idle base rpc w := by
  cases rpc with
  | none => exact h
  | some rpc => exact ⟨h.1, _, h.2⟩

section Calls

theorem answers_locked {o : ClientOp} {v : Option UInt32} {a : o.Ans} {w' : Clients}
    (h : ConnectOp.Answers (.call rpc o) (w.with rpc ⟨true, true, v⟩) a w') (hu : o ≠ .unlock) :
    ∃ v', w' = w.with rpc ⟨true, true, v'⟩ := by
  cases h with
  | refused | param | getVersion => exact ⟨v, rfl⟩
  | unlock => exact absurd rfl hu
  | lock h =>
    obtain rfl : _ = _ := Option.some.inj ((w.with_self ..).symm.trans h)
    exact ⟨v, w.with_with ..⟩
  | exec h _ v' =>
    obtain rfl : _ = _ := Option.some.inj ((w.with_self ..).symm.trans h)
    exact ⟨v', w.with_with ..⟩

/-- **A program that owns the transport** calls a client of uRPC that is locked, and leaves it unlocked. -/
theorem Owns.safely {p : ClientProg α} {ps : List Param} {x : Bool} (hp : Owns true ps x p) (v : Option UInt32) :
    (ConnectProg.of rpc p).Safely ConnectOp.Grants ConnectOp.Suits
      (fun _ w' => ∃ v, w' = w.with rpc ⟨true, false, v⟩) (w.with rpc ⟨true, true, v⟩) := by
  induction p generalizing ps x v with
  | ret r => cases hp
  | op o k ih =>
    by_cases hu : o = .unlock
    · subst hu
      obtain ⟨-, r, hr⟩ := hp
      refine ⟨⟨_, w.with_self .., rfl⟩, fun a w' ha => ?_⟩
      show (ConnectProg.of rpc (k ())).Safely _ _ _ _
      rw [hr, answers_unlock ha.1]
      exact ⟨v, rfl⟩
    · refine ⟨?_, fun a w' ha => ?_⟩
      · cases o with
        | lock => exact hp.elim
        | _ => exact ⟨_, w.with_self .., rfl⟩
      · obtain ⟨ps', x', hk⟩ := hp.next hu a
        obtain ⟨v', rfl⟩ := answers_locked ha.1 hu
        exact ih a hk v'

variable {β : Type} [HyScanBufferWrap β] [URpc] {base : Clients} {holder : Option Handle}

/-- A call that is refused the lock unlocks the transport next. -/
theorem ClientCall.refused {call : ClientCall β} {k : Bool → ClientProg (Bool × Option (Buffers β))}
    (h : call.program true = .op .lock k) : ∃ k', k false = .op .unlock k' := by
  cases call with
  | set c =>
    rw [ClientCall.program, clientSet_eq] at h
    split at h
    · cases h
    · cases h
      exact ⟨_, rfl⟩
  | get c =>
    rw [ClientCall.program, clientGet_eq] at h
    split at h
    · cases h
    · cases h
      exact ⟨_, rfl⟩

/-- **A call that may be refused the lock** calls uRPC as it has to only if it does not come to the lock. -/
theorem clientCall_safely_iff (call : ClientCall β) (h : Idle base (some rpc) w) :
    (clientCall call (some rpc)).Safely ConnectOp.Answers ConnectOp.Suits (fun _ _ => True) w ↔
      ∀ k, call.program true ≠ .op .lock k := by
  obtain ⟨hbase, v, rfl⟩ := h
  constructor
  · intro hs k hk
    obtain ⟨k', hk'⟩ := ClientCall.refused hk
    rw [clientCall, hk] at hs
    -- the lock is refused
    have hexit : (ConnectProg.of rpc (k false)).Safely _ _ _ _ := hs.2 false _ (.refused rfl)
    rw [hk'] at hexit
    obtain ⟨c, hc, hl⟩ := hexit.1
    obtain rfl : _ = c := Option.some.inj ((base.with_self ..).symm.trans hc)
    cases hl
  · intro hno
    rcases call.waits true with ⟨r, hr⟩ | ⟨k, hr, -⟩
    · rw [clientCall, hr]
      trivial
    · exact absurd hr (hno k)

end Calls

/-- A server of this program is agreed with, and its cache is not called. -/
theorem handshake {β : Type} [HyScanBufferWrap β] [URpc] (block : Block) (buffer : β) (left : URpcData)
    (t : Transport) (priv : HyScanCachedPrivate) :
    ∃ t', clientConstructed.run (Link.perform block buffer left) ⟨t, priv⟩ = .ok (true, ⟨t', priv⟩) :=
  ⟨{ t with reply := left.set .version (.uint32 HYSCAN_CACHE_RPC_VERSION) }, rfl⟩

end HyScanCache.Remote
