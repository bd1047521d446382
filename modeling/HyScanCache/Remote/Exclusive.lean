import HyScanCache.Lib.Lts
import HyScanCache.Remote.Client
import HyScanCache.PlainBuffer

/-!
# Exclusive use of the transport

Calls of one client, each a program of its own, take their operations in any order, and uRPC may refuse any of
them: the system `calls`.  The state remembers of every call whether it has acquired the lock and whether it
has executed `urpc_client_unlock`, of every parameter of the request which call has set it, and whose execution
the reply is of.

A program *waits* if it ends, or locks the transport next and then owns it; one that *owns* the transport sets
the parameters its procedure needs before it has the procedure executed, reads the reply after, and unlocks the
transport once, at its end (`Owns`).  The calls of a client wait (`ClientCall.waits`).  Owning is of no use to a
program whose lock returned `NULL`: it goes to `exit` as well, and unlocks.  As long as no lock returns `NULL`
the transport is used by one call at a time (`exclusive_use`); else it may be used by two (`shared_use`).
-/

namespace HyScanCache.Remote

open Lib

variable {β : Type}

/-! ### Programs that use the transport alone -/

/-- The parameters a procedure reads. -/
def Proc.params : Proc → List Param
  | .version => []
  | .set => [.key, .detail, .data]
  | .get => [.key, .detail]

/-- The program owns the transport: it has set the parameters `ps`, and has executed a procedure if `x`.  It ends
before the label `exit`, or goes on to it and unlocks the transport. -/
def Owns {α : Type} (unlocks : Bool) (ps : List Param) (x : Bool) : ClientProg α → Prop
  | .ret _ => unlocks = false
  | .op .lock _ => False
  | .op .unlock k => unlocks = true ∧ ∃ r, k () = .ret r
  | .op (.setUint64 p _) k => Owns unlocks (p :: ps) x (k true) ∧ Owns unlocks ps x (k false)
  | .op (.reserve p _) k => Owns unlocks (p :: ps) x (k true) ∧ Owns unlocks ps x (k false)
  | .op (.write p _ _) k => p ∈ ps ∧ Owns unlocks ps x (k ())
  | .op (.exec proc) k => proc.params ⊆ ps ∧ Owns unlocks ps true (k true) ∧ Owns unlocks ps x (k false)
  | .op (.getUint32 _) k => x = true ∧ ∀ a, Owns unlocks ps x (k a)
  | .op (.getData _) k => x = true ∧ ∀ a, Owns unlocks ps x (k a)

/-- The program ends, or locks the transport and owns it when it is granted. -/
def Waits {α : Type} (p : ClientProg α) : Prop :=
  (∃ r, p = .ret r) ∨ ∃ k, p = .op .lock k ∧ Owns true [] false (k true)

section Owns

variable {α γ : Type} {u x : Bool} {ps : List Param}

theorem Owns.exit {p : ClientProg α} (h : Owns false ps x p) (f : α → γ) :
    Owns true ps x (p >>= fun r => Prog.op ClientOp.unlock fun _ => Prog.ret (f r)) := by
  induction p generalizing ps x with
  | ret r => exact ⟨rfl, f r, rfl⟩
  | op o k ih =>
    cases o with
    | lock => exact h
    | unlock => exact absurd h.1 (by decide)
    | setUint64 p v => exact ⟨ih _ h.1, ih _ h.2⟩
    | reserve p n => exact ⟨ih _ h.1, ih _ h.2⟩
    | write p n src => exact ⟨h.1, ih _ h.2⟩
    | exec proc => exact ⟨h.1, ih _ h.2.1, ih _ h.2.2⟩
    | getUint32 p => exact ⟨h.1, fun a => ih _ (h.2 a)⟩
    | getData p => exact ⟨h.1, fun a => ih _ (h.2 a)⟩

theorem Owns.ne_lock {o : ClientOp} {k : o.Ans → ClientProg α} (hp : Owns u ps x (.op o k)) : o ≠ .lock := by
  rintro rfl
  exact hp

theorem Owns.next {o : ClientOp} {k : o.Ans → ClientProg α}
    (hp : Owns u ps x (.op o k)) (hu : o ≠ .unlock) (a : o.Ans) : ∃ ps x, Owns u ps x (k a) := by
  cases o with
  | lock => exact hp.elim
  | unlock => exact absurd rfl hu
  | setUint64 | reserve =>
    cases a with
    | true => exact ⟨_, _, hp.1⟩
    | false => exact ⟨_, _, hp.2⟩
  | write => exact ⟨_, _, hp.2⟩
  | exec =>
    cases a with
    | true => exact ⟨_, _, hp.2.1⟩
    | false => exact ⟨_, _, hp.2.2⟩
  | getUint32 | getData => exact ⟨_, _, hp.2 a⟩

theorem Owns.copyParts (hp : .data ∈ ps) {f : Unit → ClientProg α} (h : Owns u ps x (f ())) (data1 data2 : Bytes) :
    Owns u ps x (copyParts data1 data2 >>= f) := by
  have h2 : ∀ n, Owns u ps x (Prog.op (ClientOp.write .data n data2) f) := fun n => ⟨hp, h⟩
  unfold Remote.copyParts
  by_cases c1 : guint32Size data1 > 0 <;> by_cases c2 : guint32Size data2 > 0
  · simpa [c1, c2] using ⟨hp, h2 _⟩
  · simpa [c1, c2] using ⟨hp, h⟩
  · simpa [c1, c2] using h2 _
  · simpa [c1, c2] using h

theorem owns_clientSetLocked [HyScanBuffer β] (c : SetCall β) : Owns false [] false (clientSetLocked c) := by
  refine ⟨⟨⟨Owns.copyParts (by decide) ?_ _ _, rfl⟩, rfl⟩, rfl⟩
  refine ⟨by decide, ⟨rfl, ?_⟩, rfl⟩
  intro a
  cases a <;> rfl

theorem owns_clientGetLocked [HyScanBufferWrap β] (c : GetCall β) : Owns false [] false (clientGetLocked c) := by
  refine ⟨⟨⟨by decide, ⟨rfl, ?_⟩, rfl⟩, rfl⟩, rfl⟩
  intro a
  cases a with
  | none => rfl
  | some execStatus =>
    by_cases hs : execStatus = HYSCAN_CACHE_RPC_STATUS_OK
    · subst hs
      refine ⟨rfl, ?_⟩
      intro a
      cases a <;> rfl
    · simp [hs, Owns]

end Owns

theorem waits_session {α γ : Type} {locked : ClientProg α} (h : Owns false [] false locked) (refused : α)
    (f : α → γ) : Waits (session locked refused >>= fun r => .ret (f r)) := by
  refine .inr ⟨_, rfl, ?_⟩
  have hassoc := Prog.bind_assoc locked (fun r => (Prog.op ClientOp.unlock fun _ => Prog.ret r : ClientProg α))
    fun r => Prog.ret (f r)
  exact (congrArg (Owns true [] false) hassoc).mpr (h.exit f)

/-- A call of a client. -/
inductive ClientCall (β : Type) where
  | set (c : SetCall β)
  | get (c : GetCall β)

/-- The program of a call; a `set` returns no buffers. -/
def ClientCall.program [HyScanBufferWrap β] [URpc] (connected : Bool) :
    ClientCall β → ClientProg (Bool × Option (Buffers β))
  | .set c => do
    let status ← clientSet connected c
    return (status, none)
  | .get c => do
    let (status, bufs) ← clientGet connected c
    return (status, some bufs)

theorem ClientCall.waits [HyScanBufferWrap β] [URpc] (connected : Bool) (call : ClientCall β) :
    Waits (call.program connected) := by
  cases connected with
  | false => cases call <;> exact .inl ⟨_, rfl⟩
  | true =>
    cases call with
    | set c =>
      rw [ClientCall.program, clientSet_eq]
      split
      · exact .inl ⟨_, rfl⟩
      · exact waits_session (owns_clientSetLocked c) _ _
    | get c =>
      rw [ClientCall.program, clientGet_eq]
      split
      · exact .inl ⟨_, rfl⟩
      · exact waits_session (owns_clientGetLocked c) _ _

/-! ### The state of a client -/

/-- The state of a client with its calls. -/
structure World (β : Type) where
  locked : Bool
  transport : Transport
  /-- What the calls that were started have yet to do. -/
  calls : ℕ → Option (ClientProg (Bool × Option (Buffers β)))
  /-- The call has acquired the lock. -/
  acquired : ℕ → Bool
  /-- The call has executed `urpc_client_unlock`. -/
  released : ℕ → Bool
  /-- The call that was the last to change the parameter of the request. -/
  writer : Param → Option ℕ
  /-- The call whose execution the reply is of. -/
  executor : Option ℕ

/-- The call is between its successful lock and its own unlock. -/
def World.Inside (w : World β) (i : ℕ) : Prop := w.acquired i = true ∧ w.released i = false

/-- Where a call stands: it waits, it owns the transport, or it is over. -/
inductive World.Stands (w : World β) (i : ℕ) (p : ClientProg (Bool × Option (Buffers β))) : Prop
  | waits (ha : w.acquired i = false) (hr : w.released i = false) (h : Waits p)
  | owns (hi : w.Inside i) {ps : List Param} {x : Bool} (h : Owns true ps x p)
      (hw : ∀ q ∈ ps, w.writer q = some i) (hx : x = true → w.executor = some i)
  | ended (ha : w.acquired i = true) (hr : w.released i = true) (h : ∃ r, p = .ret r)

/-- **The invariant**: every call stands somewhere, and one at most is inside. -/
structure World.Sound (w : World β) : Prop where
  idle : ∀ i, w.calls i = none → w.acquired i = false ∧ w.released i = false
  stands : ∀ i p, w.calls i = some p → w.Stands i p
  locked : ∀ i, w.Inside i → w.locked = true
  unique : ∀ i j, w.Inside i → w.Inside j → i = j

section Sound

variable {w w' : World β} {i j : ℕ} {p : ClientProg (Bool × Option (Buffers β))}

theorem World.Stands.congr (h : w.Stands j p) (ha : w'.acquired j = w.acquired j)
    (hr : w'.released j = w.released j)
    (ht : w.Inside j → w'.writer = w.writer ∧ w'.executor = w.executor) : w'.Stands j p := by
  cases h with
  | waits ha' hr' h => exact .waits (ha.trans ha') (hr.trans hr') h
  | owns hi h hw hx =>
    obtain ⟨htw, htx⟩ := ht hi
    exact .owns ⟨ha.trans hi.1, hr.trans hi.2⟩ h (by rwa [htw]) (by rwa [htx])
  | ended ha' hr' h => exact .ended (ha.trans ha') (hr.trans hr') h

/-- One call moves: the others are not inside, and what is remembered of them stays. -/
theorem World.Sound.move (hs : w.Sound) (hothers : ∀ j, j ≠ i → ¬ w.Inside j)
    (hc : w'.calls = Function.update w.calls i (some p)) (ha : ∀ j, j ≠ i → w'.acquired j = w.acquired j)
    (hr : ∀ j, j ≠ i → w'.released j = w.released j) (hp : w'.Stands i p)
    (hl : w'.Inside i → w'.locked = true) : w'.Sound := by
  have hothers' : ∀ j, j ≠ i → ¬ w'.Inside j := by
    rintro j hj ⟨h1, h2⟩
    exact hothers j hj ⟨(ha j hj) ▸ h1, (hr j hj) ▸ h2⟩
  have hcalls : ∀ j, j ≠ i → w'.calls j = w.calls j := fun j hj => by rw [hc, Function.update_of_ne hj]
  have hinside : ∀ j, w'.Inside j → j = i := fun j h => by_contra fun hj => hothers' j hj h
  constructor
  · intro j hn
    have hj : j ≠ i := by
      rintro rfl
      rw [hc, Function.update_self] at hn
      cases hn
    rw [ha j hj, hr j hj]
    exact hs.idle j (by rw [← hcalls j hj, hn])
  · intro j q hq
    by_cases hj : j = i
    · subst hj
      rw [hc, Function.update_self] at hq
      cases hq
      exact hp
    · exact (hs.stands j q (by rw [← hcalls j hj, hq])).congr (ha j hj) (hr j hj)
        fun h => absurd h (hothers j hj)
  · intro j h
    obtain rfl := hinside j h
    exact hl h
  · intro j k hj hk
    rw [hinside j hj, hinside k hk]

/-- A call that performs an operation other than the lock is inside, and owns the transport. -/
theorem World.Sound.working (hs : w.Sound) {o : ClientOp} {k : o.Ans → ClientProg (Bool × Option (Buffers β))}
    (hc : w.calls i = some (.op o k)) (ho : o ≠ .lock) :
    w.Inside i ∧ ∃ ps x, Owns true ps x (.op o k) ∧ (∀ q ∈ ps, w.writer q = some i) ∧
      (x = true → w.executor = some i) := by
  cases hs.stands i _ hc with
  | waits _ _ hw =>
    rcases hw with ⟨r, hret⟩ | ⟨k', hlock, -⟩
    · cases hret
    · cases hlock
      exact absurd rfl ho
  | owns hi hp hw hx => exact ⟨hi, _, _, hp, hw, hx⟩
  | ended _ _ hret =>
    obtain ⟨r, hret⟩ := hret
    cases hret

theorem World.Sound.waiting (hs : w.Sound) {k : Bool → ClientProg (Bool × Option (Buffers β))}
    (hc : w.calls i = some (.op .lock k)) : w.released i = false ∧ Owns true [] false (k true) := by
  cases hs.stands i _ hc with
  | waits _ hr hw =>
    rcases hw with ⟨r, hret⟩ | ⟨k', hlock, hp⟩
    · cases hret
    · cases hlock
      exact ⟨hr, hp⟩
  | owns _ hp => exact hp.elim
  | ended _ _ hret =>
    obtain ⟨r, hret⟩ := hret
    cases hret

theorem World.Sound.acquire (hs : w.Sound) (hl : w.locked = false) (hr : w.released i = false)
    (hp : Owns true [] false p) :
    World.Sound { w with
      locked := true
      acquired := Function.update w.acquired i true
      calls := Function.update w.calls i (some p) } := by
  refine hs.move (i := i) ?_ rfl (fun j hj => Function.update_of_ne hj _ _) (fun _ _ => rfl) ?_ fun _ => rfl
  · intro j _ hj
    rw [hs.locked j hj] at hl
    cases hl
  · exact .owns ⟨Function.update_self .., hr⟩ hp (by simp) (by simp)

theorem World.Sound.release (hs : w.Sound) (hi : w.Inside i) (hp : ∃ r, p = .ret r) :
    World.Sound { w with
      locked := false
      released := Function.update w.released i true
      calls := Function.update w.calls i (some p) } := by
  refine hs.move (i := i) (fun j hj h => hj (hs.unique j i h hi)) rfl (fun _ _ => rfl)
    (fun j hj => Function.update_of_ne hj _ _) (.ended hi.1 (Function.update_self ..) hp) ?_
  intro h
  have hr : Function.update w.released i true i = false := h.2
  rw [Function.update_self] at hr
  cases hr

theorem World.Sound.work (hs : w.Sound) (hi : w.Inside i) {ps : List Param} {x : Bool} (hp : Owns true ps x p)
    {t : Transport} {writer : Param → Option ℕ} {executor : Option ℕ} (hw : ∀ q ∈ ps, writer q = some i)
    (hx : x = true → executor = some i) :
    World.Sound { w with
      transport := t
      calls := Function.update w.calls i (some p)
      writer := writer
      executor := executor } :=
  hs.move (fun j hj h => hj (hs.unique j i h hi)) rfl (fun _ _ => rfl) (fun _ _ => rfl)
    (.owns hi hp hw hx) fun _ => hs.locked i hi

end Sound

/-! ### Steps -/

section Steps

variable [URpc]

/-- The parameter of the request an operation changes. -/
def ClientOp.sets : ClientOp → Option Param
  | .setUint64 p _ | .reserve p _ | .write p _ _ => some p
  | _ => none

/-- The operation reads the reply. -/
def ClientOp.reads : ClientOp → Bool
  | .getUint32 _ | .getData _ => true
  | _ => false

/-- The call `i` gets the answer `a` to its operation `o`. -/
inductive World.Answers (w : World β) (i : ℕ) : (o : ClientOp) → o.Ans → World β → Prop
  /-- The lock is granted to one call at a time. -/
  | lock (h : w.locked = false) :
      Answers w i .lock true { w with locked := true, acquired := Function.update w.acquired i true }
  /-- The lock is released, whoever calls. -/
  | unlock : Answers w i .unlock () { w with locked := false, released := Function.update w.released i true }
  /-- The procedure is executed, with any reply. -/
  | exec (proc : Proc) (ok : Bool) (reply : URpcData) :
      Answers w i (.exec proc) ok { w with transport := { w.transport with reply := reply }, executor := some i }
  /-- The operation is done on the parameters. -/
  | perform {o : ClientOp} {a : o.Ans} {t : Transport} (hl : o ≠ .lock) (hu : o ≠ .unlock)
      (he : ∀ proc, o ≠ .exec proc) (h : w.transport.perform o = .ok (a, t)) :
      Answers w i o a { w with
        transport := t
        writer := fun p => if o.sets = some p then some i else w.writer p }
  /-- The operation is refused. -/
  | refuse {o : ClientOp} {a : o.Ans} (h : o.refusal = some a) : Answers w i o a w

theorem World.Sound.answer {w w' : World β} {i : ℕ} (hs : w.Sound) (hi : w.Inside i) {o : ClientOp}
    {k : o.Ans → ClientProg (Bool × Option (Buffers β))} {a : o.Ans} {ps : List Param} {x : Bool}
    (hp : Owns true ps x (.op o k)) (hw : ∀ q ∈ ps, w.writer q = some i) (hx : x = true → w.executor = some i)
    (h : w.Answers i o a w') : World.Sound { w' with calls := Function.update w.calls i (some (k a)) } := by
  cases h with
  | lock => exact hp.elim
  | unlock => exact hs.release hi hp.2
  | exec proc ok reply =>
    cases ok with
    | true => exact hs.work hi hp.2.1 hw fun _ => rfl
    | false => exact hs.work hi hp.2.2 hw fun _ => rfl
  | perform hl hu he h =>
    have hwriter : ∀ r, o.sets = some r ∨ r ∈ ps →
        (if o.sets = some r then some i else w.writer r) = some i := by
      intro r hr
      split
      · rfl
      · next hne => exact hw r (hr.resolve_left hne)
    cases o with
    | lock => exact absurd rfl hl
    | unlock => exact absurd rfl hu
    | exec proc => exact absurd rfl (he proc)
    | setUint64 q v =>
      cases h
      refine hs.work hi hp.1 (fun r hr => hwriter r ?_) hx
      exact (List.mem_cons.1 hr).imp (fun e => by rw [e, ClientOp.sets]) id
    | reserve q size =>
      cases h
      refine hs.work hi hp.1 (fun r hr => hwriter r ?_) hx
      exact (List.mem_cons.1 hr).imp (fun e => by rw [e, ClientOp.sets]) id
    | write q offset src => exact hs.work hi hp.2 (fun r hr => hwriter r (.inr hr)) hx
    | getUint32 q => exact hs.work hi (hp.2 a) (fun r hr => hwriter r (.inr hr)) hx
    | getData q => exact hs.work hi (hp.2 a) (fun r hr => hwriter r (.inr hr)) hx
  | refuse h =>
    cases o with
    | lock => exact hp.elim
    | unlock => cases h
    | write => cases h
    | exec proc =>
      cases h
      exact hs.work hi hp.2.2 hw hx
    | setUint64 q v =>
      cases h
      exact hs.work hi hp.2 hw hx
    | reserve q size =>
      cases h
      exact hs.work hi hp.2 hw hx
    | getUint32 q => exact hs.work hi (hp.2 a) hw hx
    | getData q => exact hs.work hi (hp.2 a) hw hx

variable [HyScanBufferWrap β]

/-- What a call does: it is started, or gets an answer. -/
inductive Act where
  | start
  | answer (o : ClientOp) (a : o.Ans)

/-- One step of the call `i`. -/
inductive World.Step (connected : Bool) : World β → ℕ × Act → World β → Prop
  | start {w : World β} {i : ℕ} (call : ClientCall β) (h : w.calls i = none) :
      Step connected w (i, .start)
        { w with calls := Function.update w.calls i (some (call.program connected)) }
  | answer {w w' : World β} {i : ℕ} {o : ClientOp} {k : o.Ans → ClientProg (Bool × Option (Buffers β))}
      {a : o.Ans} (hc : w.calls i = some (.op o k)) (h : w.Answers i o a w') :
      Step connected w (i, .answer o a) { w' with calls := Function.update w.calls i (some (k a)) }

/-- **The calls of one client.** -/
def calls (β : Type) [HyScanBufferWrap β] (connected : Bool) : Lts (World β) (ℕ × Act) where
  init w := w.locked = false ∧ (∀ i, w.calls i = none ∧ w.acquired i = false ∧ w.released i = false)
  tr := World.Step connected

variable {w w' : World β} {i : ℕ} {connected : Bool}

theorem World.Sound.start (hs : w.Sound) (call : ClientCall β) (h : w.calls i = none) :
    World.Sound { w with calls := Function.update w.calls i (some (call.program connected)) } := by
  have hcalls : ∀ j q, Function.update w.calls i (some q) j = none → w.calls j = none := by
    intro j q hj
    by_cases hji : j = i
    · rw [hji, h]
    · rwa [Function.update_of_ne hji] at hj
  refine ⟨fun j hn => hs.idle j (hcalls j _ hn), ?_, hs.locked, hs.unique⟩
  intro j q hq
  by_cases hji : j = i
  · subst hji
    obtain rfl : call.program connected = q := by simpa using hq
    obtain ⟨ha, hr⟩ := hs.idle j h
    exact .waits ha hr (call.waits connected)
  · have hq' : w.calls j = some q := by simpa [Function.update_of_ne hji] using hq
    exact (hs.stands j q hq').congr rfl rfl fun _ => ⟨rfl, rfl⟩

/-- No lock returns `NULL`. -/
def Granted (_ : World β) (e : ℕ × Act) : Prop := e.2 ≠ .answer .lock false

/-- **The invariant is kept** by every step but a lock that returns `NULL`. -/
theorem World.Sound.step (hs : w.Sound) {e : ℕ × Act} (hg : Granted w e) (ht : w.Step connected e w') :
    w'.Sound := by
  cases ht with
  | start call h => exact hs.start call h
  | @answer w' i o k a hc h =>
    by_cases ho : o = .lock
    · subst ho
      obtain ⟨hr, hp⟩ := hs.waiting hc
      cases h with
      | lock hl => exact hs.acquire hl hr hp
      | perform hl => exact absurd rfl hl
      | refuse h =>
        cases h
        exact absurd rfl hg
    · obtain ⟨hi, ps, x, hp, hw, hx⟩ := hs.working hc ho
      exact hs.answer hi hp hw hx h

theorem Reachable.sound (hr : ((calls β connected).guard Granted).Reachable w) : w.Sound := by
  refine Lts.Reachable.inv (L := (calls β connected).guard Granted) ?_
    (fun w e w' _ (hs : w.Sound) ht => hs.step ht.1 ht.2) hr
  rintro w ⟨-, h0⟩
  have hout : ∀ i, ¬ w.Inside i := by
    rintro i ⟨ha, -⟩
    rw [(h0 i).2.1] at ha
    cases ha
  refine ⟨fun i _ => (h0 i).2, ?_, fun i h => absurd h (hout i), fun i _ h => absurd h (hout i)⟩
  intro i p hp
  rw [(h0 i).1] at hp
  cases hp

/-- **Exclusive use**: as long as no lock returns `NULL`, a call unlocks the transport if and only if it has
locked it, one call at most is inside, only that one works on the transport, and what it has executed are its
own parameters, and what it reads is the reply to them. -/
theorem exclusive_use (hr : ((calls β connected).guard Granted).Reachable w) :
    (∀ i, w.released i = true → w.acquired i = true) ∧
    (∀ i r, w.calls i = some (.ret r) → w.released i = w.acquired i) ∧
    (∀ i j, w.Inside i → w.Inside j → i = j) ∧
    (∀ i o k, w.calls i = some (.op o k) → o ≠ .lock → w.Inside i) ∧
    (∀ i proc k, w.calls i = some (.op (.exec proc) k) → ∀ p ∈ proc.params, w.writer p = some i) ∧
    (∀ i o k, w.calls i = some (.op o k) → o.reads = true → w.executor = some i) := by
  have hs := Reachable.sound hr
  refine ⟨?_, ?_, hs.unique, ?_, ?_, ?_⟩
  · intro i h
    cases hc : w.calls i with
    | none => rw [(hs.idle i hc).2] at h; cases h
    | some p =>
      cases hs.stands i p hc with
      | waits _ hr => rw [hr] at h; cases h
      | owns hi => exact hi.1
      | ended ha => exact ha
  · intro i r hc
    cases hs.stands i _ hc with
    | waits ha hr => rw [ha, hr]
    | owns _ hp => cases hp
    | ended ha hr => rw [ha, hr]
  · intro i o k hc ho
    exact (hs.working hc ho).1
  · intro i proc k hc p hmem
    obtain ⟨-, ps, x, hp, hw, -⟩ := hs.working hc (by simp)
    exact hw p (hp.1 hmem)
  · intro i o k hc ho
    obtain ⟨-, ps, x, hp, -, hx⟩ := hs.working hc (by rintro rfl; cases ho)
    cases o with
    | getUint32 p => exact hx hp.1
    | getData p => exact hx hp.1
    | _ => cases ho

end Steps

/-! ### A lock that returns `NULL` -/

section Sample

local instance exclusiveURpc : URpc := plainURpc

/-- A `get` of a key, by a client. -/
def clientGetCall (key : UInt64) : ClientCall PlainBuffer :=
  .get { key, detail := 0, size1 := 4, bufs := fun _ => .empty, buffer1 := some 0, buffer2 := none }

/-- A client without a call. -/
def World.fresh : World PlainBuffer where
  locked := false
  transport := ⟨fun _ => none, fun _ => none⟩
  calls := fun _ => none
  acquired := fun _ => false
  released := fun _ => false
  writer := fun _ => none
  executor := none

theorem init_fresh : (calls PlainBuffer true).init World.fresh := ⟨rfl, fun _ => ⟨rfl, rfl, rfl⟩⟩

/-- Two calls are started, and the first one sets its parameters. -/
theorem exclusive_use_sample : ∃ w, ((calls PlainBuffer true).guard Granted).Reachable w ∧
    (∀ j, w.Inside j → 0 = j) ∧ ∀ p ∈ Proc.params .get, w.writer p = some 0 := by
  have h0 : ((calls PlainBuffer true).guard Granted).Run [] World.fresh := .nil init_fresh
  have h1 := h0.cons ⟨by simp [Granted], World.Step.start (i := 0) (clientGetCall 7) rfl⟩
  have h2 := h1.cons ⟨by simp [Granted], World.Step.start (i := 1) (clientGetCall 8) rfl⟩
  have h3 := h2.cons ⟨by simp [Granted], World.Step.answer (i := 0) rfl (.lock rfl)⟩
  have h4 := h3.cons ⟨by simp [Granted], World.Step.answer (i := 0) rfl (.perform nofun nofun nofun rfl)⟩
  have h5 := h4.cons ⟨by simp [Granted], World.Step.answer (i := 0) rfl (.perform nofun nofun nofun rfl)⟩
  have hu := exclusive_use ⟨_, h5⟩
  exact ⟨_, ⟨_, h5⟩, fun j hj => hu.2.2.1 0 j ⟨rfl, rfl⟩ hj, hu.2.2.2.2.1 0 _ _ rfl⟩

/-- **The transport is shared** after a lock returned `NULL`: the call `1`, which has not locked the transport,
unlocks it, the calls `0` and `2` are inside, and `0` goes on to execute a request for the key of `2`. -/
theorem shared_use : ∃ w k, (calls PlainBuffer true).Reachable w ∧
    (w.acquired 1 = false ∧ w.released 1 = true) ∧ (w.Inside 0 ∧ w.Inside 2) ∧
    w.calls 0 = some (.op (.exec .get) k) ∧ w.writer .key = some 2 ∧ w.transport.request.getUint64 .key = some 9 := by
  have h0 : (calls PlainBuffer true).Run [] World.fresh := .nil init_fresh
  have h1 := h0.cons (World.Step.start (i := 0) (clientGetCall 7) rfl)
  have h2 := h1.cons (World.Step.start (i := 1) (clientGetCall 8) rfl)
  have h3 := h2.cons (World.Step.start (i := 2) (clientGetCall 9) rfl)
  have h4 := h3.cons (World.Step.answer (i := 0) rfl (.lock rfl))
  have h5 := h4.cons (World.Step.answer (i := 0) rfl (.perform nofun nofun nofun rfl))
  have h6 := h5.cons (World.Step.answer (i := 0) rfl (.perform nofun nofun nofun rfl))
  have h7 := h6.cons (World.Step.answer (i := 1) (o := .lock) (a := false) rfl (.refuse rfl))
  have h8 := h7.cons (World.Step.answer (i := 1) rfl .unlock)
  have h9 := h8.cons (World.Step.answer (i := 2) rfl (.lock rfl))
  have h10 := h9.cons (World.Step.answer (i := 2) rfl (.perform nofun nofun nofun rfl))
  exact ⟨_, _, ⟨_, h10⟩, ⟨rfl, rfl⟩, ⟨⟨rfl, rfl⟩, ⟨rfl, rfl⟩⟩, rfl, rfl, rfl⟩

end Sample

end HyScanCache.Remote
