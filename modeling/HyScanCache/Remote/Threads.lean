import HyScanCache.Cached.Linearizable
import HyScanCache.Lib.Nested
import HyScanCache.Remote.Delivery

/-!
# What is done for a call of a client

A client waits for the reply, so that the thread of the server that runs the procedure is taken for the thread of the
client; what either of them does to its parameters concerns nobody else, and what they do to the cache they do by its
actions and under its locks.  So a call of a client is a program over the actions of the cache (`AnyCall.program`);
which operations of uRPC are refused on the way is left open.

A client makes one call at a time here, so that a call finds the transport of its client as the one before has left
it, and nobody waits for its lock.  Where the calls of a client are made by several threads (`calls`), the lock gives
each of them the transport for itself (`own_transport`).

* `makes_client`: it carries out one call of the cache, or none, and comes to what a session comes to;
* `run_client`: with nobody else about and nothing refused, it is the call of the remote cache.
-/

namespace HyScanCache.Remote

open Lib Cached

/-! ### The programs -/

section Programs

variable {β α : Type}

/-- What a call returned. -/
def statusOf : Answer β → Bool
  | .set status | .get status _ => status

/-- The buffers it left. -/
def buffersOf (bufs : Buffers β) : Answer β → Buffers β
  | .set _ => bufs
  | .get _ bufs => bufs

/-- Which of the operations that come are refused. -/
abbrev Refusals := ℕ → Bool

/-- They are refused after the first one. -/
def Refusals.tail (refused : Refusals) : Refusals := fun n => refused (n + 1)

variable [HyScanBufferWrap β] [URpc]

/-- A procedure, with its calls of the cache carried out. -/
def serveProgram (request : URpcData) : ServerProg β α → Refusals → URpcData → CachedProg β (α × URpcData)
  | .ret a, _, reply => .ret (a, reply)
  | .op (.getUint64 p) k, refused, reply => serveProgram request (k (request.getUint64 p)) refused.tail reply
  | .op (.getData p) k, refused, reply => serveProgram request (k (request.getData p)) refused.tail reply
  | .op (.setUint32 p v) k, refused, reply =>
    if refused 0 then
      serveProgram request (k false) refused.tail reply
    else
      serveProgram request (k true) refused.tail (reply.set p (.uint32 v))
  | .op (.reserve p size) k, refused, reply =>
    if refused 0 then
      serveProgram request (k none) refused.tail reply
    else
      let memory := reserve (reply.getData p) size
      serveProgram request (k (some memory)) refused.tail (reply.set p (.bytes memory))
  | .op (.write p memory) k, refused, reply =>
    serveProgram request (k ()) refused.tail (reply.set p (.bytes memory))
  | .op (.cacheSet c) k, refused, reply =>
    callProgram (.set c) >>= fun a => serveProgram request (k (statusOf a)) refused.tail reply
  | .op (.cacheGet c) k, refused, reply =>
    callProgram (.get c) >>= fun a => serveProgram request (k (statusOf a, buffersOf c.bufs a)) refused.tail reply

/-- What uRPC makes of a call of a client: the operations it refuses, on either side; whether it loses the reply; and
the thread of the server that runs the procedure, with its buffer and a reply without a status. -/
structure Conditions (β : Type) where
  refused : Refusals
  serverRefused : Refusals
  lost : Bool
  buffer : β
  left : URpcData
  hleft : left.getUint32 .status = none

/-- An operation that is the client's own business. -/
def ClientOp.own (o : ClientOp) (refused : Bool) (t : Transport) : Exec (o.Ans × Transport) :=
  match o.refusal, refused with
  | some a, true => .ok (a, t)
  | _, _ => t.perform o

/-- A program of a client, with its procedures carried out; nobody else uses the transport meanwhile. -/
def clientProgram (x : Conditions β) : ClientProg α → Refusals → Transport → CachedProg β (Exec (α × Transport))
  | .ret a, _, t => .ret (.ok (a, t))
  | .op (.exec proc) k, refused, t =>
    if refused 0 then
      clientProgram x (k false) refused.tail t
    else
      serveProgram t.request (Server.program x.buffer proc) x.serverRefused x.left >>= fun r =>
        clientProgram x (k (!x.lost)) refused.tail { t with reply := r.2 }
  | .op o k, refused, t =>
    match o.own (refused 0) t with
    | .error f => .ret (.error f)
    | .ok (a, t) => clientProgram x (k a) refused.tail t

/-- A call of a client; `connected` says that its `rpc` is not null. -/
def callClient (connected : Bool) : Call β → ClientProg (Answer β)
  | .set c => do
    let status ← clientSet connected c
    return .set status
  | .get c => do
    let (status, bufs) ← clientGet connected c
    return .get status bufs

/-- A call of the cache, or of a client that finds its transport as `t` and makes no other call meanwhile. -/
inductive AnyCall (β : Type) where
  | direct (c : Call β)
  | client (c : Call β) (connected : Bool) (t : Transport) (x : Conditions β)

/-- Its program. -/
def AnyCall.program : AnyCall β → CachedProg β (Exec (Answer β))
  | direct c => do
    let a ← callProgram c
    return .ok a
  | client c connected t x => do
    let r ← clientProgram x (callClient connected c) x.refused t
    return r.map Prod.fst

end Programs

/-! ### Procedures -/

section Procedures

variable {β α : Type} [HyScanBufferWrap β]

/-- The operation calls the cache. -/
def ServerOp.IsCall : ServerOp β → Prop
  | cacheSet _ | cacheGet _ => True
  | _ => False

/-- The procedure calls the cache once at most, with a payload below 2³² bytes. -/
def CallsOnce : ServerProg β α → Prop
  | .ret _ => True
  | .op (.cacheSet c) k => c.payload.length < 2 ^ 32 ∧ ∀ a, (k a).Uses fun o => ¬ o.IsCall
  | .op (.cacheGet _) k => ∀ a, (k a).Uses fun o => ¬ o.IsCall
  | .op _ k => ∀ a, CallsOnce (k a)

variable [URpc]

theorem callsOnce_program (buffer : β) (proc : Proc) : CallsOnce (Server.program buffer proc) := by
  cases proc with
  | version => exact fun _ => trivial
  | set =>
    intro key
    cases key with
    | none => exact fun _ => trivial
    | some key =>
      refine fun detail data => ⟨?_, fun status => ⟨id, fun _ => trivial⟩⟩
      show (givenBytes (data.map (wrap buffer)) ++ []).length < 2 ^ 32
      rw [List.append_nil]
      exact length_givenBytes_lt _
  | get =>
    intro key
    cases key with
    | none => exact fun _ => trivial
    | some key =>
      intro detail data
      cases data with
      | none => exact fun _ => trivial
      | some data =>
        rintro ⟨status, bufs⟩
        refine ⟨id, fun _ => ?_⟩
        cases status with
        | false => exact ⟨id, fun _ => trivial⟩
        | true =>
          refine ⟨id, fun data => ?_⟩
          cases data with
          | none => exact ⟨id, fun _ => trivial⟩
          | some data => exact ⟨id, fun _ => trivial⟩

/-- The call of the cache that a session makes, if it makes one, and where it leads. -/
inductive Happens : Option (Call β × Answer β) → HyScanCachedPrivate → HyScanCachedPrivate → List (Made β) → Prop
  | nothing {priv : HyScanCachedPrivate} : Happens none priv priv []
  | set {priv priv' : HyScanCachedPrivate} {c : SetCall β} {status : Bool} (block : Block)
      (h : callSet block priv c = .ok (status, priv')) :
      Happens (some (.set c, .set status)) priv priv' [.set priv c status]
  | get {priv priv' : HyScanCachedPrivate} {c : GetCall β} {status : Bool} {bufs : Buffers β}
      (h : callGet priv c = .ok (status, bufs, priv')) :
      Happens (some (.get c, .get status bufs)) priv priv' [.get priv c status bufs]

variable {request reply reply' : URpcData} {priv priv' : HyScanCachedPrivate} {calls l : List (Made β)}

theorem runs_plain {o : ServerOp β} {k : o.Ans → ServerProg β α} {a : o.Ans} {b : α} {j : Job β}
    (ho : ∀ block, ({ request, reply, priv } : Server.Serving).perform block o =
      .ok (a, { request, reply := reply', priv }))
    (hmade : o.made priv a = []) (hk : (k a).Runs Job.Answers (Job.at request reply' priv calls) b j) :
    (Prog.op o k).Runs Job.Answers (Job.at request reply priv calls) b j := by
  have h : Job.Answers o (Job.at request reply priv calls) a _ := .perform ⟨0, fun _ => 0⟩ .nil (ho _)
  rw [hmade, List.append_nil] at h
  exact .op h hk

theorem serve_rest {p : ServerProg β α} (request : URpcData) (hp : p.Uses fun o => ¬ o.IsCall) (refused : Refusals)
    (reply : URpcData) :
    ∃ a reply', serveProgram request p refused reply = .ret (a, reply') ∧ ∀ priv calls,
      p.Runs Job.Answers (Job.at request reply priv calls) a (Job.at request reply' priv calls) := by
  induction p generalizing refused reply with
  | ret a => exact ⟨a, reply, rfl, fun _ _ => .ret⟩
  | op o k ih =>
    cases o with
    | cacheSet | cacheGet => exact absurd trivial hp.1
    | getUint64 | getData | write =>
      obtain ⟨a, reply', he, hr⟩ := ih _ (hp.2 _) refused.tail _
      exact ⟨a, reply', he, fun priv calls => runs_plain (fun _ => rfl) rfl (hr priv calls)⟩
    | setUint32 p v =>
      rw [serveProgram]
      split
      · obtain ⟨a, reply', he, hr⟩ := ih false (hp.2 _) refused.tail reply
        exact ⟨a, reply', he, fun priv calls => .op (.refuse rfl) (hr priv calls)⟩
      · obtain ⟨a, reply', he, hr⟩ := ih true (hp.2 _) refused.tail _
        exact ⟨a, reply', he, fun priv calls => runs_plain (fun _ => rfl) rfl (hr priv calls)⟩
    | reserve p size =>
      rw [serveProgram]
      split
      · obtain ⟨a, reply', he, hr⟩ := ih none (hp.2 _) refused.tail reply
        exact ⟨a, reply', he, fun priv calls => .op (.refuse rfl) (hr priv calls)⟩
      · obtain ⟨a, reply', he, hr⟩ := ih (some _) (hp.2 _) refused.tail _
        exact ⟨a, reply', he, fun priv calls => runs_plain (fun _ => rfl) rfl (hr priv calls)⟩

/-- A call has a payload below 2³² bytes. -/
def CallFits (c : Call β) : Prop := ∀ c', c = .set c' → c'.payload.length < 2 ^ 32

/-- What a procedure comes to, by the call of the cache it makes. -/
def JobMade (p : ServerProg β α) (request reply : URpcData) (o : Option (Call β × Answer β)) (r : α × URpcData) :
    Prop :=
  ∀ priv priv' l calls, Happens o priv priv' l →
    p.Runs Job.Answers (Job.at request reply priv calls) r.1 (Job.at request r.2 priv' (calls ++ l))

theorem JobMade.plain {o : ServerOp β} {k : o.Ans → ServerProg β α} {a : o.Ans} {x : Option (Call β × Answer β)}
    {r : α × URpcData} (h : JobMade (k a) request reply' x r)
    (ho : ∀ block priv, ({ request, reply, priv } : Server.Serving).perform block o =
      .ok (a, { request, reply := reply', priv })) (hmade : ∀ priv, o.made priv a = []) :
    JobMade (.op o k) request reply x r :=
  fun priv priv' l calls hx => runs_plain (fun block => ho block priv) (hmade priv) (h priv priv' l calls hx)

/-- **A procedure carries out one call of the cache, or none.** -/
theorem makes_serve {p : ServerProg β α} (hp : CallsOnce p) (refused : Refusals) (reply : URpcData) :
    Makes callProgram CallFits (JobMade p request reply) (serveProgram request p refused reply) := by
  induction p generalizing refused reply with
  | ret a =>
    refine .returns fun priv priv' l calls hx => ?_
    cases hx
    rw [List.append_nil]
    exact .ret
  | op o k ih =>
    cases o with
    | getUint64 p => exact (ih _ (hp _) refused.tail reply).mono fun x r h => h.plain (fun _ _ => rfl) fun _ => rfl
    | getData p => exact (ih _ (hp _) refused.tail reply).mono fun x r h => h.plain (fun _ _ => rfl) fun _ => rfl
    | write p m => exact (ih _ (hp _) refused.tail _).mono fun x r h => h.plain (fun _ _ => rfl) fun _ => rfl
    | setUint32 p v =>
      rw [serveProgram]
      split
      · exact (ih false (hp _) refused.tail reply).mono fun x r h priv priv' l calls hx =>
          .op (.refuse rfl) (h priv priv' l calls hx)
      · exact (ih true (hp _) refused.tail _).mono fun x r h => h.plain (fun _ _ => rfl) fun _ => rfl
    | reserve p size =>
      rw [serveProgram]
      split
      · exact (ih none (hp _) refused.tail reply).mono fun x r h priv priv' l calls hx =>
          .op (.refuse rfl) (h priv priv' l calls hx)
      · exact (ih (some _) (hp _) refused.tail _).mono fun x r h => h.plain (fun _ _ => rfl) fun _ => rfl
    | cacheSet c =>
      have hrest (a : Answer β) := serve_rest request (hp.2 (statusOf a)) refused.tail reply
      choose b reply' he hr using hrest
      rw [serveProgram]
      simp only [he]
      refine .calls (by rintro c' ⟨⟩; exact hp.1) fun a priv priv' l calls hx => ?_
      cases hx with
      | set block h => exact .op (.perform block .nil (by rw [Server.Serving.perform, h]; rfl)) (hr _ priv' _)
    | cacheGet c =>
      have hrest (a : Answer β) :=
        serve_rest request (hp (statusOf a, buffersOf c.bufs a)) refused.tail reply
      choose b reply' he hr using hrest
      rw [serveProgram]
      simp only [he]
      refine .calls (by rintro c' ⟨⟩) fun a priv priv' l calls hx => ?_
      cases hx with
      | get h => exact .op (.perform ⟨0, fun _ => 0⟩ .nil (by rw [Server.Serving.perform, h]; rfl)) (hr _ priv' _)

end Procedures

/-! ### Clients -/

section Clients

variable {β α : Type}

/-- The client executes one procedure at most. -/
def ExecsOnce : ClientProg α → Prop
  | .ret _ => True
  | .op (.exec _) k => ∀ b, (k b).Uses fun o => ∀ proc, o ≠ .exec proc
  | .op _ k => ∀ a, ExecsOnce (k a)

theorem ExecsOnce.of_uses {p : ClientProg α} (hp : p.Uses fun o => ∀ proc, o ≠ .exec proc) : ExecsOnce p := by
  induction p with
  | ret a => trivial
  | op o k ih =>
    cases o with
    | exec proc => exact absurd rfl (hp.1 proc)
    | _ => exact fun a => ih a (hp.2 a)

theorem ExecsOnce.bind {α' : Type} {p : ClientProg α} {f : α → ClientProg α'}
    (hp : p.Uses fun o => ∀ proc, o ≠ .exec proc) (hf : ∀ a, ExecsOnce (f a)) : ExecsOnce (p >>= f) := by
  induction p with
  | ret a => exact hf a
  | op o k ih =>
    cases o with
    | exec proc => exact absurd rfl (hp.1 proc)
    | _ => exact fun a => ih a (hp.2 a)

theorem ExecsOnce.bind_uses {α' : Type} {p : ClientProg α} {f : α → ClientProg α'} (hp : ExecsOnce p)
    (hf : ∀ a, (f a).Uses fun o => ∀ proc, o ≠ .exec proc) : ExecsOnce (p >>= f) := by
  induction p with
  | ret a => exact .of_uses (hf a)
  | op o k ih =>
    cases o with
    | exec proc => exact fun b => (hp b).bind hf
    | _ => exact fun a => ih a (hp a)

variable [URpc]

/-- How the operations of a client may be answered, as far as its parameters go. -/
inductive Transport.Answers : (o : ClientOp) → Transport → o.Ans → Transport → Prop
  | perform {o : ClientOp} {t t' : Transport} {a : o.Ans} (hexec : ∀ proc, o ≠ .exec proc)
      (h : t.perform o = .ok (a, t')) : Answers o t a t'
  | refuse {o : ClientOp} {t : Transport} {a : o.Ans} (h : o.refusal = some a) : Answers o t a t
  | reply {proc : Proc} {t : Transport} {b : Bool} (reply : URpcData) : Answers (.exec proc) t b { t with reply }

/-- The program does not fault. -/
abbrev Faultless (p : ClientProg α) (t : Transport) : Prop :=
  p.Safely Transport.Answers (fun o t => ∃ r, t.perform o = .ok r) (fun _ _ => True) t

theorem Faultless.of_uses {p : ClientProg α} (hp : p.Uses fun o => ∀ q offset src, o ≠ .write q offset src)
    (t : Transport) : Faultless p t := by
  induction p generalizing t with
  | ret a => trivial
  | op o k ih =>
    refine ⟨?_, fun b t' _ => ih b (hp.2 b) t'⟩
    cases o with
    | write q offset src => exact absurd rfl (hp.1 q offset src)
    | _ => exact ⟨_, rfl⟩

theorem own_ok {o : ClientOp} {t : Transport} (hexec : ∀ proc, o ≠ .exec proc) (ho : ∃ r, t.perform o = .ok r)
    (refused : Bool) : ∃ a t', o.own refused t = .ok (a, t') ∧ Transport.Answers o t a t' ∧
      (o.refusal = some a ∧ t' = t ∨ t.perform o = .ok (a, t')) := by
  obtain ⟨⟨a, t'⟩, ho⟩ := ho
  unfold ClientOp.own
  split
  · next b h => exact ⟨b, t, rfl, .refuse h, .inl ⟨h, rfl⟩⟩
  · exact ⟨a, t', ho, .perform hexec ho, .inr ho⟩

theorem own_answers {o : ClientOp} {refused : Bool} {t t' : Transport} {a : o.Ans} (hexec : ∀ proc, o ≠ .exec proc)
    (ho : o.own refused t = .ok (a, t')) : Transport.Answers o t a t' := by
  unfold ClientOp.own at ho
  split at ho
  · next b h =>
    cases ho
    exact .refuse h
  · exact .perform hexec ho

variable [HyScanBufferWrap β] {priv : HyScanCachedPrivate} {calls : List (Made β)} {x : Conditions β}

theorem clientProgram_op {o : ClientOp} {k : o.Ans → ClientProg α} {refused : Refusals} {t t' : Transport} {a : o.Ans}
    (hexec : ∀ proc, o ≠ .exec proc) (h : o.own (refused 0) t = .ok (a, t')) :
    clientProgram x (.op o k) refused t = clientProgram x (k a) refused.tail t' := by
  rw [clientProgram]
  · rw [h]
  · exact fun proc _ ho _ => hexec proc ho

/-- A program of a client whose operations are its own business. -/
theorem client_rest {p : ClientProg α} (hp : p.Uses fun o => ∀ proc, o ≠ .exec proc) {t : Transport}
    (hs : Faultless p t) (refused : Refusals) :
    ∃ a t', clientProgram x p refused t = .ret (.ok (a, t')) ∧ ∀ (priv : HyScanCachedPrivate) (calls : List (Made β)),
      p.Runs Session.Answers (Session.at t priv calls) a (Session.at t' priv calls) := by
  induction p generalizing t refused with
  | ret a => exact ⟨a, t, rfl, fun _ _ => .ret⟩
  | op o k ih =>
    obtain ⟨a, t₁, hown, hans, hdone⟩ := own_ok hp.1 hs.1 (refused 0)
    obtain ⟨b, t', he, hr⟩ := ih a (hp.2 a) (hs.2 a t₁ hans) refused.tail
    refine ⟨b, t', (clientProgram_op hp.1 hown).trans he, fun priv calls => ?_⟩
    rcases hdone with ⟨h, rfl⟩ | h
    · exact .op (.refuse h) (hr priv calls)
    · exact .op (.perform hp.1 h) (hr priv calls)

/-- What a call of a client comes to, by the call of the cache it leads to. -/
def SessionMade (p : ClientProg α) (t : Transport) (o : Option (Call β × Answer β)) (r : Exec (α × Transport)) :
    Prop :=
  ∃ a t', r = .ok (a, t') ∧ ∀ priv priv' l calls, Happens o priv priv' l →
    p.Runs Session.Answers (Session.at t priv calls) a (Session.at t' priv' (calls ++ l))

/-- **A client carries out one call of the cache, or none.** -/
theorem makes_client {p : ClientProg α} (hp : ExecsOnce p) {t : Transport} (hs : Faultless p t) (refused : Refusals) :
    Makes callProgram CallFits (SessionMade p t) (clientProgram x p refused t) := by
  induction p generalizing t refused with
  | ret a =>
    refine .returns ⟨a, t, rfl, fun priv priv' l calls hx => ?_⟩
    cases hx
    rw [List.append_nil]
    exact .ret
  | op o k ih =>
    by_cases hexec : ∃ proc, o = .exec proc
    · obtain ⟨proc, rfl⟩ := hexec
      rw [clientProgram]
      split
      · refine (ih false (.of_uses (hp false)) (hs.2 false t (.refuse rfl)) refused.tail).mono ?_
        rintro y r ⟨a, t', he, hr⟩
        exact ⟨a, t', he, fun priv priv' l calls hy => .op (.refuse rfl) (hr priv priv' l calls hy)⟩
      · -- the procedure is run, and the rest of the program is the client's own business
        have hrest (reply : URpcData) := client_rest (x := x) (hp (!x.lost))
          (hs.2 (!x.lost) { t with reply } (.reply reply)) refused.tail
        have hmade (y : Option (Call β × Answer β)) (r : Unit × URpcData)
            (hy : JobMade (Server.program x.buffer proc) t.request x.left y r) (a : α) (t' : Transport)
            (hr : ∀ (priv : HyScanCachedPrivate) (calls : List (Made β)), (k (!x.lost)).Runs Session.Answers
              (Session.at { t with reply := r.2 } priv calls) a (Session.at t' priv calls)) :
            SessionMade (.op (.exec proc) k) t y (.ok (a, t')) := by
          refine ⟨a, t', rfl, fun priv priv' l calls hh => ?_⟩
          have hj := hy priv priv' l calls hh
          cases hlost : x.lost with
          | false =>
            rw [hlost] at hr
            exact .op (.exec x.buffer x.left x.hleft hj) (hr priv' _)
          | true =>
            rw [hlost] at hr
            exact .op (.lost x.buffer x.left r.2 hj) (hr priv' _)
        refine (makes_serve (callsOnce_program x.buffer proc) x.serverRefused x.left).bind (fun r hr => ?_) ?_
        · obtain ⟨a, t', he, hk⟩ := hrest r.2
          rw [he]
          exact .returns (hmade none r hr a t' hk)
        · rintro y r hr
          obtain ⟨a, t', he, hk⟩ := hrest r.2
          exact ⟨_, he, hmade (some y) r hr a t' hk⟩
    · have hown : ∀ proc, o ≠ .exec proc := fun proc h => hexec ⟨proc, h⟩
      obtain ⟨a, t₁, he, hans, hdone⟩ := own_ok hown hs.1 (refused 0)
      have hk : ExecsOnce (k a) := by
        cases o with
        | exec proc => exact absurd rfl (hown proc)
        | _ => exact hp a
      rw [clientProgram_op hown he]
      refine (ih a hk (hs.2 a t₁ hans) refused.tail).mono ?_
      rintro y r ⟨b, t', hr, hrun⟩
      refine ⟨b, t', hr, fun priv priv' l calls hy => ?_⟩
      rcases hdone with ⟨h, rfl⟩ | h
      · exact .op (.refuse h) (hrun priv priv' l calls hy)
      · exact .op (.perform hown h) (hrun priv priv' l calls hy)

/-! ### The functions of a client -/

variable {connected : Bool} {t : Transport}

omit [URpc] in
theorem execsOnce_session {p : ClientProg α} (hp : ExecsOnce p) (refused : α) : ExecsOnce (session p refused) := by
  intro granted
  cases granted with
  | false => exact fun _ => trivial
  | true => exact hp.bind_uses fun r => ⟨nofun, fun _ => trivial⟩

omit [URpc] in
theorem execsOnce_clientSetLocked (c : SetCall β) : ExecsOnce (clientSetLocked c) := by
  intro key
  cases key with
  | false => trivial
  | true =>
    intro detail
    cases detail with
    | false => trivial
    | true =>
      intro data
      cases data with
      | false => trivial
      | true =>
        show ExecsOnce (copyParts (givenBytes c.buffer1) (givenBytes c.buffer2) >>= fun _ => _)
        refine ExecsOnce.bind ((uses_copyParts _ _).mono ?_) fun _ done => ?_
        · rintro o ⟨p, offset, src, rfl⟩
          exact nofun
        · cases done with
          | false => trivial
          | true => exact ⟨nofun, fun status => by cases status <;> trivial⟩

omit [URpc] in
theorem execsOnce_clientGetLocked (c : GetCall β) : ExecsOnce (clientGetLocked c) := by
  intro key
  cases key with
  | false => trivial
  | true =>
    intro detail
    cases detail with
    | false => trivial
    | true =>
      intro done
      cases done with
      | false => trivial
      | true =>
        refine ⟨nofun, fun status => ?_⟩
        cases status with
        | none => trivial
        | some execStatus =>
          show (if execStatus ≠ HYSCAN_CACHE_RPC_STATUS_OK then Prog.ret (false, c.bufs) else _ : ClientProg _).Uses _
          split
          · trivial
          · exact ⟨nofun, fun data => by cases data <;> trivial⟩

theorem execsOnce_callClient (c : Call β) : ExecsOnce (callClient connected c) := by
  cases c with
  | set c =>
    refine ExecsOnce.bind_uses ?_ fun _ => trivial
    cases connected with
    | false => trivial
    | true =>
      rw [clientSet_eq]
      split
      · trivial
      · exact execsOnce_session (execsOnce_clientSetLocked c) false
  | get c =>
    refine ExecsOnce.bind_uses ?_ fun _ => trivial
    cases connected with
    | false => trivial
    | true =>
      rw [clientGet_eq]
      split
      · trivial
      · exact execsOnce_session (execsOnce_clientGetLocked c) (false, c.bufs)

omit [URpc] in
theorem uses_clientGet (c : GetCall β) :
    (clientGet connected c).Uses fun o => ∀ q offset src, o ≠ .write q offset src := by
  cases connected with
  | false => trivial
  | true =>
    rw [clientGet_eq]
    split
    · trivial
    refine ⟨nofun, fun granted => Prog.Uses.bind ?_ fun r => ⟨nofun, fun _ => trivial⟩⟩
    cases granted with
    | false => trivial
    | true =>
      refine ⟨nofun, fun key => ?_⟩
      cases key with
      | false => trivial
      | true =>
        refine ⟨nofun, fun detail => ?_⟩
        cases detail with
        | false => trivial
        | true =>
          refine ⟨nofun, fun done => ?_⟩
          cases done with
          | false => trivial
          | true =>
            refine ⟨nofun, fun status => ?_⟩
            cases status with
            | none => trivial
            | some execStatus =>
              show (if execStatus ≠ HYSCAN_CACHE_RPC_STATUS_OK then Prog.ret (false, c.bufs)
                else _ : ClientProg _).Uses _
              split
              · trivial
              · exact ⟨nofun, fun data => by cases data <;> trivial⟩

theorem faultless_copyParts {data1 data2 region : Bytes} {request reply : URpcData} (h1 : data1.length < 2 ^ 32)
    (h2 : data2.length < 2 ^ 32) (hlen : region.length = data1.length + data2.length) :
    Faultless (copyParts data1 data2) ⟨request.set .data (.bytes region), reply⟩ := by
  refine (Prog.Safely.of_run ?_ (uses_copyParts data1 data2) (run_copyParts h1 h2 hlen)).mono fun _ _ _ => trivial
  rintro o ⟨p, offset, src, rfl⟩ t b t' ho
  cases ho with
  | perform _ h => exact h
  | refuse h => cases h

theorem faultless_clientSetLocked {c : SetCall β} (hlt : c.payload.length < 2 ^ 32) (t : Transport) :
    Faultless (clientSetLocked c) t := by
  refine ⟨⟨_, rfl⟩, fun key t _ => ?_⟩
  cases key with
  | false => trivial
  | true =>
    refine ⟨⟨_, rfl⟩, fun detail t _ => ?_⟩
    cases detail with
    | false => trivial
    | true =>
      refine ⟨⟨_, rfl⟩, fun data t' hdata => ?_⟩
      cases data with
      | false => trivial
      | true =>
        cases hdata with
        | refuse h => cases h
        | perform _ h =>
          cases h
          show (copyParts (givenBytes c.buffer1) (givenBytes c.buffer2) >>= fun _ => _).Safely _ _ _ _
          refine Prog.Safely.bind ((faultless_copyParts (length_givenBytes_lt _) (length_givenBytes_lt _) ?_).mono
            fun _ t _ => ?_)
          · have hsize : (callSize c).toNat = c.payload.length := (toNat_callSize c).trans (Nat.mod_eq_of_lt hlt)
            rw [← List.length_append, URpc.length_reserve]
            exact hsize
          · refine Faultless.of_uses ?_ t
            refine ⟨nofun, fun done => ?_⟩
            cases done with
            | false => trivial
            | true => exact ⟨nofun, fun status => by cases status <;> trivial⟩

theorem faultless_clientSet {c : SetCall β} (hlt : c.payload.length < 2 ^ 32) (t : Transport) :
    Faultless (clientSet connected c) t := by
  cases connected with
  | false => trivial
  | true =>
    rw [clientSet_eq]
    split
    · trivial
    refine ⟨⟨_, rfl⟩, fun granted t _ => Prog.Safely.bind ?_⟩
    have hexit (r : Bool) (t : Transport) : Faultless (Prog.op ClientOp.unlock fun _ => Prog.ret r) t :=
      ⟨⟨_, rfl⟩, fun _ _ _ => trivial⟩
    cases granted with
    | false => exact hexit false t
    | true => exact (faultless_clientSetLocked hlt t).mono fun r t _ => hexit r t

theorem faultless_callClient {c : Call β} (hc : CallFits c) (t : Transport) :
    Faultless (callClient connected c) t := by
  cases c with
  | get c =>
    refine Faultless.of_uses ?_ t
    exact (uses_clientGet c).bind fun _ => trivial
  | set c =>
    show (clientSet connected c >>= fun _ => _).Safely _ _ _ _
    exact Prog.Safely.bind ((faultless_clientSet (hc c rfl) t).mono fun _ _ _ => trivial)

end Clients

/-! ### With nobody else about -/

section Alone

variable {β α : Type} [HyScanBufferWrap β] [URpc]
variable {block : Block} {request reply : URpcData} {priv priv' : HyScanCachedPrivate} {refused : Refusals}

theorem run_serveProgram (hno : ∀ n, refused n = false) {p : ServerProg β α} {a : α} {v : Server.Serving}
    (hrun : p.run (Server.Serving.perform block) ⟨request, reply, priv⟩ = .ok (a, v)) :
    (serveProgram request p refused reply).run (handleAlone block) priv = .ok ((a, v.reply), v.priv) := by
  induction p generalizing refused reply priv with
  | ret b =>
    cases hrun
    rfl
  | op o k ih =>
    have htail : ∀ n, refused.tail n = false := fun n => hno (n + 1)
    have h0 : ¬ refused 0 = true := by rw [hno 0]; exact Bool.false_ne_true
    cases o with
    | getUint64 | getData | write => exact ih _ htail hrun
    | setUint32 | reserve =>
      rw [serveProgram, if_neg h0]
      exact ih _ htail hrun
    | cacheSet c =>
      rw [Prog.run, Server.Serving.perform] at hrun
      rw [serveProgram, Prog.run_bind, run_program, Call.run]
      cases hc : callSet block priv c with
      | error f =>
        rw [hc] at hrun
        cases hrun
      | ok r =>
        rw [hc] at hrun
        exact ih r.1 htail hrun
    | cacheGet c =>
      rw [Prog.run, Server.Serving.perform] at hrun
      rw [serveProgram, Prog.run_bind, run_program, Call.run]
      cases hc : callGet priv c with
      | error f =>
        rw [hc] at hrun
        cases hrun
      | ok r =>
        rw [hc] at hrun
        exact ih (r.1, r.2.1) htail hrun

variable {x : Conditions β} {t : Transport} {w : Link}

theorem run_clientProgram (hserver : ∀ n, x.serverRefused n = false) (hlost : x.lost = false)
    (hno : ∀ n, refused n = false) {p : ClientProg α} {a : α}
    (hrun : p.run (Link.perform block x.buffer x.left) ⟨t, priv⟩ = .ok (a, w)) :
    (clientProgram x p refused t).run (handleAlone block) priv = .ok (.ok (a, w.transport), w.priv) := by
  induction p generalizing refused t priv with
  | ret b =>
    cases hrun
    rfl
  | op o k ih =>
    have htail : ∀ n, refused.tail n = false := fun n => hno (n + 1)
    by_cases hexec : ∃ proc, o = .exec proc
    · obtain ⟨proc, rfl⟩ := hexec
      rw [Prog.run, Link.perform, Server.serve] at hrun
      rw [clientProgram, if_neg (by rw [hno 0]; exact Bool.false_ne_true), Prog.run_bind, hlost]
      cases hs : (Server.program x.buffer proc).run (Server.Serving.perform block) ⟨t.request, x.left, priv⟩ with
      | error f =>
        rw [hs] at hrun
        cases hrun
      | ok r =>
        rw [hs] at hrun
        rw [run_serveProgram hserver hs]
        exact ih true htail hrun
    · have hown : ∀ proc, o ≠ .exec proc := fun proc h => hexec ⟨proc, h⟩
      rw [Prog.run, Link.perform] at hrun
      · cases hp : t.perform o with
        | error f =>
          rw [hp] at hrun
          cases hrun
        | ok r =>
          rw [hp] at hrun
          have ho : o.own (refused 0) t = .ok (r.1, r.2) := by
            unfold ClientOp.own
            split
            · next hrefused => exact absurd ((hno 0).symm.trans hrefused) Bool.false_ne_true
            · exact hp
          rw [clientProgram_op hown ho]
          exact ih r.1 htail hrun
      · exact hown

/-- **With nobody else about and nothing refused, a call of a client is what the refinement of the remote cache says
it is.** -/
theorem run_client (hserver : ∀ n, x.serverRefused n = false) (hlost : x.lost = false)
    (hno : ∀ n, x.refused n = false) {c : Call β} {connected : Bool} {a : Answer β}
    (hrun : (callClient connected c).run (Link.perform block x.buffer x.left) ⟨t, priv⟩ = .ok (a, w)) :
    (AnyCall.client c connected t x).program.run (handleAlone block) priv = .ok (.ok a, w.priv) := by
  rw [AnyCall.program, Prog.run_bind, run_clientProgram hserver hlost hno hrun]
  rfl

end Alone

end HyScanCache.Remote
