import HyScanCache.Lib.Lts
import HyScanCache.Remote.Rpc

/-!
# The life of a server

`hyscan_cache_server_new`, `hyscan_cache_server_start` and the finalizer as programs that call uRPC, which may refuse
what it is asked for, and GObject.  What they hold outside of the object, a server of uRPC and a reference to the
cache, is what its private data says (`Holds`), after any number of calls of `start`.
-/

namespace HyScanCache.Remote

open Lib

/-! ### What the server uses -/

/-- What a pointer to a `uRpcServer` or to a `GObject` stands for. -/
abbrev Handle := ℕ

/-- `uRpcType` -/
inductive URpcType where
  | tcp | shm | other
  deriving DecidableEq

/-- `uRpcServer` -/
structure URpcServer where
  uri : Bytes
  nThreads : UInt32
  nClients : UInt32
  /-- `hyscan_cache_server_rpc_thread_start` is called by its threads. -/
  threadStart : Bool
  /-- `hyscan_cache_server_rpc_thread_stop` is called by its threads. -/
  threadStop : Bool
  /-- The procedures that are called for a number, by the function each of them is. -/
  callback : Proc → Option Proc
  bound : Bool

/-- What is done to a server before it works. -/
inductive SetUp where
  | threadStart
  | threadStop
  | callback (proc function : Proc)
  | bind

/-- What it comes to. -/
def SetUp.apply : SetUp → URpcServer → URpcServer
  | threadStart, s => { s with threadStart := true }
  | threadStop, s => { s with threadStop := true }
  | callback proc function, s => { s with callback := Function.update s.callback proc (some function) }
  | bind, s => { s with bound := true }

/-- The calls of uRPC and of GObject. -/
inductive LifeOp where
  | ref (object : Handle)
  | unref (object : Handle)
  | getType (uri : Bytes)
  | create (uri : Bytes) (nThreads nClients : UInt32)
  | setUp (rpc : Handle) (c : SetUp)
  | destroy (rpc : Handle)

/-- What a call returns: `true` for a zero status. -/
@[reducible] def LifeOp.Ans : LifeOp → Type
  | ref _ | unref _ | destroy _ => Unit
  | getType _ => URpcType
  | create .. => Option Handle
  | setUp .. => Bool

/-- A program over these calls. -/
abbrev LifeProg := Prog LifeOp LifeOp.Ans

/-- The servers of uRPC there are, and the references there are to an object. -/
@[ext] structure Outside where
  servers : Handle → Option URpcServer
  refs : Handle → ℕ

variable {base w w' : Outside} {rpc : Handle}

/-- The outside with a server of uRPC, or without it. -/
def Outside.put (w : Outside) (rpc : Handle) (s : Option URpcServer) : Outside :=
  { w with servers := Function.update w.servers rpc s }

@[simp] theorem Outside.put_put (w : Outside) (rpc : Handle) (s s' : Option URpcServer) :
    (w.put rpc s).put rpc s' = w.put rpc s' := by
  simp [Outside.put]

@[simp] theorem Outside.put_self (s : Option URpcServer) : (w.put rpc s).servers rpc = s := Function.update_self ..

theorem Outside.put_none (h : w.servers rpc = none) : w.put rpc none = w := by
  simp [Outside.put, ← h]

/-- How a call may be answered. -/
inductive LifeOp.Answers : (o : LifeOp) → Outside → o.Ans → Outside → Prop
  | ref {x : Handle} {w : Outside} : Answers (.ref x) w () { w with refs := Function.update w.refs x (w.refs x + 1) }
  | unref {x : Handle} {w : Outside} :
      Answers (.unref x) w () { w with refs := Function.update w.refs x (w.refs x - 1) }
  | getType {uri : Bytes} {w : Outside} (t : URpcType) : Answers (.getType uri) w t w
  | noServer {uri : Bytes} {n m : UInt32} {w : Outside} : Answers (.create uri n m) w none w
  | create {uri : Bytes} {n m : UInt32} {w : Outside} (rpc : Handle) (h : w.servers rpc = none) :
      Answers (.create uri n m) w (some rpc) (w.put rpc (some ⟨uri, n, m, false, false, fun _ => none, false⟩))
  | refused {rpc : Handle} {c : SetUp} {w : Outside} : Answers (.setUp rpc c) w false w
  | setUp {rpc : Handle} {c : SetUp} {w : Outside} {s : URpcServer} (h : w.servers rpc = some s) :
      Answers (.setUp rpc c) w true (w.put rpc (some (c.apply s)))
  | destroy {rpc : Handle} {w : Outside} : Answers (.destroy rpc) w () (w.put rpc none)

/-- What a call asks for: objects and servers that are there, and a server that does not work yet. -/
def LifeOp.Suits : LifeOp → Outside → Prop
  | ref _, _ | getType _, _ | create .., _ => True
  | unref x, w => 0 < w.refs x
  | setUp rpc _, w => ∃ s, w.servers rpc = some s ∧ s.bound = false
  | destroy rpc, w => w.servers rpc ≠ none

/-! ### The functions of the source -/

/-- `struct _HyScanCacheServerPrivate` -/
@[ext] structure HyScanCacheServerPrivate where
  running : Bool
  rpc : Option Handle
  uri : Option Bytes
  cache : Option Handle
  nThreads : UInt32
  nClients : UInt32

/-- `hyscan_cache_server_new`: the properties are set. -/
def serverNew (uri : Option Bytes) (cache : Option Handle) (nThreads nClients : UInt32) :
    LifeProg HyScanCacheServerPrivate := do
  -- `g_value_dup_object`
  if let some cache := cache then
    Prog.op (.ref cache) .ret
  return { running := false, rpc := none, uri, cache, nThreads, nClients }

/-- What `hyscan_cache_server_start` does with the server of uRPC, up to the label `fail`. -/
def serverSetUp (rpc : Handle) : LifeProg Bool := do
  if !(← Prog.op (.setUp rpc .threadStart) .ret) then
    return false
  if !(← Prog.op (.setUp rpc .threadStop) .ret) then
    return false
  if !(← Prog.op (.setUp rpc (.callback .version .version)) .ret) then
    return false
  if !(← Prog.op (.setUp rpc (.callback .set .set)) .ret) then
    return false
  if !(← Prog.op (.setUp rpc (.callback .get .get)) .ret) then
    return false
  Prog.op (.setUp rpc .bind) .ret

/-- `hyscan_cache_server_start` -/
def serverStart (priv : HyScanCacheServerPrivate) : LifeProg (Bool × HyScanCacheServerPrivate) := do
  if priv.running then
    return (false, priv)
  match priv.uri with
  | none => return (false, priv)
  | some uri =>
    let rpcType ← Prog.op (.getType uri) .ret
    if rpcType ≠ .tcp ∧ rpcType ≠ .shm then
      return (false, priv)
    if priv.cache = none then
      return (false, priv)
    match ← Prog.op (.create uri priv.nThreads priv.nClients) .ret with
    | none => return (false, { priv with rpc := none })
    | some rpc =>
      if ← serverSetUp rpc then
        return (true, { priv with rpc := some rpc, running := true })
      else
        Prog.op (.destroy rpc) .ret
        return (false, { priv with rpc := none })

/-- `hyscan_cache_server_object_finalize` -/
def serverFinalize (priv : HyScanCacheServerPrivate) : LifeProg Unit := do
  if let some rpc := priv.rpc then
    Prog.op (.destroy rpc) .ret
  if let some cache := priv.cache then
    Prog.op (.unref cache) .ret

/-! ### What a server holds -/

variable {priv : HyScanCacheServerPrivate}

/-- The server of uRPC that works for a server. -/
def workingServer (priv : HyScanCacheServerPrivate) (uri : Bytes) : URpcServer where
  uri := uri
  nThreads := priv.nThreads
  nClients := priv.nClients
  threadStart := true
  threadStop := true
  callback := some
  bound := true

/-- The references to objects, with one to the cache. -/
def cacheRefs (base : Outside) : Option Handle → Handle → ℕ
  | none => base.refs
  | some cache => Function.update base.refs cache (base.refs cache + 1)

/-- **What a server holds** besides what there was before it: a reference to the cache and, once it is running, a
server of uRPC that works for it. -/
structure Keeps (base : Outside) (priv : HyScanCacheServerPrivate) (w : Outside) : Prop where
  refs : w.refs = cacheRefs base priv.cache
  servers : (priv.running = false ∧ priv.rpc = none ∧ w.servers = base.servers) ∨
    ∃ rpc uri, priv.running = true ∧ priv.rpc = some rpc ∧ priv.uri = some uri ∧ base.servers rpc = none ∧
      w.servers = Function.update base.servers rpc (some (workingServer priv uri))

variable {α : Type} {Q : α → Outside → Prop}

theorem safely_setUp {c : SetUp} {k : Bool → LifeProg α} {s : URpcServer} (hb : s.bound = false)
    (hfalse : (k false).Safely LifeOp.Answers LifeOp.Suits Q (w.put rpc (some s)))
    (htrue : (k true).Safely LifeOp.Answers LifeOp.Suits Q (w.put rpc (some (c.apply s)))) :
    (Prog.op (.setUp rpc c) k).Safely LifeOp.Answers LifeOp.Suits Q (w.put rpc (some s)) := by
  refine ⟨⟨s, Outside.put_self _, hb⟩, fun b w' ho => ?_⟩
  cases ho with
  | refused => exact hfalse
  | setUp h =>
    obtain rfl : s = _ := Option.some.inj ((Outside.put_self _).symm.trans h)
    rw [Outside.put_put]
    exact htrue

/-- **Setting up a server of uRPC**: all of it is done, or it is not bound. -/
theorem serverSetUp_safely (uri : Bytes) (n m : UInt32) :
    (serverSetUp rpc).Safely LifeOp.Answers LifeOp.Suits
      (fun b w' => ∃ s, w' = w.put rpc (some s) ∧ (b = true → s = ⟨uri, n, m, true, true, some, true⟩))
      (w.put rpc (some ⟨uri, n, m, false, false, fun _ => none, false⟩)) := by
  have hcallback : Function.update (Function.update (Function.update (fun _ => none) Proc.version (some .version))
      .set (some .set)) .get (some .get) = some := by
    funext proc
    cases proc <;> rfl
  unfold serverSetUp
  refine safely_setUp rfl ⟨_, rfl, nofun⟩ ?_
  refine safely_setUp rfl ⟨_, rfl, nofun⟩ ?_
  refine safely_setUp rfl ⟨_, rfl, nofun⟩ ?_
  refine safely_setUp rfl ⟨_, rfl, nofun⟩ ?_
  refine safely_setUp rfl ⟨_, rfl, nofun⟩ ?_
  refine safely_setUp rfl ⟨_, rfl, nofun⟩ ⟨_, rfl, fun _ => ?_⟩
  simp only [SetUp.apply, hcallback]

/-- **Starting a server**: it runs, with a server of uRPC that is set up, or nothing has changed. -/
theorem serverStart_safely (hk : Keeps base priv w) :
    (serverStart priv).Safely LifeOp.Answers LifeOp.Suits
      (fun r w' => Keeps base r.2 w' ∧ (r.1 = true → priv.running = false ∧ r.2.running = true) ∧
        (r.1 = false → r.2 = priv ∧ w' = w)) w := by
  obtain ⟨running, rpc, uri, cache, n, m⟩ := priv
  unfold serverStart
  by_cases hrun : running = true
  · rw [if_pos hrun]
    exact ⟨hk, nofun, fun _ => ⟨rfl, rfl⟩⟩
  obtain ⟨rfl, rfl, hs⟩ := hk.servers.resolve_right fun ⟨_, _, h, _⟩ => hrun h
  rw [if_neg hrun]
  cases uri with
  | none => exact ⟨hk, nofun, fun _ => ⟨rfl, rfl⟩⟩
  | some uri =>
    refine ⟨trivial, fun t w' ht => ?_⟩
    cases ht
    show (if t ≠ .tcp ∧ t ≠ .shm then _ else _ : LifeProg _).Safely _ _ _ _
    split
    · exact ⟨hk, nofun, fun _ => ⟨rfl, rfl⟩⟩
    show (if cache = none then _ else _ : LifeProg _).Safely _ _ _ _
    split
    · exact ⟨hk, nofun, fun _ => ⟨rfl, rfl⟩⟩
    refine ⟨trivial, fun x w' hx => ?_⟩
    cases hx with
    | noServer => exact ⟨hk, nofun, fun _ => ⟨rfl, rfl⟩⟩
    | create rpc h =>
      show (serverSetUp rpc >>= _ : LifeProg _).Safely _ _ _ _
      refine Prog.Safely.bind ((serverSetUp_safely uri n m).mono ?_)
      rintro b w' ⟨s, rfl, hb⟩
      cases b with
      | true =>
        obtain rfl := hb rfl
        refine ⟨⟨hk.refs, .inr ⟨rpc, uri, rfl, rfl, rfl, hs ▸ h, ?_⟩⟩, fun _ => ⟨rfl, rfl⟩, nofun⟩
        rw [Outside.put, hs]
        rfl
      | false =>
        -- the label `fail`
        refine ⟨by rw [LifeOp.Suits, Outside.put_self]; nofun, fun u w' hu => ?_⟩
        cases hu
        rw [Outside.put_put, Outside.put_none h]
        exact ⟨hk, nofun, fun _ => ⟨rfl, rfl⟩⟩

theorem serverNew_safely (uri : Option Bytes) (cache : Option Handle) (n m : UInt32) :
    (serverNew uri cache n m).Safely LifeOp.Answers LifeOp.Suits
      (fun priv w' => priv.running = false ∧ Keeps base priv w') base := by
  unfold serverNew
  cases cache with
  | none => exact ⟨rfl, rfl, .inl ⟨rfl, rfl, rfl⟩⟩
  | some cache =>
    refine ⟨trivial, fun u w' hu => ?_⟩
    cases hu
    exact ⟨rfl, rfl, .inl ⟨rfl, rfl, rfl⟩⟩

/-- **The end of a server**: there is what there was before it. -/
theorem serverFinalize_safely (hk : Keeps base priv w) :
    (serverFinalize priv).Safely LifeOp.Answers LifeOp.Suits (fun _ w' => w' = base) w := by
  obtain ⟨running, rpc, uri, cache, n, m⟩ := priv
  -- the reference to the cache is what is left when there is no server of uRPC
  have hcache (w : Outside) (hs : w.servers = base.servers) (hr : w.refs = cacheRefs base cache) :
      (do if let some cache := cache then Prog.op (.unref cache) .ret : LifeProg Unit).Safely
        LifeOp.Answers LifeOp.Suits (fun _ w' => w' = base) w := by
    cases cache with
    | none => exact Outside.ext hs hr
    | some cache =>
      have hself : w.refs cache = base.refs cache + 1 := by simp [hr, cacheRefs]
      refine ⟨by rw [LifeOp.Suits, hself]; omega, fun u w' hu => ?_⟩
      cases hu
      refine Outside.ext hs ?_
      simp [hr, cacheRefs]
  unfold serverFinalize
  rcases hk.servers with ⟨-, rfl, hs⟩ | ⟨rpc, uri, -, rfl, -, hbase, hs⟩
  · exact hcache w hs hk.refs
  · refine ⟨by simp [LifeOp.Suits, hs], fun u w' hu => ?_⟩
    cases hu
    refine hcache _ ?_ hk.refs
    rw [Outside.put, hs, Function.update_idem, ← hbase, Function.update_eq_self]

/-! ### All of its life -/

/-- What is done with a server. -/
inductive ServerEvent where
  | new
  | start (started : Bool)
  | finalize
  deriving DecidableEq

/-- A step in the life of a server, which is there between `new` and `finalize`. -/
inductive ServerLife.Step : Option HyScanCacheServerPrivate × Outside → ServerEvent →
    Option HyScanCacheServerPrivate × Outside → Prop
  | new {w w' : Outside} {priv : HyScanCacheServerPrivate} (uri : Option Bytes) (cache : Option Handle) (n m : UInt32)
      (h : (serverNew uri cache n m).Runs LifeOp.Answers w priv w') : Step (none, w) .new (some priv, w')
  | start {w w' : Outside} {priv priv' : HyScanCacheServerPrivate} {started : Bool}
      (h : (serverStart priv).Runs LifeOp.Answers w (started, priv') w') :
      Step (some priv, w) (.start started) (some priv', w')
  | finalize {w w' : Outside} {priv : HyScanCacheServerPrivate}
      (h : (serverFinalize priv).Runs LifeOp.Answers w () w') : Step (some priv, w) .finalize (none, w')

/-- The life of servers, one after the other, where there is `base` besides. -/
def serverLife (base : Outside) : Lts (Option HyScanCacheServerPrivate × Outside) ServerEvent where
  init s := s = (none, base)
  tr := ServerLife.Step

/-- How often a server was started, the newest event first. -/
def starts (h : List ServerEvent) : ℕ := (h.takeWhile (· ≠ .new)).count (.start true)

/-- What is there while there is a server, and while there is none. -/
def Lives (base : Outside) (h : List ServerEvent) : Option HyScanCacheServerPrivate × Outside → Prop
  | (none, w) => w = base
  | (some priv, w) => Keeps base priv w ∧ starts h = if priv.running then 1 else 0

theorem ServerLife.Step.lives {h : List ServerEvent} {s s' : Option HyScanCacheServerPrivate × Outside}
    {e : ServerEvent} (ht : ServerLife.Step s e s') (hl : Lives base h s) : Lives base (e :: h) s' := by
  cases ht with
  | new uri cache n m hrun =>
    obtain rfl : _ = base := hl
    obtain ⟨hnot, hk⟩ := hrun.post (serverNew_safely uri cache n m).always
    exact ⟨hk, by simp [starts, hnot]⟩
  | @start w w' priv priv' started hrun =>
    obtain ⟨hk, hstarts⟩ := hl
    obtain ⟨hk', htrue, hfalse⟩ := hrun.post (serverStart_safely hk).always
    refine ⟨hk', ?_⟩
    cases started with
    | true =>
      obtain ⟨h1, h2⟩ := htrue rfl
      rw [h1] at hstarts
      rw [h2]
      simpa [starts] using hstarts
    | false =>
      obtain ⟨rfl, -⟩ := hfalse rfl
      rw [← hstarts]
      simp [starts]
  | finalize hrun => exact hrun.post (serverFinalize_safely hl.1).always

/-- **The life of a server**, whatever uRPC refuses.  No server of uRPC is set up once it works, used once it was
destroyed, or left behind; the cache is referred to as long as the server is there; and `start` returns `TRUE` once at
most, when all is set up. -/
theorem server_life {h : List ServerEvent} {s : Option HyScanCacheServerPrivate × Outside}
    (hr : (serverLife base).Run h s) : Lives base h s ∧ ∀ priv w, s = (some priv, w) →
      (serverStart priv).Safely LifeOp.Answers LifeOp.Suits
        (fun r w' => r.1 = true ∧ r.2.running = true ∨ r = (false, priv) ∧ w' = w) w ∧
      (serverFinalize priv).Safely LifeOp.Answers LifeOp.Suits (fun _ w' => w' = base) w := by
  have hl : Lives base h s := by
    refine Lts.Run.inv (L := serverLife base) (P := Lives base) ?_ (fun h s e s' _ hl ht => ht.lives hl) hr
    rintro s rfl
    rfl
  refine ⟨hl, ?_⟩
  rintro priv w rfl
  refine ⟨(serverStart_safely hl.1).mono ?_, serverFinalize_safely hl.1⟩
  rintro ⟨started, priv'⟩ w' ⟨-, htrue, hfalse⟩
  cases started with
  | true => exact .inl ⟨rfl, (htrue rfl).2⟩
  | false =>
    obtain ⟨rfl, rfl⟩ := hfalse rfl
    exact .inr ⟨rfl, rfl⟩

theorem runs_setUp {c : SetUp} {k : Bool → LifeProg α} {s : URpcServer} {a : α}
    (h : (k true).Runs LifeOp.Answers (w.put rpc (some (c.apply s))) a w') :
    (Prog.op (.setUp rpc c) k).Runs LifeOp.Answers (w.put rpc (some s)) a w' := by
  refine .op (.setUp (Outside.put_self _)) ?_
  rw [Outside.put_put]
  exact h

/-- A server that is new, and one that runs. -/
def sampleServer (running : Bool) (rpc : Option Handle) : HyScanCacheServerPrivate :=
  ⟨running, rpc, some [], some 5, 1, 1000⟩

/-- There is a cache, and nothing else. -/
def sampleOutside : Outside := ⟨fun _ => none, fun _ => 1⟩

/-- A server is started where there is a cache: it is set up, and the cache is referred to. -/
theorem server_life_sample : ∃ w, (serverLife sampleOutside).Run [.start true, .new]
      (some (sampleServer true (some 0)), w) ∧
    Lives sampleOutside [.start true, .new] (some (sampleServer true (some 0)), w) := by
  have hnew : (serverNew (some []) (some 5) 1 1000).Runs LifeOp.Answers sampleOutside (sampleServer false none)
      { sampleOutside with refs := Function.update sampleOutside.refs 5 (sampleOutside.refs 5 + 1) } := .op .ref .ret
  have hstart : ∃ w, (serverStart (sampleServer false none)).Runs LifeOp.Answers
      { sampleOutside with refs := Function.update sampleOutside.refs 5 (sampleOutside.refs 5 + 1) }
      (true, sampleServer true (some 0)) w := by
    exact ⟨_, .op (.getType .tcp) (.op (.create 0 rfl)
      (runs_setUp (runs_setUp (runs_setUp (runs_setUp (runs_setUp (runs_setUp .ret)))))))⟩
  obtain ⟨w, hstart⟩ := hstart
  have hrun := ((Lts.Run.nil (L := serverLife sampleOutside) rfl).cons (.new _ _ _ _ hnew)).cons (.start hstart)
  exact ⟨w, hrun, (server_life hrun).1⟩

end HyScanCache.Remote
