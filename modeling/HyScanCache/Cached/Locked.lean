import HyScanCache.Cached.Readers
import HyScanCache.Lib.Locking

/-!
# The locks of the cache

`hyscan_cached_set` and `hyscan_cached_get` as programs: what they do to the private data, one function of the
source at a time, and where they take `data_lock` and `list_lock`.  The link that is taken out of the list and the
one that is put in are two actions, as they are two parts of `hyscan_cached_place_object_on_top_of_used`.

* `run_program`: with nobody else about, the programs are `set` and `get`;
* `CachedOp.run_links`, `CachedOp.run_congr`: what does not write data changes links only, and what does not touch
  links goes by what is not a link;
* `disciplined_program`: the locks an action calls for are held, `list_lock` is taken under `data_lock`, and both
  are released.
-/

namespace HyScanCache.Cached

open Lib Recency HyScanCachedPrivate

variable {β : Type} [HyScanBuffer β]
variable {priv priv' : HyScanCachedPrivate} {block : Block}

/-! ### Actions -/

/-- The part of `hyscan_cached_place_object_on_top_of_used` that follows the removal. -/
def insertOnTop (priv : HyScanCachedPrivate) (object : Ptr) : Exec HyScanCachedPrivate := do
  if priv.topObject = none ∧ priv.bottomObject = none then
    return { priv with topObject := object, bottomObject := object }
  else
    let priv ← priv.store priv.topObject fun x => { x with prev := object }
    let priv ← priv.store object fun x => { x with next := priv.topObject }
    return { priv with topObject := object }

theorem placeObjectOnTopOfUsed_eq_bind (object : Ptr) :
    placeObjectOnTopOfUsed priv object = removeObjectFromUsed priv object >>= fun priv => insertOnTop priv object :=
  rfl

/-- What a call does to the private data. -/
inductive CachedOp (β : Type) where
  | cacheSize
  | lookup (key : UInt64)
  | dropObject (object : Ptr)
  | makeRoom (key : UInt64) (object : Ptr) (size : UInt32)
  | storeObject (object : Ptr) (key detail : UInt64) (data1 data2 : Bytes)
  | removeObjectFromUsed (object : Ptr)
  | insertOnTop (object : Ptr)
  | getObject (key detail : UInt64)
  | copyFirst (object : Ptr) (size1 : UInt32) (bufs : Buffers β) (buffer1 : BufferPtr)
  | copySecond (object : Ptr) (size1 : UInt32) (bufs : Buffers β) (buffer2 : BufferPtr)

namespace CachedOp

/-- What it gets. -/
@[reducible] def Ans : CachedOp β → Type
  | cacheSize => UInt64
  | lookup .. | makeRoom .. | storeObject .. | getObject .. => Ptr
  | dropObject .. | removeObjectFromUsed .. | insertOnTop .. => Unit
  | copyFirst .. | copySecond .. => Option (UInt32 × Buffers β)

/-- The action, with the block its allocation is given. -/
def run (block : Block) (priv : HyScanCachedPrivate) : (o : CachedOp β) → Exec (o.Ans × HyScanCachedPrivate)
  | cacheSize => return (priv.cacheSize, priv)
  | lookup key => do
    let object ← priv.lookup key
    return (object, priv)
  | dropObject object => do
    let priv ← Cached.dropObject priv object
    return ((), priv)
  | makeRoom key object size => Cached.makeRoom priv key object size
  | storeObject object key detail data1 data2 => Cached.storeObject block priv object key detail data1 data2
  | removeObjectFromUsed object => do
    let priv ← Cached.removeObjectFromUsed priv object
    return ((), priv)
  | insertOnTop object => do
    let priv ← Cached.insertOnTop priv object
    return ((), priv)
  | getObject key detail => do
    let object ← Cached.getObject priv key detail
    return (object, priv)
  | copyFirst object size1 bufs buffer1 => do
    let copied ← Cached.copyFirst priv object size1 bufs buffer1
    return (copied, priv)
  | copySecond object size1 bufs buffer2 => do
    let copied ← Cached.copySecond priv object size1 bufs buffer2
    return (copied, priv)

/-- The action takes place, with any block. -/
def Does (o : CachedOp β) (priv : HyScanCachedPrivate) (a : o.Ans) (priv' : HyScanCachedPrivate) : Prop :=
  ∃ block, o.run block priv = .ok (a, priv')

/-- It writes the table, the objects or `used_size`. -/
def WritesData : CachedOp β → Prop
  | dropObject .. | makeRoom .. | storeObject .. => True
  | _ => False

/-- It reads the table or the objects, or writes them. -/
def TouchesData : CachedOp β → Prop
  | cacheSize => False
  | _ => True

/-- It reads or writes the list. -/
def TouchesLinks : CachedOp β → Prop
  | dropObject .. | makeRoom .. | storeObject .. | removeObjectFromUsed .. | insertOnTop .. => True
  | _ => False

omit [HyScanBuffer β] in
theorem TouchesLinks.data {o : CachedOp β} (ho : o.TouchesLinks) : o.TouchesData := by
  cases o with
  | cacheSize => exact ho
  | _ => trivial

/-- Two actions that must not take place at the same time. -/
def Conflict (o o' : CachedOp β) : Prop :=
  o.WritesData ∧ o'.TouchesData ∨ o.TouchesData ∧ o'.WritesData ∨ o.TouchesLinks ∧ o'.TouchesLinks

omit [HyScanBuffer β] in
theorem Conflict.symm {o o' : CachedOp β} (h : o.Conflict o') : o'.Conflict o := by
  rcases h with ⟨h, h'⟩ | ⟨h, h'⟩ | ⟨h, h'⟩
  · exact .inr (.inl ⟨h', h⟩)
  · exact .inl ⟨h', h⟩
  · exact .inr (.inr ⟨h', h⟩)

end CachedOp

/-! ### The programs -/

/-- The locks of `HyScanCachedPrivate`. -/
inductive CacheLock where
  | dataLock | listLock
  deriving DecidableEq

export CacheLock (dataLock listLock)

/-- A program that takes the locks of the cache. -/
abbrev CachedProg (β α : Type) := LockProg CacheLock (CachedOp β) CachedOp.Ans α

/-- Perform an action. -/
abbrev perform (o : CachedOp β) : CachedProg β o.Ans := act o

/-- A call. -/
inductive Call (β : Type) where
  | set (c : SetCall β)
  | get (c : GetCall β)

/-- What a call returns, and the buffers it leaves. -/
inductive Answer (β : Type) where
  | set (status : Bool)
  | get (status : Bool) (bufs : Buffers β)

/-- `hyscan_cached_place_object_on_top_of_used`, under its lock. -/
def placeBody (object : Ptr) : CachedProg β Unit := do
  perform (.removeObjectFromUsed object)
  perform (.insertOnTop object)

/-- What `hyscan_cached_set` does under `data_lock`. -/
def setBody (c : SetCall β) : CachedProg β (Answer β) := do
  let size := callSize c
  let object ← perform (.lookup c.key)
  if size = 0 then
    if object ≠ none then
      perform (.dropObject object)
      return .set true
    else
      return .set true
  else
    let object ← perform (.makeRoom c.key object size)
    let object ← perform (.storeObject object c.key c.detail (givenBytes c.buffer1) (givenBytes c.buffer2))
    locked listLock .exclusive (placeBody object)
    return .set true

theorem setBody_eq (c : SetCall β) :
    setBody c = .op (.act (.lookup c.key)) fun object =>
      if callSize c = 0 then
        if object ≠ none then
          .op (.act (.dropObject object)) fun _ => .ret (.set true)
        else
          .ret (.set true)
      else
        .op (.act (.makeRoom c.key object (callSize c))) fun object =>
          .op (.act (.storeObject object c.key c.detail (givenBytes c.buffer1) (givenBytes c.buffer2))) fun object =>
            locked listLock .exclusive (placeBody object) >>= fun _ => .ret (.set true) := rfl

/-- `hyscan_cached_set` -/
def setProgram (c : SetCall β) : CachedProg β (Answer β) := do
  let cacheSize ← perform .cacheSize
  if (callSize c).toUInt64 > cacheSize / 10 then
    return .set false
  else
    locked dataLock .exclusive (setBody c)

theorem setProgram_eq (c : SetCall β) :
    setProgram c = .op (.act .cacheSize) fun cacheSize =>
      if (callSize c).toUInt64 > cacheSize / 10 then .ret (.set false)
      else locked dataLock .exclusive (setBody c) := rfl

/-- The copies of `hyscan_cached_get`. -/
def copyBody (c : GetCall β) (object : Ptr) : CachedProg β (Answer β) := do
  match ← perform (.copyFirst object c.size1 c.bufs c.buffer1) with
  | none => return .get false c.bufs
  | some (size1, bufs) =>
    match ← perform (.copySecond object size1 bufs c.buffer2) with
    | none => return .get false bufs
    | some (_, bufs) => return .get true bufs

/-- What `hyscan_cached_get` does with an object it has found. -/
def foundBody (c : GetCall β) (object : Ptr) : CachedProg β (Answer β) := do
  locked listLock .exclusive (placeBody object)
  copyBody c object

/-- What `hyscan_cached_get` does under `data_lock`. -/
def getBody (c : GetCall β) : CachedProg β (Answer β) := do
  let object ← perform (.getObject c.key c.detail)
  if object = none then
    return .get false c.bufs
  else
    foundBody c object

omit [HyScanBuffer β] in
theorem getBody_eq (c : GetCall β) :
    getBody c = .op (.act (.getObject c.key c.detail)) fun object =>
      if object = none then .ret (.get false c.bufs) else foundBody c object := rfl

/-- `hyscan_cached_get` -/
def getProgram (c : GetCall β) : CachedProg β (Answer β) := do
  if c.buffer1 = none ∧ c.buffer2 ≠ none then
    return .get false c.bufs
  else
    locked dataLock .shared (getBody c)

/-- The program of a call. -/
def callProgram : Call β → CachedProg β (Answer β)
  | .set c => setProgram c
  | .get c => getProgram c

/-- **Threads that call `set` and `get` of one cache.** -/
def threads (β : Type) [HyScanBuffer β] :
    Lts (Threads CacheLock (CachedOp β) CachedOp.Ans (Call β) (Answer β) HyScanCachedPrivate)
      (ℕ × Deed CacheLock (CachedOp β) CachedOp.Ans (Call β) (Answer β)) :=
  Threads.system (fun priv => (cached β).init priv) callProgram CachedOp.Does

section Uses

/-- What is done under `data_lock` leaves it alone. -/
def LeavesData (op : LockOp CacheLock (CachedOp β)) : Prop := ∀ m, op ≠ .acquire dataLock m ∧ op ≠ .release dataLock m

theorem uses_setBody (c : SetCall β) : (setBody c).Uses LeavesData := by
  have hact (o : CachedOp β) : LeavesData (.act o) := fun m => ⟨nofun, nofun⟩
  have hlist (m : Mode) : LeavesData (β := β) (.acquire listLock m) ∧ LeavesData (β := β) (.release listLock m) :=
    ⟨fun m' => ⟨nofun, nofun⟩, fun m' => ⟨nofun, nofun⟩⟩
  rw [setBody_eq]
  refine ⟨hact _, fun object => ?_⟩
  beta_reduce
  split
  · split
    · exact ⟨hact _, fun _ => trivial⟩
    · trivial
  · exact ⟨hact _, fun _ => ⟨hact _, fun _ => ⟨(hlist _).1, fun _ => ⟨hact _, fun _ => ⟨hact _, fun _ =>
      ⟨(hlist _).2, fun _ => trivial⟩⟩⟩⟩⟩⟩

end Uses

/-! ### One thread alone -/

/-- A call of the functions of the source. -/
def Call.run (block : Block) (priv : HyScanCachedPrivate) : Call β → Exec (Answer β × HyScanCachedPrivate)
  | .set c => do
    let (status, priv) ← callSet block priv c
    return (.set status, priv)
  | .get c => do
    let (status, bufs, priv) ← callGet priv c
    return (.get status bufs, priv)

/-- The actions of a thread that is alone. -/
def handleAlone (block : Block) :
    (o : LockOp CacheLock (CachedOp β)) → HyScanCachedPrivate → Exec (o.Ans CachedOp.Ans × HyScanCachedPrivate)
  | .acquire .., priv => .ok ((), priv)
  | .release .., priv => .ok ((), priv)
  | .act o, priv => o.run block priv

section Alone

variable {α γ : Type}

theorem run_act {o : CachedOp β} {k : o.Ans → CachedProg β α} :
    Prog.run (handleAlone block) (.op (.act o) k) priv =
      o.run block priv >>= fun r => (k r.1).run (handleAlone block) r.2 := rfl

theorem run_perform (o : CachedOp β) : Prog.run (handleAlone block) (perform o) priv = o.run block priv := by
  have h : Prog.run (handleAlone block) (perform o) priv = o.run block priv >>= fun r => .ok (r.1, r.2) := rfl
  rw [h]
  cases o.run block priv <;> rfl

theorem run_locked (l : CacheLock) (m : Mode) (p : CachedProg β α) :
    (locked l m p).run (handleAlone block) priv = p.run (handleAlone block) priv := by
  have h : (locked l m p).run (handleAlone block) priv = (leaving l m p).run (handleAlone block) priv := rfl
  rw [h, leaving, Prog.run_bind]
  cases p.run (handleAlone block) priv <;> rfl

theorem run_placeBody (object : Ptr) :
    (placeBody (β := β) object).run (handleAlone block) priv =
      (placeObjectOnTopOfUsed priv object).map fun priv => ((), priv) := by
  rw [placeObjectOnTopOfUsed_eq_bind, placeBody, Prog.perform_bind, run_act, CachedOp.run]
  cases removeObjectFromUsed priv object with
  | error f => rfl
  | ok priv₁ =>
    rw [Exec.ok_bind, Exec.pure_eq, Exec.ok_bind, Exec.ok_bind, run_perform, CachedOp.run]
    cases insertOnTop priv₁ object <;> rfl

theorem run_copyBody (c : GetCall β) (object : Ptr) :
    (copyBody c object).run (handleAlone block) priv = (do
      match ← copyFirst priv object c.size1 c.bufs c.buffer1 with
      | none => return (.get false c.bufs, priv)
      | some (size1, bufs) =>
        match ← copySecond priv object size1 bufs c.buffer2 with
        | none => return (.get false bufs, priv)
        | some (_, bufs) => return (.get true bufs, priv)) := by
  rw [copyBody, Prog.perform_bind, run_act, CachedOp.run]
  cases copyFirst priv object c.size1 c.bufs c.buffer1 with
  | error f => rfl
  | ok first =>
    simp only [Exec.ok_bind, Exec.pure_eq]
    cases first with
    | none => rfl
    | some r =>
      simp only [Prog.perform_bind]
      rw [run_act, CachedOp.run]
      cases copySecond priv object r.1 r.2 c.buffer2 with
      | error f => rfl
      | ok second => cases second <;> rfl

/-- `hyscan_cached_get`, alone. -/
theorem run_getProgram (c : GetCall β) :
    (getProgram c).run (handleAlone block) priv = (Call.get c).run block priv := by
  rw [getProgram, Call.run, callGet, get]
  split
  · rfl
  rw [run_locked, getBody, Prog.perform_bind, run_act, CachedOp.run]
  cases getObject priv c.key c.detail with
  | error f => rfl
  | ok object =>
    simp only [Exec.ok_bind, Exec.pure_eq]
    split
    · rfl
    rw [foundBody, Prog.run_bind, run_locked, run_placeBody]
    cases placeObjectOnTopOfUsed priv object with
    | error f => rfl
    | ok priv₁ =>
      have hmap : (Except.ok priv₁ : Exec _).map (fun priv => ((), priv)) = .ok ((), priv₁) := rfl
      rw [hmap, Exec.ok_bind, run_copyBody, Exec.ok_bind]
      cases copyFirst priv₁ object c.size1 c.bufs c.buffer1 with
      | error f => rfl
      | ok first =>
        cases first with
        | none => rfl
        | some r =>
          simp only [Exec.ok_bind]
          cases copySecond priv₁ object r.1 r.2 c.buffer2 with
          | error f => rfl
          | ok second => cases second <;> rfl

/-- `hyscan_cached_set`, alone. -/
theorem run_setProgram (c : SetCall β) :
    (setProgram c).run (handleAlone block) priv = (Call.set c).run block priv := by
  have hsize : guint32Size (givenBytes c.buffer1) + guint32Size (givenBytes c.buffer2) = callSize c := rfl
  rw [setProgram, Prog.perform_bind, run_act, CachedOp.run, Exec.pure_eq, Exec.ok_bind, Call.run, callSet, set]
  simp only [hsize]
  split
  · rfl
  rw [run_locked, setBody]
  simp only [Prog.perform_bind]
  rw [run_act, CachedOp.run]
  cases priv.lookup c.key with
  | error f => rfl
  | ok object =>
    simp only [Exec.ok_bind, Exec.pure_eq]
    split
    · split
      · rw [run_act, CachedOp.run]
        cases dropObject priv object <;> rfl
      · rfl
    · rw [run_act, CachedOp.run]
      cases makeRoom priv c.key object (callSize c) with
      | error f => rfl
      | ok r =>
        rw [Exec.ok_bind, Exec.ok_bind, run_act, CachedOp.run]
        cases storeObject block r.2 r.1 c.key c.detail (givenBytes c.buffer1) (givenBytes c.buffer2) with
        | error f => rfl
        | ok r₁ =>
          rw [Exec.ok_bind, Exec.ok_bind, Prog.run_bind, run_locked, run_placeBody]
          cases placeObjectOnTopOfUsed r₁.2 r₁.1 <;> rfl

/-- **With nobody else about, the programs are the functions of the source.** -/
theorem run_program (c : Call β) : (callProgram c).run (handleAlone block) priv = c.run block priv := by
  cases c with
  | set c => exact run_setProgram c
  | get c => exact run_getProgram c

end Alone

/-! ### What actions leave alone -/

section Frame

theorem Exec.bind_eq_ok {α γ : Type} {x : Exec α} {f : α → Exec γ} {b : γ} :
    (x >>= f) = .ok b ↔ ∃ a, x = .ok a ∧ f a = .ok b := by
  cases x with
  | error e => simp
  | ok a => simp

theorem store_links {p : Ptr} {f : ObjectInfo → ObjectInfo} (h : priv.store p f = .ok priv')
    (hf : ∀ o, bare (f o) = bare o) : LinksOnly priv priv' := by
  obtain ⟨o, -, he⟩ := Exec.bind_eq_ok.1 h
  cases he
  exact ⟨rfl, rfl, rfl, SameBare.modify _ _ hf⟩

theorem ends_links (priv : HyScanCachedPrivate) (top bottom : Ptr) :
    LinksOnly priv { priv with topObject := top, bottomObject := bottom } := ⟨rfl, rfl, rfl, SameBare.refl _⟩

theorem removeObjectFromUsed_links {object : Ptr} (h : removeObjectFromUsed priv object = .ok priv') :
    LinksOnly priv priv' := by
  unfold removeObjectFromUsed at h
  split at h
  · cases h
    exact ends_links priv none none
  obtain ⟨o, -, h⟩ := Exec.bind_eq_ok.1 h
  split at h
  · cases h
    exact .refl _
  split at h
  · obtain ⟨priv₁, h1, h⟩ := Exec.bind_eq_ok.1 h
    obtain ⟨o', -, h⟩ := Exec.bind_eq_ok.1 h
    obtain ⟨priv₂, h2, h⟩ := Exec.bind_eq_ok.1 h
    exact ((store_links h1 fun _ => rfl).trans (store_links h2 fun _ => rfl)).trans
      (store_links h fun _ => rfl)
  · split at h
    · obtain ⟨priv₁, h1, h⟩ := Exec.bind_eq_ok.1 h
      exact ((ends_links priv o.next priv.bottomObject).trans (store_links h1 fun _ => rfl)).trans
        (store_links h fun _ => rfl)
    · obtain ⟨priv₁, h1, h⟩ := Exec.bind_eq_ok.1 h
      exact ((ends_links priv priv.topObject o.prev).trans (store_links h1 fun _ => rfl)).trans
        (store_links h fun _ => rfl)

theorem insertOnTop_links {object : Ptr} (h : insertOnTop priv object = .ok priv') : LinksOnly priv priv' := by
  unfold insertOnTop at h
  split at h
  · cases h
    exact ends_links priv object object
  · obtain ⟨priv₁, h1, h⟩ := Exec.bind_eq_ok.1 h
    obtain ⟨priv₂, h2, h⟩ := Exec.bind_eq_ok.1 h
    cases h
    exact ((store_links h1 fun _ => rfl).trans (store_links h2 fun _ => rfl)).trans
      (ends_links priv₂ object priv₂.bottomObject)

theorem LinksOnly.load_bind {γ : Type} (hlo : LinksOnly priv priv') (p : Ptr) {f : ObjectInfo → Exec γ}
    (hf : ∀ o o', bare o' = bare o → f o' = f o) :
    (load priv'.heap p >>= f) = (load priv.heap p >>= f) := by
  cases p with
  | none => rfl
  | some a =>
    cases ha : priv.heap a with
    | none => simp [load, ha, (hlo.heap.eq_none a).2 ha]
    | some o =>
      obtain ⟨o', ho', hb⟩ := hlo.heap.some_left ha
      rw [load_live ha, load_live ho', Exec.ok_bind, Exec.ok_bind, hf o o' hb]

/-- **An action that does not touch links** goes by what is not a link, and leaves the cache as it is. -/
theorem CachedOp.run_congr {o : CachedOp β} (ho : ¬ o.TouchesLinks) (hlo : LinksOnly priv priv') :
    o.run block priv' = (o.run block priv).map fun r => (r.1, priv') := by
  have hread {α : Type} {x y : Exec α} (hxy : y = x) : (y >>= fun a => .ok (a, priv')) =
      (x >>= fun a => .ok (a, priv)).map fun r => (r.1, priv') := by
    rw [hxy]
    cases x <;> rfl
  cases o with
  | cacheSize =>
    rw [run, hlo.cacheSize]
    rfl
  | lookup key =>
    refine hread ?_
    rw [HyScanCachedPrivate.lookup, HyScanCachedPrivate.lookup, hlo.objects, extract_sameBare hlo.heap]
  | getObject key detail => exact hread (hlo.getObject_eq key detail)
  | copyFirst object size1 bufs buffer1 =>
    refine hread (hlo.load_bind object fun o o' hb => ?_)
    have hsize : o'.size = o.size := (congrArg ObjectInfo.size hb :)
    have hdata : o'.data = o.data := (congrArg ObjectInfo.data hb :)
    rw [hsize, hdata]
  | copySecond object size1 bufs buffer2 =>
    refine hread (hlo.load_bind object fun o o' hb => ?_)
    have hsize : o'.size = o.size := (congrArg ObjectInfo.size hb :)
    have hdata : o'.data = o.data := (congrArg ObjectInfo.data hb :)
    rw [hsize, hdata]
  | dropObject | makeRoom | storeObject | removeObjectFromUsed | insertOnTop => exact absurd trivial ho

theorem CachedOp.run_eq {o : CachedOp β} {a : o.Ans} (ho : ¬ o.TouchesLinks) (h : o.run block priv = .ok (a, priv')) :
    priv' = priv := by
  rw [run_congr ho (.refl priv)] at h
  cases hr : o.run block priv with
  | error f =>
    rw [hr] at h
    cases h
  | ok r =>
    rw [hr] at h
    cases h
    rfl

/-- **An action that does not write data** changes links only. -/
theorem CachedOp.run_links {o : CachedOp β} {a : o.Ans} (ho : ¬ o.WritesData)
    (h : o.run block priv = .ok (a, priv')) :
    LinksOnly priv priv' := by
  by_cases hl : o.TouchesLinks
  · cases o with
    | removeObjectFromUsed object =>
      obtain ⟨priv₁, hr, he⟩ := Exec.bind_eq_ok.1 h
      cases he
      exact removeObjectFromUsed_links hr
    | insertOnTop object =>
      obtain ⟨priv₁, hi, he⟩ := Exec.bind_eq_ok.1 h
      cases he
      exact insertOnTop_links hi
    | dropObject | makeRoom | storeObject => exact absurd trivial ho
    | cacheSize | lookup | getObject | copyFirst | copySecond => exact absurd hl id
  · rw [run_eq hl h]
    exact .refl _

end Frame

/-! ### The discipline -/

section Discipline

variable {held held' : Held CacheLock} {o o' : CachedOp β}

/-- `list_lock` is taken under `data_lock`. -/
def CacheLock.rank : CacheLock → ℕ
  | dataLock => 0
  | listLock => 1

/-- The locks an action calls for. -/
def CachedOp.Allowed (o : CachedOp β) (held : Held CacheLock) : Prop :=
  (o.TouchesData → held dataLock ≠ none) ∧ (o.WritesData → held dataLock = some .exclusive) ∧
    (o.TouchesLinks → held dataLock = some .exclusive ∨ held listLock = some .exclusive)

omit [HyScanBuffer β] in
/-- **Actions in conflict call for locks at odds.** -/
theorem CachedOp.Conflict.atOdds (hc : o.Conflict o') (h : o.Allowed held) (h' : o'.Allowed held') :
    AtOdds held held' := by
  rcases hc with ⟨hw, ht⟩ | ⟨ht, hw⟩ | ⟨hl, hl'⟩
  · exact ⟨dataLock, .inl ⟨h.2.1 hw, h'.1 ht⟩⟩
  · exact ⟨dataLock, .inr ⟨h.1 ht, h'.2.1 hw⟩⟩
  · rcases h.2.2 hl with hx | hx
    · exact ⟨dataLock, .inl ⟨hx, h'.1 hl'.data⟩⟩
    · rcases h'.2.2 hl' with hx' | hx'
      · exact ⟨dataLock, .inr ⟨h.1 hl.data, hx'⟩⟩
      · exact ⟨listLock, .inl ⟨hx, by rw [hx']; nofun⟩⟩

omit [HyScanBuffer β] in
theorem disciplined_place (object : Ptr) (hd : held dataLock ≠ none) (hl : held listLock = none) :
    Disciplined CacheLock.rank CachedOp.Allowed held held
      (locked listLock .exclusive (placeBody (β := β) object)) := by
  refine .locked (fun l h => ?_) ?_
  · cases l with
    | dataLock => exact Nat.zero_lt_one
    | listLock => exact absurd hl h
  · have hd' : Function.update held listLock (some .exclusive) dataLock ≠ none := hd
    exact ⟨⟨fun _ => hd', nofun, fun _ => .inr rfl⟩, fun _ =>
      ⟨⟨fun _ => hd', nofun, fun _ => .inr rfl⟩, fun _ => rfl⟩⟩

theorem disciplined_setBody (c : SetCall β) (hd : held dataLock = some .exclusive) (hl : held listLock = none) :
    Disciplined CacheLock.rank CachedOp.Allowed held held (setBody c) := by
  have hallowed (o : CachedOp β) : o.Allowed held := ⟨fun _ => by rw [hd]; nofun, fun _ => hd, fun _ => .inl hd⟩
  rw [setBody_eq]
  refine ⟨hallowed _, fun object => ?_⟩
  beta_reduce
  split
  · split
    · exact ⟨hallowed _, fun _ => rfl⟩
    · rfl
  · exact ⟨hallowed _, fun _ => ⟨hallowed _, fun _ => (disciplined_place _ (by rw [hd]; nofun) hl).bind fun _ => rfl⟩⟩

omit [HyScanBuffer β] in
theorem disciplined_copyBody (c : GetCall β) (object : Ptr) (hd : held dataLock ≠ none) :
    Disciplined CacheLock.rank CachedOp.Allowed held held (copyBody c object) := by
  refine ⟨⟨fun _ => hd, nofun, nofun⟩, fun first => ?_⟩
  cases first with
  | none => rfl
  | some r =>
    refine ⟨⟨fun _ => hd, nofun, nofun⟩, fun second => ?_⟩
    cases second <;> rfl

omit [HyScanBuffer β] in
theorem disciplined_getBody (c : GetCall β) (hd : held dataLock ≠ none) (hl : held listLock = none) :
    Disciplined CacheLock.rank CachedOp.Allowed held held (getBody c) := by
  rw [getBody_eq]
  refine ⟨⟨fun _ => hd, nofun, nofun⟩, fun object => ?_⟩
  beta_reduce
  split
  · rfl
  · exact (disciplined_place object hd hl).bind fun _ => disciplined_copyBody c object hd

/-- **Every call keeps the discipline.** -/
theorem disciplined_program (c : Call β) :
    Disciplined CacheLock.rank CachedOp.Allowed noLocks noLocks (callProgram c) := by
  cases c with
  | set c =>
    show Disciplined _ _ _ _ (setProgram c)
    rw [setProgram_eq]
    refine ⟨⟨nofun, nofun, nofun⟩, fun cacheSize => ?_⟩
    beta_reduce
    split
    · rfl
    · exact .locked (fun l h => absurd rfl h) (disciplined_setBody c rfl rfl)
  | get c =>
    show Disciplined _ _ _ _ (getProgram c)
    rw [getProgram]
    split
    · rfl
    · exact .locked (fun l h => absurd rfl h) (disciplined_getBody c nofun rfl)

end Discipline

end HyScanCache.Cached
