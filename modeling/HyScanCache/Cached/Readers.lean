import HyScanCache.Cached.Laws

/-!
# Readers at the same time

`hyscan_cached_get` holds the reader side of `data_lock`, so calls of it take their steps in any order; the move
to the top is one step, under `list_lock`.  `hyscan_cached_set` has the writer side and is one step without
readers; one that rejects its payload takes no lock.  The system is `shared`; every reader remembers the cache
as it was when it entered.

* `callGet_eq_advance`: the steps of a call, one after the other, are the call;
* `Reader.Sound`: a reader has read of the cache it entered, and only links have changed since;
* `run_linear`: the state is one of a run of whole calls, each `get` in the place of its move to the top;
* `concurrent_gets`: what follows for the list, the table, the values and the order of use.
-/

namespace HyScanCache.Cached

open Lib Recency HyScanCachedPrivate

variable {β : Type} [HyScanBuffer β]
variable {priv priv' : HyScanCachedPrivate} {l : List Cell} {a : Addr} {o : ObjectInfo} {c : GetCall β}

/-! ### The steps of a call -/

/-- What a call has done since it has entered. -/
inductive Stage (β : Type) where
  | entered
  /-- It has found an object of the key and the detail. -/
  | found (object : Ptr)
  /-- It has moved the object to the top. -/
  | touched (object : Ptr)
  /-- It has copied the first part, of `size1` bytes. -/
  | copied (object : Ptr) (size1 : UInt32) (bufs : Buffers β)
  /-- It has nothing to do but leave. -/
  | finished (status : Bool) (bufs : Buffers β)

/-- The next step of a call. -/
def Stage.advance (c : GetCall β) (priv : HyScanCachedPrivate) : Stage β → Exec (HyScanCachedPrivate × Stage β)
  | .entered => do
    let object ← getObject priv c.key c.detail
    if object = none then
      return (priv, .finished false c.bufs)
    else
      return (priv, .found object)
  | .found object => do
    let priv ← placeObjectOnTopOfUsed priv object
    return (priv, .touched object)
  | .touched object => do
    match ← copyFirst priv object c.size1 c.bufs c.buffer1 with
    | none => return (priv, .finished false c.bufs)
    | some (size1, bufs) => return (priv, .copied object size1 bufs)
  | .copied object size1 bufs => do
    match ← copySecond priv object size1 bufs c.buffer2 with
    | none => return (priv, .finished false bufs)
    | some (_, bufs) => return (priv, .finished true bufs)
  | .finished status bufs => return (priv, .finished status bufs)

/-- The key the next step touches, if it does. -/
def Stage.touches (c : GetCall β) : Stage β → Option UInt64
  | .found _ => some c.key
  | _ => none

/-- **The steps of a call, one after the other, are the call.** -/
theorem callGet_eq_advance (hr : ¬ c.Refused) :
    (do
      let (priv, stage) ← Stage.advance c priv .entered
      let (priv, stage) ← stage.advance c priv
      let (priv, stage) ← stage.advance c priv
      stage.advance c priv) =
    (callGet priv c).map fun r => (r.2.2, .finished r.1 r.2.1) := by
  have hget : callGet priv c = _ := if_neg hr
  rw [hget, Stage.advance]
  cases getObject priv c.key c.detail with
  | error e => rfl
  | ok object =>
    cases object with
    | none => rfl
    | some a =>
      simp only [Exec.ok_bind, reduceCtorEq, if_false, Exec.pure_eq, Stage.advance]
      cases placeObjectOnTopOfUsed priv (some a) with
      | error e => rfl
      | ok priv₁ =>
        simp only [Exec.ok_bind]
        cases copyFirst priv₁ (some a) c.size1 c.bufs c.buffer1 with
        | error e => rfl
        | ok first =>
          cases first with
          | none => rfl
          | some r =>
            simp only [Exec.ok_bind]
            cases copySecond priv₁ (some a) r.1 r.2 c.buffer2 with
            | error e => rfl
            | ok second => cases second <;> rfl

/-! ### Changes of links -/

theorem extract_sameBare {heap heap' : Heap ObjectInfo} (hs : SameBare heap heap') (k : UInt64)
    (slots : List Slot) :
    extract heap' k slots = extract heap k slots := by
  induction slots with
  | nil => rfl
  | cons slot slots ih =>
    rw [extract, extract, ih]
    cases slot.key with
    | none => rfl
    | some b =>
      cases hb : heap b with
      | none => simp [load, hb, (hs.eq_none b).2 hb]
      | some o =>
        obtain ⟨o', ho', hbare⟩ := hs.some_left hb
        have hhash := congrArg ObjectInfo.hash hbare
        rw [load_live hb, load_live ho', Exec.ok_bind, Exec.ok_bind, show o'.hash = o.hash from hhash]

theorem LinksOnly.refl (priv : HyScanCachedPrivate) : LinksOnly priv priv := ⟨rfl, rfl, rfl, SameBare.refl _⟩

theorem LinksOnly.getObject_eq (hlo : LinksOnly priv priv') (key detail : UInt64) :
    getObject priv' key detail = getObject priv key detail := by
  have hl : priv'.lookup key = priv.lookup key := by
    rw [lookup, lookup, hlo.objects, extract_sameBare hlo.heap]
  rw [getObject, getObject, hl]
  cases priv.lookup key with
  | error e => rfl
  | ok object =>
    rw [Exec.ok_bind, Exec.ok_bind]
    cases object with
    | none => rfl
    | some b =>
      cases hb : priv.heap b with
      | none => simp [load, hb, (hlo.heap.eq_none b).2 hb]
      | some o =>
        obtain ⟨o', ho', hbare⟩ := hlo.heap.some_left hb
        have hdetail := congrArg ObjectInfo.detail hbare
        rw [load_live hb, load_live ho', Exec.ok_bind, Exec.ok_bind, show o'.detail = o.detail from hdetail]

/-! ### The system -/

/-- A call that has entered. -/
structure Reader (β : Type) where
  call : GetCall β
  /-- The cache as it was when the call entered. -/
  entry : HyScanCachedPrivate
  stage : Stage β

/-- A cache and its readers. -/
structure Shared (β : Type) where
  priv : HyScanCachedPrivate
  readers : ℕ → Option (Reader β)

/-- What happens in a step. -/
inductive Move (β : Type) where
  | set (c : SetCall β) (status : Bool)
  | enter (i : ℕ) (c : GetCall β)
  | advance (i : ℕ) (touched : Option UInt64)
  | leave (i : ℕ) (c : GetCall β) (status : Bool) (bufs : Buffers β)

/-- The key the step touches, if it does: a payload that is not empty is stored, or an object moves to the top. -/
def Move.touched : Move β → Option UInt64
  | .set c status => (Event.set c status).touched
  | .advance _ touched => touched
  | _ => none

/-- One step of the cache with its readers. -/
inductive Shared.Step : Shared β → Move β → Shared β → Prop
  | set {w : Shared β} {c : SetCall β} {status : Bool} {priv' : HyScanCachedPrivate} (block : Block)
      (hidle : status = true → ∀ i, w.readers i = none) (h : callSet block w.priv c = .ok (status, priv')) :
      Step w (.set c status) { w with priv := priv' }
  | enter {w : Shared β} {i : ℕ} {c : GetCall β} (hi : w.readers i = none) (hc : ¬ c.Refused) :
      Step w (.enter i c) { w with readers := Function.update w.readers i (some ⟨c, w.priv, .entered⟩) }
  | advance {w : Shared β} {i : ℕ} {r : Reader β} {priv' : HyScanCachedPrivate} {stage : Stage β}
      (hi : w.readers i = some r) (h : r.stage.advance r.call w.priv = .ok (priv', stage)) :
      Step w (.advance i (r.stage.touches r.call))
        ⟨priv', Function.update w.readers i (some { r with stage := stage })⟩
  | leave {w : Shared β} {i : ℕ} {r : Reader β} {status : Bool} {bufs : Buffers β}
      (hi : w.readers i = some r) (hs : r.stage = .finished status bufs) :
      Step w (.leave i r.call status bufs) { w with readers := Function.update w.readers i none }

/-- **The cache with its readers.** -/
def shared (β : Type) [HyScanBuffer β] : Lts (Shared β) (Move β) where
  init w := (cached β).init w.priv ∧ ∀ i, w.readers i = none
  tr := Shared.Step

/-! ### What a reader has read -/

/-- What a call that has found the object `o` in the block `a` of the cache `entry` has read. -/
def Stage.ReadOf (c : GetCall β) (entry : HyScanCachedPrivate) : Stage β → Prop
  | .entered => True
  | .found object | .touched object => object ≠ none ∧ getObject entry c.key c.detail = .ok object
  | .copied object size1 bufs => ∃ a o, object = some a ∧ getObject entry c.key c.detail = .ok object ∧
      entry.heap a = some o ∧ size1 = min c.size1 o.size ∧
      deliverPart c.bufs c.buffer1 ((objectBytes o).take c.size1.toNat) = some bufs
  | .finished false _ => True
  | .finished true bufs => ∃ a o, getObject entry c.key c.detail = .ok (some a) ∧ entry.heap a = some o ∧
      deliver c.bufs c.buffer1 c.buffer2 c.size1.toNat (objectBytes o) = (true, bufs)

/-- **A reader** has read of the cache it entered, and nothing but links has changed since. -/
structure Reader.Sound (r : Reader β) (priv : HyScanCachedPrivate) : Prop where
  unrefused : ¬ r.call.Refused
  links : LinksOnly r.entry priv
  read : r.stage.ReadOf r.call r.entry

section Reader

variable {entry : HyScanCachedPrivate} {r : Reader β}

omit [HyScanBuffer β] in
/-- The object a call has found is where it was, and holds what it held. -/
theorem found_entry (hr : Rep priv l) (hlo : LinksOnly entry priv)
    (hg : getObject entry c.key c.detail = .ok (some a)) :
    ∃ x o o₀, x ∈ l ∧ x.1 = a ∧ Recency.find Cell.key c.key l = some x ∧ c.Accepts x.2.detail ∧
      priv.heap a = some o ∧ Holds o x.2 ∧ entry.heap a = some o₀ ∧ bare o = bare o₀ := by
  rw [← hlo.getObject_eq, getObject_spec hr c] at hg
  cases hf : Recency.find Cell.key c.key l with
  | none => simp [hf] at hg
  | some x =>
    rw [hf, Option.bind_some] at hg
    split at hg
    · next hd =>
      obtain rfl : x.1 = a := Option.some.inj (Except.ok.inj hg)
      obtain ⟨o, ho, hh⟩ := hr.holding.object x (mem_of_find hf)
      cases he : entry.heap x.1 with
      | none =>
        rw [(hlo.heap.eq_none x.1).2 he] at ho
        cases ho
      | some o₀ =>
        obtain ⟨o', ho', hb⟩ := hlo.heap.some_left he
        obtain rfl : o = o' := Option.some.inj (ho.symm.trans ho')
        exact ⟨x, o, o₀, mem_of_find hf, rfl, rfl, hd, ho, hh, rfl, hb⟩
    · cases hg

theorem Stage.advance_entered (hlo : LinksOnly entry priv) (hr : Rep priv l) (c : GetCall β) :
    ∃ stage, Stage.entered.advance c priv = .ok (priv, stage) ∧ stage.ReadOf c entry := by
  have hg := getObject_spec hr c
  cases hobj : (Recency.find Cell.key c.key l).bind fun x => if c.Accepts x.2.detail then some x.1 else none with
  | none =>
    rw [hobj] at hg
    refine ⟨.finished false c.bufs, ?_, trivial⟩
    rw [Stage.advance, hg]
    rfl
  | some a =>
    rw [hobj] at hg
    refine ⟨.found (some a), ?_, nofun, hlo.getObject_eq _ _ ▸ hg⟩
    rw [Stage.advance, hg]
    rfl

theorem Stage.advance_found {object : Ptr} (hlo : LinksOnly entry priv) (hr : Rep priv l) (hcr : ¬ c.Refused)
    (hread : (Stage.found object).ReadOf c entry) :
    ∃ priv', (Stage.found object).advance c priv = .ok (priv', .touched object) ∧ LinksOnly priv priv' ∧
      Found priv c ∧ ∃ status bufs, callGet priv c = .ok (status, bufs, priv') := by
  obtain ⟨hne, hg⟩ := hread
  obtain ⟨a, rfl⟩ := Option.ne_none_iff_exists'.1 hne
  obtain ⟨x, -, -, hx, rfl, hf, hd, -⟩ := found_entry hr hlo hg
  obtain ⟨us, vs, rfl⟩ := List.append_of_mem hx
  have hk : Cell.key x = c.key := key_of_find hf
  obtain ⟨priv', hp, he, -, hlo'⟩ := get_hit hr hcr hk hd
  refine ⟨priv', ?_, hlo', ⟨hcr, x.1, ?_⟩, _, _, he⟩
  · rw [Stage.advance, hp]
    rfl
  · rw [hlo.getObject_eq, hg]

theorem Stage.advance_touched {object : Ptr} (hlo : LinksOnly entry priv) (hr : Rep priv l)
    (hread : (Stage.touched object).ReadOf c entry) :
    ∃ stage, (Stage.touched object).advance c priv = .ok (priv, stage) ∧ stage.ReadOf c entry := by
  obtain ⟨hne, hg⟩ := hread
  obtain ⟨a, rfl⟩ := Option.ne_none_iff_exists'.1 hne
  obtain ⟨x, o, o₀, -, rfl, -, -, ho, hh, ho₀, hb⟩ := found_entry hr hlo hg
  have hfirst : copyFirst priv (some x.1) c.size1 c.bufs c.buffer1 = _ := copyFirst_eq ho hh
  have hbytes := (hh.of_bare hb.symm).objectBytes_eq
  have hsize : o.size = o₀.size := (congrArg ObjectInfo.size hb :)
  cases hdel : deliverPart c.bufs c.buffer1 (x.2.bytes.take c.size1.toNat) with
  | none =>
    rw [hdel] at hfirst
    refine ⟨.finished false c.bufs, ?_, trivial⟩
    rw [Stage.advance, hfirst]
    rfl
  | some bufs =>
    rw [hdel] at hfirst
    refine ⟨.copied (some x.1) (min c.size1 o.size) bufs, ?_, x.1, o₀, rfl, hg, ho₀, ?_, ?_⟩
    · rw [Stage.advance, hfirst]
      rfl
    · rw [hsize]
    · rw [hbytes, hdel]

theorem Stage.advance_copied {object : Ptr} {size1 : UInt32} {bufs : Buffers β} (hlo : LinksOnly entry priv)
    (hr : Rep priv l) (hread : (Stage.copied object size1 bufs).ReadOf c entry) :
    ∃ stage, (Stage.copied object size1 bufs).advance c priv = .ok (priv, stage) ∧ stage.ReadOf c entry := by
  obtain ⟨a, o₀, rfl, hg, ho₀, rfl, hdel⟩ := hread
  obtain ⟨x, o, o₁, -, rfl, -, -, ho, hh, ho₁, hb⟩ := found_entry hr hlo hg
  obtain rfl : o₀ = o₁ := Option.some.inj (ho₀.symm.trans ho₁)
  have hbytes := (hh.of_bare hb.symm).objectBytes_eq
  have hsize : o.size = o₀.size := (congrArg ObjectInfo.size hb :)
  have hsecond : copySecond priv (some x.1) (min c.size1 o.size) bufs c.buffer2 = _ := copySecond_eq ho hh
  rw [hsize] at hsecond
  cases hdel2 : deliverPart bufs c.buffer2 (x.2.bytes.drop c.size1.toNat) with
  | none =>
    rw [hdel2] at hsecond
    refine ⟨.finished false bufs, ?_, trivial⟩
    rw [Stage.advance, hsecond]
    rfl
  | some bufs' =>
    rw [hdel2] at hsecond
    refine ⟨.finished true bufs', ?_, x.1, o₀, hg, ho₀, ?_⟩
    · rw [Stage.advance, hsecond]
      rfl
    · rw [deliver, hdel]
      simp only
      rw [hbytes, hdel2]

/-- **A step of a reader** returns, changes links only, and reads of the cache the reader entered; if it touches
a key, it leaves the cache as the whole call would. -/
theorem Reader.Sound.advance (hs : r.Sound priv) (hr : Rep priv l) :
    ∃ priv' stage, r.stage.advance r.call priv = .ok (priv', stage) ∧ LinksOnly priv priv' ∧
      stage.ReadOf r.call r.entry ∧
      (r.stage.touches r.call = none ∧ priv' = priv ∨
        r.stage.touches r.call = some r.call.key ∧ Found priv r.call ∧
          ∃ status bufs, callGet priv r.call = .ok (status, bufs, priv')) := by
  obtain ⟨hcr, hlo, hread⟩ := hs
  obtain ⟨c, entry, stage⟩ := r
  simp only at hcr hlo hread
  cases stage with
  | entered =>
    obtain ⟨stage, hadv, hread'⟩ := Stage.advance_entered hlo hr c
    exact ⟨priv, stage, hadv, .refl _, hread', .inl ⟨rfl, rfl⟩⟩
  | found object =>
    obtain ⟨priv', hadv, hlo', hfound, hget⟩ := Stage.advance_found hlo hr hcr hread
    exact ⟨priv', _, hadv, hlo', hread, .inr ⟨rfl, hfound, hget⟩⟩
  | touched object =>
    obtain ⟨stage, hadv, hread'⟩ := Stage.advance_touched hlo hr hread
    exact ⟨priv, stage, hadv, .refl _, hread', .inl ⟨rfl, rfl⟩⟩
  | copied object size1 bufs =>
    obtain ⟨stage, hadv, hread'⟩ := Stage.advance_copied hlo hr hread
    exact ⟨priv, stage, hadv, .refl _, hread', .inl ⟨rfl, rfl⟩⟩
  | finished status bufs => exact ⟨priv, _, rfl, .refl _, hread, .inl ⟨rfl, rfl⟩⟩

theorem Reader.Sound.of_links (hs : r.Sound priv) (hlo : LinksOnly priv priv') : r.Sound priv' :=
  ⟨hs.unrefused, hs.links.trans hlo, hs.read⟩

end Reader

/-! ### Runs -/

section Run

variable {w w' : Shared β} {h : List (Move β)} {m : Move β} {block : Block} {s : Store}

/-- The cache is that of a run of whole calls that touch the same keys in the same order. -/
def Linear (h : List (Move β)) (w : Shared β) : Prop :=
  ∃ h', (cached β).Run h' w.priv ∧ h'.filterMap Event.touched = h.filterMap Move.touched

/-- Every reader is sound. -/
def AllSound (w : Shared β) : Prop := ∀ i r, w.readers i = some r → r.Sound w.priv

theorem AllSound.update {i : ℕ} {r : Reader β} (ha : AllSound w) (hlo : LinksOnly w.priv priv')
    (hr : r.Sound priv') : AllSound ⟨priv', Function.update w.readers i (some r)⟩ := by
  intro j r' hj
  by_cases hji : j = i
  · obtain rfl : r = r' := by simpa [hji] using hj
    exact hr
  · exact (ha j r' (by simpa [Function.update_of_ne hji] using hj)).of_links hlo

/-- A step of the cache with its readers is a step of a run of whole calls, or leaves the cache as it was. -/
theorem Shared.Step.linear (ht : w.Step m w') (hl : Linear h w) (ha : AllSound w) :
    Linear (m :: h) w' ∧ AllSound w' := by
  obtain ⟨h', hr, hh⟩ := hl
  obtain ⟨s, -, hA⟩ := Run.abs hr
  cases ht with
  | @set c status priv' block hidle he =>
    refine ⟨⟨_, hr.cons (.set block he), ?_⟩, ?_⟩
    · rw [List.filterMap_cons, List.filterMap_cons, hh]
      rfl
    · cases status with
      | true => exact fun i r hi => by rw [hidle rfl i] at hi; cases hi
      | false =>
        obtain rfl := callSet_false hA he
        exact ha
  | @enter i c hi hc => exact ⟨⟨h', hr, hh⟩, ha.update (.refl _) ⟨hc, .refl _, trivial⟩⟩
  | @advance i r priv' stage hi he =>
    obtain ⟨l, hrep, -⟩ := hA
    have hs := ha i r hi
    obtain ⟨priv₁, stage₁, he₁, hlo, hread, hcase⟩ := hs.advance hrep
    obtain ⟨rfl, rfl⟩ : priv' = priv₁ ∧ stage = stage₁ := by simpa using he.symm.trans he₁
    refine ⟨?_, ha.update hlo ⟨hs.unrefused, hs.links.trans hlo, hread⟩⟩
    rcases hcase with ⟨htouch, rfl⟩ | ⟨htouch, hfound, status, bufs, hget⟩
    · exact ⟨h', hr, by rw [List.filterMap_cons_none (by exact htouch), hh]⟩
    · have hf : true = true ↔ Found w.priv r.call := iff_of_true rfl hfound
      have h1 : (Event.get r.call true status bufs).touched = some r.call.key := rfl
      have h2 : (Move.advance i (r.stage.touches r.call) : Move β).touched = some r.call.key := htouch
      exact ⟨_, hr.cons (.get hget hf), by rw [List.filterMap_cons_some h1, List.filterMap_cons_some h2, hh]⟩
  | @leave i r status bufs hi hst =>
    refine ⟨⟨h', hr, hh⟩, ?_⟩
    intro j r' hj
    by_cases hji : j = i
    · simp [hji] at hj
    · exact ha j r' (by simpa [Function.update_of_ne hji] using hj)

/-- **Linearization**: the state is one of a run of whole calls, each `get` in the place of its move to the top,
and every reader is sound. -/
theorem run_linear (hr : (shared β).Run h w) : Linear h w ∧ AllSound w := by
  refine Lts.Run.inv (P := fun h w => Linear h w ∧ AllSound w) ?_ ?_ hr
  · rintro w ⟨hi, hn⟩
    exact ⟨⟨[], .nil hi, rfl⟩, fun i r hir => by rw [hn i] at hir; cases hir⟩
  · rintro h w m w' - ⟨hl, ha⟩ ht
    exact Shared.Step.linear ht hl ha

end Run

/-! ### What follows -/

/-- The keys that were touched, the newest first. -/
def touches (h : List (Move β)) : List UInt64 := h.filterMap Move.touched

theorem idxOf_lt_of_lastTouch {h : List (Event β)} {k k' : UInt64} (hk : lastTouch k' h < lastTouch k h) :
    (h.filterMap Event.touched).idxOf k < (h.filterMap Event.touched).idxOf k' := by
  induction h with
  | nil => exact absurd hk (by simp [lastTouch])
  | cons ev h ih =>
    cases ht : ev.touched with
    | none =>
      rw [lastTouch_cons_of_ne (by simp [ht]), lastTouch_cons_of_ne (by simp [ht])] at hk
      rw [List.filterMap_cons_none ht]
      exact ih hk
    | some q =>
      have hle := lastTouch_le k h
      have hq : q ≠ k' := by
        rintro rfl
        rw [lastTouch_cons_self ht, lastTouch] at hk
        split at hk <;> omega
      rw [List.filterMap_cons_some ht]
      by_cases hqk : q = k
      · rw [hqk, List.idxOf_cons_self, List.idxOf_cons_ne _ (hqk ▸ hq)]
        exact Nat.succ_pos _
      · rw [lastTouch_cons_of_ne (by simp [ht, hq]), lastTouch_cons_of_ne (by simp [ht, hqk])] at hk
        rw [List.idxOf_cons_ne _ hqk, List.idxOf_cons_ne _ hq]
        exact Nat.succ_lt_succ (ih hk)

/-- The object a call works on. -/
def Stage.object : Stage β → Ptr
  | .found object | .touched object | .copied object .. => object
  | _ => none

/-- When the call entered, the object of its key and detail was `o`, in the block `a`. -/
def Reader.Finds (r : Reader β) (a : Addr) (o : ObjectInfo) : Prop :=
  getObject r.entry r.call.key r.call.detail = .ok (some a) ∧ r.entry.heap a = some o

section Finds

variable {r : Reader β}

theorem Reader.Sound.finds (hs : r.Sound priv) (hr : Rep priv l) (ha : r.stage.object = some a) :
    ∃ o, r.Finds a o := by
  have hg : getObject r.entry r.call.key r.call.detail = .ok (some a) := by
    obtain ⟨hcr, hlo, hread⟩ := hs
    cases hst : r.stage with
    | found object | touched object =>
      rw [hst] at ha hread
      obtain rfl : object = some a := ha
      exact hread.2
    | copied object size1 bufs =>
      rw [hst] at ha hread
      obtain ⟨-, -, -, hg, -⟩ := hread
      obtain rfl : object = some a := ha
      exact hg
    | entered | finished =>
      rw [hst] at ha
      cases ha
  obtain ⟨-, -, o₀, -, -, -, -, -, -, ho₀, -⟩ := found_entry hr hs.links hg
  exact ⟨o₀, hg, ho₀⟩

/-- **What a call has found stays** where it was, with all it holds. -/
theorem Reader.Sound.stays (hs : r.Sound priv) (hr : Rep priv l) (hf : r.Finds a o) :
    priv.lookup r.call.key = .ok (some a) ∧
      ∃ o', priv.heap a = some o' ∧ o'.detail = o.detail ∧ o'.size = o.size ∧ o'.data = o.data := by
  obtain ⟨x, o', o₀, -, rfl, hx, -, ho', -, ho₀, hb⟩ := found_entry hr hs.links hf.1
  obtain rfl : o = o₀ := Option.some.inj (hf.2.symm.trans ho₀)
  have hdetail := congrArg ObjectInfo.detail hb
  have hsize := congrArg ObjectInfo.size hb
  have hdata := congrArg ObjectInfo.data hb
  exact ⟨by rw [hr.holding.lookup, hx]; rfl, o', ho', hdetail, hsize, hdata⟩

/-- **A call that succeeds delivers one value**, the one its key had when it entered. -/
theorem Reader.Sound.delivers (hs : r.Sound priv) (hr : Rep priv l) {bufs : Buffers β} {b1 : ℕ}
    (hst : r.stage = .finished true bufs) (h1 : r.call.buffer1 = some b1) (hne : r.call.buffer2 ≠ some b1) :
    ∃ a o, r.Finds a o ∧ bytes (bufs b1) = (objectBytes o).take r.call.size1.toNat ∧
      ∀ b2, r.call.buffer2 = some b2 → bytes (bufs b2) = (objectBytes o).drop r.call.size1.toNat := by
  have hread := hs.read
  rw [hst] at hread
  obtain ⟨a, o, hg, ho, hdel⟩ := hread
  obtain ⟨x, o', o₀, -, rfl, -, -, -, hh, ho₀, hb⟩ := found_entry hr hs.links hg
  obtain rfl : o = o₀ := Option.some.inj (ho.symm.trans ho₀)
  have hlt : (objectBytes o).length < 2 ^ 32 := by
    rw [(hh.of_bare hb.symm).objectBytes_eq]
    exact lt_of_le_of_lt x.2.fits x.2.lt
  rw [h1] at hdel
  exact ⟨x.1, o, ⟨hg, ho⟩, deliver_true hlt hne hdel⟩

end Finds

/-- **No torn read and no lost entry**, in any order of the steps of any number of calls.  The list and the table
are consistent.  A reader does not fault; the object it works on is the one its key had when it entered; this
object stays stored with its detail, size and bytes; and what a successful reader delivers is the value of this
object.  The list is in the order of the last touches, the newest first. -/
theorem concurrent_gets {w : Shared β} {h : List (Move β)} (hr : (shared β).Run h w) :
    WellFormed w.priv ∧
    (∀ i r, w.readers i = some r →
      (∃ next, r.stage.advance r.call w.priv = .ok next) ∧
      (∀ a, r.stage.object = some a → ∃ o, r.Finds a o) ∧
      (∀ a o, r.Finds a o → w.priv.lookup r.call.key = .ok (some a) ∧
        ∃ o', w.priv.heap a = some o' ∧ o'.detail = o.detail ∧ o'.size = o.size ∧ o'.data = o.data) ∧
      ∀ bufs b1, r.stage = .finished true bufs → r.call.buffer1 = some b1 → r.call.buffer2 ≠ some b1 →
        ∃ a o, r.Finds a o ∧ bytes (bufs b1) = (objectBytes o).take r.call.size1.toNat ∧
          ∀ b2, r.call.buffer2 = some b2 → bytes (bufs b2) = (objectBytes o).drop r.call.size1.toNat) ∧
    ∃ os, Reads w.priv os ∧ os.Perm (storedObjects w.priv) ∧
      os.Pairwise fun o o' => (touches h).idxOf o.hash < (touches h).idxOf o'.hash := by
  obtain ⟨⟨h', hr', hh⟩, ha⟩ := run_linear hr
  obtain ⟨s, -, l, hrep, hs, -⟩ := Run.abs hr'
  refine ⟨hrep.wellFormed, ?_, ?_⟩
  · intro i r hi
    have hsound := ha i r hi
    obtain ⟨priv', stage, he, -⟩ := hsound.advance hrep
    exact ⟨⟨_, he⟩, fun a => hsound.finds hrep, fun a o => hsound.stays hrep,
      fun bufs b1 => hsound.delivers hrep⟩
  · obtain ⟨os, hreads, hperm, -, hsorted⟩ := (recency_order hr').1
    refine ⟨os, hreads, hperm, hsorted.imp fun hlt => ?_⟩
    rw [touches, ← hh]
    exact idxOf_lt_of_lastTouch hlt

/-- Two readers of two keys: the second one to enter is the first one to move its object to the top. -/
theorem concurrent_gets_sample : ∃ (w : Shared PlainBuffer) (h : List (Move PlainBuffer)) (r : Reader PlainBuffer)
    (bufs : Buffers PlainBuffer), (shared PlainBuffer).Run h w ∧ w.readers 0 = some r ∧
    r.stage = .finished true bufs ∧ bytes (bufs 0) = [7, 2] ∧ bytes (bufs 1) = [3] ∧ touches h = [7, 8, 8, 7] ∧
    WellFormed w.priv := by
  have h0 : (shared PlainBuffer).Run [] ⟨new 64, fun _ => none⟩ :=
    .nil ⟨init_new, fun _ => rfl⟩
  obtain ⟨priv₁, priv₂, e₁, e₂⟩ := sample_sets
  have h1 := h0.cons (Shared.Step.set _ (fun _ _ => rfl) e₁)
  have h2 := h1.cons (Shared.Step.set _ (fun _ _ => rfl) e₂)
  cases e₁
  cases e₂
  have h3 := h2.cons (Shared.Step.enter (i := 0) (c := sampleGet 7) rfl (by decide))
  have h4 := h3.cons (Shared.Step.enter (i := 1) (c := sampleGet 8) rfl (by decide))
  have h5 := h4.cons (Shared.Step.advance (i := 0) rfl rfl)
  have h6 := h5.cons (Shared.Step.advance (i := 1) rfl rfl)
  have h7 := h6.cons (Shared.Step.advance (i := 1) rfl rfl)
  have h8 := h7.cons (Shared.Step.advance (i := 0) rfl rfl)
  have h9 := h8.cons (Shared.Step.advance (i := 0) rfl rfl)
  have h10 := h9.cons (Shared.Step.advance (i := 0) rfl rfl)
  obtain ⟨hwf, hreaders, -⟩ := concurrent_gets h10
  obtain ⟨-, -, -, hdel⟩ := hreaders 0 _ rfl
  obtain ⟨a, o, ⟨hg, ho⟩, hb0, hb1⟩ := hdel _ 0 rfl rfl (by decide)
  cases hg
  cases ho
  exact ⟨_, _, _, _, h10, rfl, rfl, hb0, hb1 1 rfl, rfl, hwf⟩

end HyScanCache.Cached
