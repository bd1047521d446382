import HyScanCache.Cached.Locked

/-!
# Critical sections

What a call does under the locks, from a cache that represents a store: it takes the actions of the whole call, every
one of which can take place, and comes to what the whole call comes to.  For `get` this is said of the move to the top
and of the copies apart, because other readers may move objects in between.

* `placeBody_safely`, `setBody_safely`: the sections under `list_lock` and under the writer's `data_lock`;
* `found_takesEffect`: what the copies of `get` return is settled when the object is on top, and stays settled while
  links only are changed (`Steady`).
-/

namespace HyScanCache.Cached

open Lib Recency HyScanCachedPrivate

variable {β : Type} [HyScanBuffer β]
variable {priv priv' mem mem' : HyScanCachedPrivate} {s : Store} {l : List Cell} {limit : UInt64} {a : Addr}

/-- The call of an event. -/
def callOf : Event β → Call β
  | .set c _ => .set c
  | .get c .. => .get c

/-- What it has returned. -/
def answerOf : Event β → Answer β
  | .set _ status => .set status
  | .get _ _ status bufs => .get status bufs

/-! ### What an action needs -/

/-- The action can take place, and only the allocator can keep it from it. -/
def CachedOp.Suits (o : CachedOp β) (priv : HyScanCachedPrivate) : Prop :=
  (∃ a priv', o.Does priv a priv') ∧
    ∀ block f, o.run block priv = .error f → f = .allocator ∧ priv.heap block.addr ≠ none

/-- What a thread does next suits the cache, whose limit is `limit`. -/
def Suitable (limit : UInt64) (op : LockOp CacheLock (CachedOp β)) (priv : HyScanCachedPrivate) : Prop :=
  priv.cacheSize = limit ∧ ∀ o, op = .act o → o.Suits priv

section Rules

variable {α : Type} {Q : α → HyScanCachedPrivate → Prop}

/-- An action whose result does not depend on the allocator. -/
theorem CachedOp.Suits.of_run {o : CachedOp β} {x : o.Ans} (h : ∀ block, o.run block priv = .ok (x, priv')) :
    o.Suits priv := by
  refine ⟨⟨x, priv', ⟨0, fun _ => 0⟩, h _⟩, fun block f hf => ?_⟩
  rw [h block] at hf
  cases hf

theorem safely_act {o : CachedOp β} {k : o.Ans → CachedProg β α} (hs : o.Suits priv) (hl : priv.cacheSize = limit)
    (hk : ∀ block x priv', o.run block priv = .ok (x, priv') →
      (k x).Safely (Alone CachedOp.Does) (Suitable limit) Q priv') :
    (Prog.op (.act o) k : CachedProg β α).Safely (Alone CachedOp.Does) (Suitable limit) Q priv := by
  refine ⟨⟨hl, fun o' ho => LockOp.act.inj ho ▸ hs⟩, fun x priv' hx => ?_⟩
  cases hx with
  | act h =>
    obtain ⟨block, h⟩ := h
    exact hk block x priv' h

theorem safely_run {o : CachedOp β} {k : o.Ans → CachedProg β α} {x : o.Ans}
    (h : ∀ block, o.run block priv = .ok (x, priv')) (hl : priv.cacheSize = limit)
    (hk : (k x).Safely (Alone CachedOp.Does) (Suitable limit) Q priv') :
    (Prog.op (.act o) k : CachedProg β α).Safely (Alone CachedOp.Does) (Suitable limit) Q priv := by
  refine safely_act (.of_run h) hl fun block y priv₁ hy => ?_
  rw [h block] at hy
  cases hy
  exact hk

theorem safely_locked {l : CacheLock} {m : Mode} {p : CachedProg β α} (hl : priv.cacheSize = limit)
    (hp : p.Safely (Alone CachedOp.Does) (Suitable limit) (fun x priv' => priv'.cacheSize = limit ∧ Q x priv') priv) :
    (locked l m p).Safely (Alone CachedOp.Does) (Suitable limit) Q priv := by
  refine ⟨⟨hl, fun o ho => by cases ho⟩, fun u priv' hu => ?_⟩
  cases hu
  show (leaving l m p).Safely (Alone CachedOp.Does) (Suitable limit) Q priv
  rw [leaving]
  refine Prog.Safely.bind (hp.mono fun x priv' hx => ⟨⟨hx.1, fun o ho => by cases ho⟩, fun u priv₁ hu => ?_⟩)
  cases hu
  exact hx.2

theorem safely_size {p : CachedProg β α}
    (hp : p.Safely (Alone CachedOp.Does) (Suitable limit) Q mem) (hQ : ∀ x mem, Q x mem → mem.cacheSize = limit) :
    mem.cacheSize = limit := by
  cases p with
  | ret x => exact hQ x mem hp
  | op op k => exact hp.1.1

end Rules

/-! ### The bodies -/

theorem placeBody_safely {object : Ptr} (h : placeObjectOnTopOfUsed priv object = .ok priv')
    (hl : priv.cacheSize = limit) :
    (placeBody (β := β) object).Safely (Alone CachedOp.Does) (Suitable limit)
      (fun _ mem => mem.cacheSize = limit ∧ mem = priv') priv := by
  rw [placeObjectOnTopOfUsed_eq_bind] at h
  obtain ⟨priv₁, hr, hi⟩ := Exec.bind_eq_ok.1 h
  have hl₁ : priv₁.cacheSize = limit := (removeObjectFromUsed_links hr).cacheSize.trans hl
  have h1 (block : Block) : (CachedOp.removeObjectFromUsed (β := β) object).run block priv = .ok ((), priv₁) := by
    rw [CachedOp.run, hr]
    rfl
  have h2 (block : Block) : (CachedOp.insertOnTop (β := β) object).run block priv₁ = .ok ((), priv') := by
    rw [CachedOp.run, hi]
    rfl
  exact safely_run h1 hl (safely_run h2 hl₁ ⟨(insertOnTop_links hi).cacheSize.trans hl₁, rfl⟩)

/-- A `set` that the limit does not reject. -/
theorem callSet_eq {block : Block} {c : SetCall β} (hrej : ¬ (callSize c).toUInt64 > priv.cacheSize / 10) :
    callSet block priv c = (do
      let object ← priv.lookup c.key
      if callSize c = 0 then
        if object ≠ none then
          let priv ← dropObject priv object
          return (true, priv)
        else
          return (true, priv)
      let (object, priv) ← makeRoom priv c.key object (callSize c)
      let (object, priv) ← storeObject block priv object c.key c.detail (givenBytes c.buffer1) (givenBytes c.buffer2)
      let priv ← placeObjectOnTopOfUsed priv object
      return (true, priv)) := by
  rw [callSet, set]
  exact if_neg hrej

/-- **What `set` does under `data_lock`**: it comes to the end of the whole call. -/
theorem setBody_safely {c : SetCall β} (hA : Abs priv s) (hlt : c.payload.length < 2 ^ 32)
    (hrej : ¬ (callSize c).toUInt64 > priv.cacheSize / 10) :
    (setBody c).Safely (Alone CachedOp.Does) (Suitable priv.cacheSize)
      (fun r priv' => r = .set true ∧ priv'.cacheSize = priv.cacheSize ∧
        ∃ block, callSet block priv c = .ok (true, priv')) priv := by
  obtain ⟨l, hr, hs, hlim⟩ := hA
  have htot := total_cost_lt hs
  have hlook := hr.holding.lookup c.key
  have hcall (block : Block) : callSet block priv c = _ := callSet_eq hrej
  have hrun (block : Block) : (CachedOp.lookup (β := β) c.key).run block priv =
      .ok ((Recency.find Cell.key c.key l).map Prod.fst, priv) := by
    rw [CachedOp.run, hlook]
    rfl
  rw [setBody_eq]
  refine safely_run hrun rfl ?_
  simp only [hlook, Exec.ok_bind] at hcall
  split
  · next h0 =>
    simp only [if_pos h0] at hcall
    cases hf : Recency.find Cell.key c.key l with
    | none =>
      rw [hf, Option.map_none] at hcall
      exact ⟨rfl, rfl, ⟨0, fun _ => 0⟩, hcall _⟩
    | some x =>
      obtain ⟨us, vs, rfl⟩ := List.append_of_mem (mem_of_find hf)
      obtain ⟨priv', hd, -, hc⟩ := dropObject_spec us vs hr
      simp only [hf, Option.map_some, if_pos (Option.some_ne_none x.1), hd, Exec.ok_bind] at hcall
      have hdrop (block : Block) : (CachedOp.dropObject (β := β) (some x.1)).run block priv = .ok ((), priv') := by
        rw [CachedOp.run, hd]
        rfl
      rw [Option.map_some, if_pos (Option.some_ne_none _)]
      exact safely_run hdrop rfl ⟨rfl, hc, ⟨0, fun _ => 0⟩, hcall _⟩
  · next h0 =>
    simp only [if_neg h0] at hcall
    obtain ⟨priv₁, hm, h₁, hc₁⟩ := makeRoom_spec hr htot c.key (callSize c)
    simp only [hm, Exec.ok_bind] at hcall
    refine safely_run (fun block => hm) rfl ?_
    have hsize : c.size = c.payload.length := Nat.mod_eq_of_lt hlt
    have hpos : 0 < c.payload.length := Nat.pos_of_ne_zero fun h => h0 (callSize_eq_zero.2 (hsize.trans h))
    have hle := total_le_of_sublist Cell.cost (roomFor_isPrefix priv.cacheSize.toNat (callSize c).toNat l).sublist
    have hstore (block : Block) :=
      storeObject_spec (p := ⟨c.payload, hpos, hlt⟩) block c.key c.detail h₁ rfl (by omega)
    refine safely_act ⟨?_, fun block f hf => ?_⟩ hc₁ fun block object priv₂ h₂ => ?_
    · -- a block that is not live is granted
      obtain ⟨b, hb⟩ : ∃ b, priv₁.heap b = none := h₁.exists_dead
      rcases hstore ⟨b, fun _ => 0⟩ with ⟨x, priv₂, he, -⟩ | ⟨-, hg⟩
      · exact ⟨some x, priv₂, _, he⟩
      · exact absurd (.inl hb) hg
    · rcases hstore block with ⟨x, priv₂, he, -⟩ | ⟨he, hg⟩
      · rw [CachedOp.run, he] at hf
        cases hf
      · rw [CachedOp.run, he] at hf
        cases hf
        exact ⟨rfl, fun hb => hg (.inl hb)⟩
    · rcases hstore block with ⟨x, priv₃, he, hst, hc₃⟩ | ⟨he, -⟩
      · rw [CachedOp.run, he] at h₂
        cases h₂
        obtain ⟨priv₄, hp, -, hc₄⟩ := hst.placeObjectOnTopOfUsed
        refine Prog.Safely.bind (safely_locked (hc₃.trans hc₁)
          ((placeBody_safely hp (hc₃.trans hc₁)).mono fun _ mem hmem => ⟨hmem.1, rfl, hmem.1, block, ?_⟩))
        rw [hcall, he, Exec.ok_bind, hp, hmem.2]
        rfl
      · rw [CachedOp.run, he] at h₂
        cases h₂

/-- In a cache that differs from this one in links only the program, which does not touch links, returns `r`. -/
def Steady (priv : HyScanCachedPrivate) (r : Answer β) : CachedProg β (Answer β) → Prop
  | .ret a => a = r
  | .op (.act o) k => ¬ o.TouchesLinks ∧ ∃ x, (∀ block, o.run block priv = .ok (x, priv)) ∧ Steady priv r (k x)
  | .op _ _ => False

theorem Steady.links {r : Answer β} {p : CachedProg β (Answer β)} (h : Steady priv r p) (hlo : LinksOnly priv priv') :
    Steady priv' r p := by
  induction p with
  | ret a => exact h
  | op op k ih =>
    cases op with
    | acquire l m => exact h
    | release l m => exact h
    | act o =>
      obtain ⟨ho, x, hx, hk⟩ := h
      refine ⟨ho, x, fun block => ?_, ih x hk⟩
      rw [CachedOp.run_congr ho hlo, hx block]
      rfl

/-- **The copies of `get`** deliver the entry of the object, whatever becomes of the list. -/
theorem copyBody_steady {o : ObjectInfo} {e : Entry} (c : GetCall β) (ho : priv.heap a = some o) (hh : Holds o e) :
    Steady priv (.get (deliver c.bufs c.buffer1 c.buffer2 c.size1.toNat e.bytes).1
      (deliver c.bufs c.buffer1 c.buffer2 c.size1.toNat e.bytes).2) (copyBody c (some a)) := by
  have hfirst : copyFirst priv (some a) c.size1 c.bufs c.buffer1 = _ := copyFirst_eq ho hh
  refine ⟨id, (deliverPart c.bufs c.buffer1 (e.bytes.take c.size1.toNat)).map fun bufs => (min c.size1 o.size, bufs),
    fun block => ?_, ?_⟩
  · rw [CachedOp.run, hfirst]
    rfl
  rw [deliver]
  cases deliverPart c.bufs c.buffer1 (e.bytes.take c.size1.toNat) with
  | none => rfl
  | some bufs =>
    have hsecond : copySecond priv (some a) (min c.size1 o.size) bufs c.buffer2 = _ := copySecond_eq ho hh
    refine ⟨id, (deliverPart bufs c.buffer2 (e.bytes.drop c.size1.toNat)).map
      fun bufs => (o.size - min c.size1 o.size, bufs), fun block => ?_, ?_⟩
    · rw [CachedOp.run, hsecond]
      rfl
    · cases hp : deliverPart bufs c.buffer2 (e.bytes.drop c.size1.toNat) with
      | none => simp only [hp]; rfl
      | some bufs' => simp only [hp]; rfl

/-- **A `get` that has found an object**: it is moved to the top, and then the call delivers its entry. -/
theorem found_takesEffect {c : GetCall β} (hA : Abs priv s) (hr : ¬ c.Refused)
    (hg : getObject priv c.key c.detail = .ok (some a)) :
    ∃ priv' status bufs, placeObjectOnTopOfUsed priv (some a) = .ok priv' ∧
      Step priv (.get c true status bufs) priv' ∧ LinksOnly priv priv' ∧
      Steady priv' (.get status bufs) (copyBody c (some a)) := by
  obtain ⟨l, hrep, -⟩ := hA
  obtain ⟨x, -, -, hx, rfl, hf, hd, -⟩ := found_entry hrep (.refl priv) hg
  have hk : Cell.key x = c.key := key_of_find hf
  obtain ⟨us, vs, rfl⟩ := List.append_of_mem hx
  obtain ⟨priv', hp, he, hrep', hlo⟩ := get_hit hrep hr hk hd
  obtain ⟨o, ho, hh⟩ := hrep'.holding.object x (by simp)
  exact ⟨priv', _, _, hp, .get he (iff_of_true rfl ⟨hr, x.1, hg⟩), hlo, copyBody_steady c ho hh⟩

end HyScanCache.Cached
