import HyScanCache.Cached.Eviction
import HyScanCache.Cached.Names

/-!
# Deletion

The interface documents that a set with `buffer1 = NULL` deletes the object of the key.  `hyscan_cached_set`
decides by the sum of the sizes of both buffers: a first buffer that is missing and a second one that is not empty
make a payload like any other, which is stored or, when it is too large, rejected (`documented_deletion`,
`stored_without_first`).  `hyscan_cache_set`, which has no second buffer, deletes (`hyscanCacheSet_null`).
-/

namespace HyScanCache.Cached

open Lib Recency HyScanCachedPrivate

variable {β : Type} [HyScanBuffer β]
variable {priv priv' : HyScanCachedPrivate} {s s' : Store} {block : Block} {k : UInt64}

/-- No object of the key is stored. -/
def Absent (priv : HyScanCachedPrivate) (k : UInt64) : Prop := ∀ o ∈ storedObjects priv, o.hash ≠ k

/-- The call is an accepted `set` of the key whose payload is not empty. -/
def Stores (k : UInt64) (ev : Event β) : Prop := ∃ c, ev = .set c true ∧ c.key = k ∧ c.payload ≠ []

/-- A `get` of the key finds nothing and changes nothing. -/
def Misses (β : Type) [HyScanBuffer β] (priv : HyScanCachedPrivate) (k : UInt64) : Prop :=
  ∀ block detail size1 (bufs : Buffers β) buffer1 buffer2,
    hyscanCacheGet2i (cachedInterface block) priv k detail size1 bufs buffer1 buffer2 = .ok (false, bufs, priv)

/-- **The object of the key is deleted** from `priv`, and `priv'` is what is left. -/
structure Deleted (β : Type) [HyScanBuffer β] (priv priv' : HyScanCachedPrivate) (k : UInt64) : Prop where
  absent : Absent priv' k
  /-- The other objects are as they were, in the order they were in. -/
  others : ∃ os os', Reads priv os ∧ Reads priv' os' ∧
    os'.map contents = (os.filter fun o => o.hash ≠ k).map contents
  /-- The memory of the object is given back, if there was one. -/
  used : priv'.usedSize.toNat + presentFootprint priv k = priv.usedSize.toNat
  /-- The key is missed until it is stored again. -/
  misses : ∀ h priv'', ((cached β).guard fun _ ev => ¬ Stores k ev).Steps priv' h priv'' → Misses β priv'' k

theorem Abs.absent_iff (hA : Abs priv s) (k : UInt64) : Absent priv k ↔ s.find k = none := by
  rw [Store.find, find_eq_none]
  constructor
  · intro ha e he hk
    obtain ⟨o, ho, hh⟩ := hA.exists_object he
    exact ha o ho (hh.hash.trans hk)
  · intro hn o ho hk
    obtain ⟨e, he, hh⟩ := hA.exists_entry ho
    exact hn e he (hh.hash.symm.trans hk)

theorem Abs.misses (hA : Abs priv s) (hf : s.find k = none) : Misses β priv k := by
  intro block detail size1 bufs buffer1 buffer2
  obtain ⟨l, hr, hs, -⟩ := hA
  let c : GetCall β := ⟨k, detail, size1, bufs, buffer1, buffer2⟩
  have hcell : Recency.find Cell.key k l = none := by
    rw [Store.find, hs, find_cells] at hf
    exact Option.map_eq_none_iff.1 hf
  have hcall : hyscanCacheGet2i (cachedInterface block) priv k detail size1 bufs buffer1 buffer2 = callGet priv c :=
    rfl
  rw [hcall]
  by_cases hcr : c.Refused
  · exact get_refuse hcr
  · refine get_miss hcr (getObject_none hr ?_)
    rintro ⟨x, hx, -⟩
    rw [hcell] at hx
    cases hx

theorem find_of_step {ev : Event β} (ht : s.Step ev s') (hn : ¬ Stores k ev) (hf : s.find k = none) :
    s'.find k = none := by
  refine find_eq_none.2 fun e he hk => ?_
  rcases ht.mem he with ⟨c, rfl, hc, -, hp⟩ | ⟨hm, -⟩
  · refine hn ⟨c, rfl, hc.trans hk, ?_⟩
    rw [hp]
    exact List.ne_nil_of_length_pos e.pos
  · exact find_eq_none.1 hf e hm hk

/-- **The key is missed until it is stored again.** -/
theorem Abs.misses_steps (hA : Abs priv s) (hf : s.find k = none) {h : List (Event β)}
    (hs : ((cached β).guard fun _ ev => ¬ Stores k ev).Steps priv h priv') : Misses β priv' k := by
  have hinv : ∃ s', Abs priv' s' ∧ s'.find k = none := by
    refine hs.inv (P := fun priv => ∃ s, Abs priv s ∧ s.find k = none) ⟨s, hA, hf⟩ ?_
    rintro - priv₁ ev priv₂ - ⟨s₁, hA₁, hf₁⟩ ⟨hn, ht⟩
    obtain ⟨s₂, hstep, hA₂⟩ := step_abs hA₁ ht
    exact ⟨s₂, hA₂, find_of_step hstep hn hf₁⟩
  obtain ⟨s', hA', hf'⟩ := hinv
  exact hA'.misses hf'

/-- A cache without the entry of a key, otherwise as before, is one from which the object was deleted. -/
theorem Deleted.of_erase (hA : Abs priv s) (hA' : Abs priv' s') (he : s'.entries = erase Entry.key k s.entries) :
    Deleted β priv priv' k := by
  have hf : s'.find k = none := by
    refine find_eq_none.2 fun e hm => ?_
    rw [he] at hm
    exact (mem_erase.1 hm).2
  refine ⟨(hA'.absent_iff k).2 hf, ?_, ?_, fun h priv'' hs => hA'.misses_steps hf hs⟩
  · obtain ⟨os, hread⟩ := hA.exists_reads
    obtain ⟨os', hread'⟩ := hA'.exists_reads
    refine ⟨os, os', hread, hread', ?_⟩
    rw [hA'.reads_contents hread', he]
    exact (map_contents_filter (hA.reads_contents hread) k).symm
  · rw [hA'.usedSize_eq, hA.usedSize_eq, hA.presentFootprint_eq, Store.used, he]
    exact s.total_erase_find k

/-- A `set` without a first buffer. -/
def nullSet (k detail : UInt64) (buffer2 : Option β) : SetCall β where
  key := k
  detail := detail
  buffer1 := none
  buffer2 := buffer2

theorem size_nullSet (k detail : UInt64) (buffer2 : Option β) :
    (nullSet k detail buffer2).size = (givenBytes buffer2).length := by
  have hp : (nullSet k detail buffer2).payload = givenBytes buffer2 := rfl
  rw [SetCall.size, hp]
  exact Nat.mod_eq_of_lt (length_givenBytes_lt buffer2)

/-- **What a `set` without a first buffer deletes.** -/
theorem Abs.deleted_iff (hA : Abs priv s) {c : SetCall β} {status : Bool}
    (he : callSet block priv c = .ok (status, priv')) :
    Deleted β priv priv' c.key ↔ c.size = 0 ∨ (priv.cacheSize.toNat / 10 < c.size ∧ Absent priv c.key) := by
  obtain ⟨s', hstep, hA'⟩ := step_abs hA (Step.set block he)
  rw [hA.cacheSize_eq, hA.absent_iff]
  cases hstep with
  | reject hrej =>
    obtain rfl := callSet_false hA he
    constructor
    · intro hd
      exact .inr ⟨hrej, (hA.absent_iff c.key).1 hd.absent⟩
    · rintro (h0 | ⟨-, hf⟩)
      · omega
      · exact .of_erase hA hA (erase_of_find_none hf).symm
  | delete h0 => exact iff_of_true (.of_erase hA hA' rfl) (.inl h0)
  | @put _ p hp hle =>
    have hpos := p.pos
    have hsize : c.size = p.bytes.length := by
      rw [SetCall.size, ← hp]
      exact Nat.mod_eq_of_lt p.lt
    constructor
    · intro hd
      -- the payload is the entry of the key now
      have hf := find_eq_none.1 ((hA'.absent_iff c.key).1 hd.absent)
      rw [Store.entries_set, promote] at hf
      exact absurd (Store.key_next ..) (hf _ (List.mem_cons_self ..))
    · rintro (h0 | ⟨hrej, -⟩) <;> omega

/-- **What is deleted.**  In a reachable state, a call of `hyscan_cache_set2i` with `buffer1 = NULL`, or of
`hyscan_cache_set2` with strings of the same hashes, deletes the object of the key as documented exactly if the
second buffer is missing or empty, or it is too large for the cache and no object of the key is stored. -/
theorem documented_deletion (hr : (cached β).Reachable priv) (hb : priv.heap block.addr = none) (k detail : UInt64)
    (buffer2 : Option β) :
    ∃ status priv', hyscanCacheSet2i (cachedInterface block) priv k detail none buffer2 = .ok (status, priv') ∧
      (∀ hash key info, hyscanHash64 hash key = k → hyscanHash64 hash info = detail →
        hyscanCacheSet2 (cachedInterface block) priv hash key info none buffer2 = .ok (status, priv')) ∧
      (Deleted β priv priv' k ↔ givenBytes buffer2 = [] ∨
        (priv.cacheSize.toNat / 10 < (givenBytes buffer2).length ∧ Absent priv k)) := by
  obtain ⟨s, hA⟩ := Reachable.abs hr
  have hlt : (nullSet k detail buffer2).payload.length < 2 ^ 32 := length_givenBytes_lt buffer2
  obtain ⟨status, priv', he⟩ := set_returns hr hlt hb
  refine ⟨status, priv', he, ?_, ?_⟩
  · rintro hash key info rfl rfl
    exact he
  · have hd := hA.deleted_iff he
    rw [size_nullSet, List.length_eq_zero_iff] at hd
    exact hd

/-- A second buffer of one byte. -/
def oneByte : PlainBuffer := .own [1] (by decide)

/-- A key that is stored is set with `buffer1 = NULL` and no second buffer. -/
theorem documented_deletion_sample : ∃ priv priv', (cached PlainBuffer).Reachable priv ∧ ¬ Absent priv 7 ∧
    hyscanCacheSet2i (cachedInterface ⟨1, fun _ => 0⟩) priv 7 0 none (none : Option PlainBuffer) =
      .ok (true, priv') ∧ Deleted PlainBuffer priv priv' 7 := by
  obtain ⟨priv, -, h₁, -⟩ := sample_sets
  have hr : (cached PlainBuffer).Reachable priv := reachable_new.step (Step.set _ h₁)
  let block : Block := ⟨1, fun _ => 0⟩
  have hb : priv.heap block.addr = none := by
    cases h₁
    rfl
  obtain ⟨status, priv', he, -, hd⟩ := documented_deletion hr hb 7 0 (none : Option PlainBuffer)
  obtain rfl : status = true := by
    cases h₁
    cases he
    rfl
  obtain ⟨o, ho, hk⟩ : ∃ o ∈ storedObjects priv, o.hash = 7 := by
    cases h₁
    exact ⟨_, List.Mem.head _, rfl⟩
  exact ⟨priv, priv', hr, fun ha => ha o ho hk, he, hd.2 (.inl rfl)⟩

/-- **A set with `buffer1 = NULL` stores**: the second buffer holds a byte, and the cache is fresh. -/
theorem stored_without_first : ∃ priv', (cached PlainBuffer).Reachable (new 64) ∧
    hyscanCacheSet2i (cachedInterface ⟨0, fun _ => 0⟩) (new 64) 7 0 none (some oneByte) = .ok (true, priv') ∧
    (storedObjects priv').map contents = [⟨7, 0, 1, 1, [1]⟩] := by
  obtain ⟨priv', h₁⟩ : ∃ priv',
      callSet ⟨0, fun _ => 0⟩ (new 64) (nullSet 7 0 (some oneByte)) = .ok (true, priv') := ⟨_, rfl⟩
  refine ⟨priv', reachable_new, h₁, ?_⟩
  cases h₁
  decide

/-- **`hyscan_cache_set` deletes** when its buffer is `NULL`. -/
theorem hyscanCacheSet_null (hr : (cached β).Reachable priv) (hash : Bytes → UInt64) (key info : Option Bytes) :
    ∃ priv', hyscanCacheSet (cachedInterface block) priv hash key info (none : Option β) = .ok (true, priv') ∧
      Deleted β priv priv' (hyscanHash64 hash key) := by
  obtain ⟨s, hA⟩ := Reachable.abs hr
  obtain ⟨l, hl, -⟩ := id hA
  have h0 : (nullSet (hyscanHash64 hash key) (hyscanHash64 hash info) (none : Option β)).size = 0 :=
    size_nullSet _ _ _
  obtain ⟨priv', he, -⟩ := set_delete block hl h0
  exact ⟨priv', he, (hA.deleted_iff he).2 (.inl h0)⟩

end HyScanCache.Cached
