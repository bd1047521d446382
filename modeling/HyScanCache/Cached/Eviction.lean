import HyScanCache.Cached.Invariants
import HyScanCache.History

/-!
# What is evicted

`hyscan_cached_set` makes room before it stores a payload.  While the request fits in 32 bits the objects kept
are the longest prefix of the list that leaves room for the header and the payload, and a round of the loop for
every object of the list is enough (`eviction`).

Room is made for the whole payload even where the payload will lie in the memory of the object it replaces, or
in what that object gives back.  So other keys are evicted though the cache would have stayed within its limit;
`no_needless_eviction` says exactly when they are not, and `needless_eviction` is a full cache in which an object
is written anew with data of the same size.
-/

namespace HyScanCache

open Lib Recency

variable {s : Store} {p : Payload}

/-- **No entry of another key is lost** to a payload that the limit leaves room for in the end, exactly if the
request does not exceed what is free now, or the entry used least recently is the one that is replaced. -/
theorem Store.forall_mem_makeRoom_iff {k detail : UInt64}
    (hfits : s.used - ((s.find k).map Entry.footprint).getD 0 + (Entry.next (s.find k) k detail p).footprint ≤
      s.limit) :
    (∀ e ∈ s.entries, e.key ≠ k → e ∈ (s.makeRoom p).entries) ↔
      s.used + (headerSize + p.bytes.length) % 2 ^ 32 ≤ s.limit ∨
        ∃ e, s.entries.getLast? = some e ∧ e.key = k := by
  have hrest := s.total_erase_find k
  have hnext := Entry.le_footprint_next (s.find k) k detail p
  have hreq := Nat.mod_le (headerSize + p.bytes.length) (2 ^ 32)
  unfold Store.makeRoom
  split
  · have hbudget : total Entry.footprint s.entries ≤ s.limit - (headerSize + p.bytes.length) % 2 ^ 32 ↔
        s.used + (headerSize + p.bytes.length) % 2 ^ 32 ≤ s.limit := by
      rw [Store.used] at *
      omega
    rw [Store.entries_evict, forall_mem_keepFit_iff s.distinct (by omega), hbudget]
  · exact ⟨fun _ => .inl (by omega), fun _ e he _ => he⟩

namespace Cached

open HyScanCachedPrivate

variable {β : Type} [HyScanBuffer β]
variable {priv priv' priv₁ : HyScanCachedPrivate} {block : Block} {c : SetCall β} {os : List ObjectInfo}
variable {request : UInt32} {fuel : ℕ} {l : List Cell}

/-! ### The loop -/

section Contents

variable {α : Type} {f : α → Contents} {xs : List α}

theorem map_contents_filter (hc : os.map contents = xs.map f) (k : UInt64) :
    (os.filter fun o => o.hash ≠ k).map contents = (xs.filter fun x => (f x).key ≠ k).map f := by
  have h := congrArg (List.filter fun x : Contents => x.key ≠ k) hc
  rw [List.filter_map, List.filter_map] at h
  exact h

end Contents

theorem Abs.put (hA : Abs priv s) (he : callSet block priv c = .ok (true, priv')) (h0 : c.size ≠ 0) :
    ∃ p : Payload, p.bytes = c.payload ∧ c.size = p.bytes.length ∧ p.bytes.length ≤ s.limit / 10 ∧
      Abs priv' (s.set c.key c.detail p) := by
  obtain ⟨s', hstep, hA'⟩ := step_abs hA (Step.set block he)
  cases hstep with
  | delete h => exact absurd h h0
  | @put _ p hp hle =>
    refine ⟨p, hp, ?_, hle, hA'⟩
    rw [SetCall.size, ← hp]
    exact Nat.mod_eq_of_lt p.lt

/-- The object the cache holds of a key. -/
def presentObject (priv : HyScanCachedPrivate) (k : UInt64) : Option ObjectInfo :=
  Recency.find ObjectInfo.hash k (storedObjects priv)

/-- The memory that is given back when the object of a key goes. -/
def presentFootprint (priv : HyScanCachedPrivate) (k : UInt64) : ℕ :=
  ((presentObject priv k).map objectFootprint).getD 0

/-- The memory of the object that will hold the payload: the memory of the present object, if the payload is
stored in place. -/
def footprintAfter (priv : HyScanCachedPrivate) (c : SetCall β) : ℕ :=
  match presentObject priv c.key with
  | none => OBJECT_HEADER_SIZE.toNat + c.payload.length
  | some o =>
    if reallocates o.allocated (callSize c) then OBJECT_HEADER_SIZE.toNat + c.payload.length
    else objectFootprint o

/-- The cache is within its limit after the update, with everything else it holds. -/
def StillFits (priv : HyScanCachedPrivate) (c : SetCall β) : Prop :=
  priv.usedSize.toNat - presentFootprint priv c.key + footprintAfter priv c ≤ priv.cacheSize.toNat

/-- The objects of the other keys are still stored, with their details and bytes. -/
def OthersKept (priv priv' : HyScanCachedPrivate) (k : UInt64) : Prop :=
  ∀ o ∈ storedObjects priv, o.hash ≠ k →
    ∃ o' ∈ storedObjects priv', o'.hash = o.hash ∧ o'.detail = o.detail ∧ objectBytes o' = objectBytes o

theorem Abs.presentObject_spec (hA : Abs priv s) (k : UInt64) :
    (s.find k = none ∧ presentObject priv k = none) ∨
      ∃ e o, s.find k = some e ∧ presentObject priv k = some o ∧ Holds o e := by
  obtain ⟨l, hl, -⟩ := id hA
  cases hf : s.find k with
  | none =>
    refine .inl ⟨rfl, find_eq_none.2 ?_⟩
    intro o ho hk
    obtain ⟨e, he, hh⟩ := hA.exists_entry ho
    exact find_eq_none.1 hf e he (hh.hash.symm.trans hk)
  | some e =>
    obtain ⟨o, ho, hh⟩ := hA.exists_object (mem_of_find hf)
    have hk : o.hash = k := hh.hash.trans (key_of_find hf)
    exact .inr ⟨e, o, rfl, (find_eq_some hl.wellFormed.keys).2 ⟨ho, hk⟩, hh⟩

theorem Holds.objectFootprint_eq {o : ObjectInfo} {e : Entry} (hh : Holds o e) : objectFootprint o = e.footprint := by
  rw [objectFootprint, hh.allocated]
  rfl

theorem Abs.presentFootprint_eq (hA : Abs priv s) (k : UInt64) :
    presentFootprint priv k = ((s.find k).map Entry.footprint).getD 0 := by
  rw [presentFootprint]
  rcases hA.presentObject_spec k with ⟨hf, ho⟩ | ⟨e, o, hf, ho, hh⟩
  · rw [hf, ho]
    rfl
  · rw [hf, ho, Option.map_some, Option.map_some, hh.objectFootprint_eq]

theorem Abs.footprintAfter_eq {p : Payload} (hA : Abs priv s) (hp : p.bytes = c.payload)
    (hsize : c.size = p.bytes.length) (detail : UInt64) :
    footprintAfter priv c = (Entry.next (s.find c.key) c.key detail p).footprint := by
  rw [footprintAfter, ← hp]
  rcases hA.presentObject_spec c.key with ⟨hf, ho⟩ | ⟨e, o, hf, ho, hh⟩
  · rw [hf, ho, Entry.footprint_next_none]
    rfl
  · have hcall : (callSize c).toNat = p.bytes.length := by rw [toNat_callSize, hsize]
    have hre := reallocates_iff hh.allocated hcall
    rw [hf, ho, Entry.footprint_next_some]
    by_cases hr : e.Reusable p
    · rw [if_pos hr, ← hh.objectFootprint_eq]
      exact if_neg (mt hre.1 (not_not.2 hr))
    · rw [if_neg hr]
      exact if_pos (hre.2 hr)

/-- The object used least recently is that of the key. -/
def BottomIs (priv : HyScanCachedPrivate) (k : UInt64) : Prop :=
  ∃ a o, priv.bottomObject = some a ∧ priv.heap a = some o ∧ o.hash = k

theorem Abs.bottomIs_iff (hA : Abs priv s) (k : UInt64) :
    BottomIs priv k ↔ ∃ e, s.entries.getLast? = some e ∧ e.key = k := by
  obtain ⟨l, hl, hs, -⟩ := hA
  rw [hs, List.getLast?_map]
  have hbot := hl.list.bottom
  rw [List.getLast?_map] at hbot
  constructor
  · rintro ⟨a, o, ha, ho, hk⟩
    obtain ⟨x, hx, rfl⟩ := Option.map_eq_some_iff.1 (hbot.symm.trans ha)
    obtain ⟨o', ho', hh⟩ := hl.holding.object x (List.mem_of_getLast? hx)
    obtain rfl : o = o' := Option.some.inj (ho.symm.trans ho')
    exact ⟨x.2, by rw [hx]; rfl, hh.hash.symm.trans hk⟩
  · rintro ⟨e, he, hk⟩
    obtain ⟨x, hx, rfl⟩ := Option.map_eq_some_iff.1 he
    obtain ⟨o, ho, hh⟩ := hl.holding.object x (List.mem_of_getLast? hx)
    exact ⟨x.1, o, by rw [hbot, hx]; rfl, ho, hh.hash.trans hk⟩

theorem Abs.othersKept_iff {s' : Store} {k : UInt64} (hA : Abs priv s) (hA' : Abs priv' s')
    (hsub : ∀ e ∈ s'.entries, e.key ≠ k → e ∈ s.entries) :
    OthersKept priv priv' k ↔ ∀ e ∈ s.entries, e.key ≠ k → e ∈ s'.entries := by
  constructor
  · intro hkept e he hne
    obtain ⟨o, ho, hh⟩ := hA.exists_object he
    obtain ⟨o', ho', hk, -, -⟩ := hkept o ho (by rw [hh.hash]; exact hne)
    obtain ⟨e', he', hh'⟩ := hA'.exists_entry ho'
    have hkey : e'.key = e.key := hh'.hash.symm.trans (hk.trans hh.hash)
    have hm := hsub e' he' (by rw [hkey]; exact hne)
    exact s.distinct.eq hm he hkey ▸ he'
  · intro hkept o ho hne
    obtain ⟨e, he, hh⟩ := hA.exists_entry ho
    obtain ⟨o', ho', hh'⟩ := hA'.exists_object (hkept e he (by rw [← hh.hash]; exact hne))
    refine ⟨o', ho', hh'.hash.trans hh.hash.symm, hh'.detail.trans hh.detail.symm, ?_⟩
    rw [hh'.objectBytes_eq, hh.objectBytes_eq]

theorem mem_set_iff {k detail : UInt64} {p : Payload} {e : Entry} (hne : e.key ≠ k) :
    e ∈ (s.set k detail p).entries ↔ e ∈ (s.makeRoom p).entries := by
  rw [Store.entries_set, mem_promote, Store.key_next]
  constructor
  · rintro (rfl | ⟨hm, -⟩)
    · exact absurd (Store.key_next ..) hne
    · exact hm
  · exact fun hm => .inr ⟨hm, hne⟩

theorem Abs.othersKept_put {k detail : UInt64} {p : Payload} (hA : Abs priv s) (hA' : Abs priv' (s.set k detail p)) :
    OthersKept priv priv' k ↔ ∀ e ∈ s.entries, e.key ≠ k → e ∈ (s.makeRoom p).entries := by
  rw [hA.othersKept_iff hA' fun e he hne => Store.mem_of_mem_makeRoom ((mem_set_iff hne).1 he)]
  exact forall₂_congr fun e _ => forall_congr' fun hne => mem_set_iff hne

/-- **When nothing is evicted without need.**  For an accepted payload that the cache will hold within its limit,
beside everything it holds of other keys, these are all kept exactly if the payload has size zero in 32 bits, so
that its key is deleted, or the request does not exceed what is free before the call, or the object used least
recently is the one that is replaced. -/
theorem no_needless_eviction (hr : (cached β).Reachable priv) (he : callSet block priv c = .ok (true, priv'))
    (hfits : StillFits priv c) :
    OthersKept priv priv' c.key ↔ c.size = 0 ∨
      priv.usedSize.toNat + (OBJECT_HEADER_SIZE.toNat + c.size) % 2 ^ 32 ≤ priv.cacheSize.toNat ∨
      BottomIs priv c.key := by
  obtain ⟨s, hA⟩ := Reachable.abs hr
  by_cases h0 : c.size = 0
  · refine iff_of_true ?_ (.inl h0)
    obtain ⟨s', hstep, hA'⟩ := step_abs hA (Step.set block he)
    cases hstep with
    | delete h =>
      refine (hA.othersKept_iff hA' fun e he _ => (mem_erase.1 he).1).2 ?_
      exact fun e he hne => mem_erase.2 ⟨he, hne⟩
    | @put _ p hp hle =>
      have hpos := p.pos
      rw [SetCall.size, ← hp, Nat.mod_eq_of_lt p.lt] at h0
      omega
  · obtain ⟨p, hp, hsize, -, hA'⟩ := hA.put he h0
    rw [StillFits, hA.usedSize_eq, hA.presentFootprint_eq, hA.footprintAfter_eq hp hsize c.detail,
      hA.cacheSize_eq] at hfits
    rw [or_iff_right h0, hA.othersKept_put hA', Store.forall_mem_makeRoom_iff hfits, hA.bottomIs_iff,
      hA.usedSize_eq, hA.cacheSize_eq, hsize]
    rfl

/-- A second payload is stored beside a first one. -/
theorem no_needless_eviction_sample : ∃ priv priv', (cached PlainBuffer).Reachable priv ∧
    storedObjects priv ≠ [] ∧ callSet ⟨1, fun _ => 0⟩ priv (sampleSet 8) = .ok (true, priv') ∧
    OthersKept priv priv' 8 := by
  obtain ⟨priv, priv', h₁, h₂⟩ := sample_sets
  have hr : (cached PlainBuffer).Reachable priv := reachable_new.step (Step.set _ h₁)
  obtain ⟨hne, hfits, hfree⟩ : storedObjects priv ≠ [] ∧ StillFits priv (sampleSet 8) ∧
      priv.usedSize.toNat + (OBJECT_HEADER_SIZE.toNat + (sampleSet 8).size) % 2 ^ 32 ≤ priv.cacheSize.toNat := by
    cases h₁
    exact ⟨by decide, by unfold StillFits; decide, by decide⟩
  exact ⟨priv, priv', hr, hne, h₂, (no_needless_eviction hr h₂ hfits).2 (.inr (.inl hfree))⟩

/-- Nine payloads of the largest size a cache of 64 MiB accepts, and then the last one of them again. -/
theorem needless_eviction : ∃ priv priv' block,
    (cached PlainBuffer).Run (sizedRun 6710886 (by decide) 9) priv ∧
    callSet block priv (sizedSet 8 6710886 (by decide)) = .ok (true, priv') ∧
    StillFits priv (sizedSet 8 6710886 (by decide)) ∧ ¬ OthersKept priv priv' 8 := by
  have hhead : headerSize = 40 := rfl
  obtain ⟨priv, s, hr, hA, hlim, he, hused⟩ := exists_largeRun
  have hlen := length_largePayload
  have hbytes := bytes_largePayload 8
  have hsize : (largeSet 8).size = largePayload.bytes.length := (size_largeSet 8).trans hlen.symm
  -- the last payload lies in memory of its size
  have hfind : s.find 8 = some (Entry.fresh 8 0 largePayload) := by
    rw [Store.find, he]
    rfl
  have hre := Entry.reusable_fresh 8 0 largePayload
  have hfits : s.used - ((s.find 8).map Entry.footprint).getD 0 +
      (Entry.next (s.find 8) 8 0 largePayload).footprint ≤ s.limit := by
    rw [s.used_inPlace 8 0 largePayload hfind hre, hused, hlim]
    decide
  obtain ⟨priv', ht, hA'⟩ := hA.exists_put hbytes (by rw [hlen, hlim])
  cases ht with
  | set block hset =>
    refine ⟨priv, priv', block, hr, hset, ?_, ?_⟩
    · show StillFits priv (largeSet 8)
      rw [StillFits, hA.usedSize_eq, hA.presentFootprint_eq, hA.footprintAfter_eq hbytes hsize 0, hA.cacheSize_eq]
      exact hfits
    · -- the least recently used entry is that of the first payload
      have hlast : s.entries.getLast? = some (Entry.fresh 0 0 largePayload) := by
        rw [he]
        rfl
      have hkept : OthersKept priv priv' 8 ↔ _ := hA.othersKept_put hA'
      rw [hkept, Store.forall_mem_makeRoom_iff hfits, hused, hlim, hlen, hhead, hlast]
      rintro (hle | ⟨e, he, hk⟩)
      · omega
      · obtain rfl := Option.some.inj he
        have hne : (Entry.fresh 0 0 largePayload).key ≠ 8 := show (0 : UInt64) ≠ 8 by decide
        exact hne hk

end Cached

end HyScanCache
