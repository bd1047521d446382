import HyScanCache.Cached.Runs

/-!
# Invariants of the reachable states

* `reachable_wellFormed`: the list and the table hold the same live objects, and no pointer leads to a block
  that was freed;
* `reachable_accounting`: the memory in use is the sum of the footprints of the objects of the table, also
  between two rounds of the eviction loop, so that nothing charged is refunded below zero.
-/

namespace HyScanCache.Cached

open Lib Recency HyScanCachedPrivate

variable {β : Type} [HyScanBuffer β]
variable {priv priv' : HyScanCachedPrivate} {l : List Cell} {a b : Addr} {o : ObjectInfo} {s : Store}

/-! ### What can be observed of a cache -/

/-- The objects the table refers to. -/
def storedObjects (priv : HyScanCachedPrivate) : List ObjectInfo :=
  priv.objects.filterMap fun slot => slot.value.bind priv.heap

/-- The memory an object is charged for. -/
def objectFootprint (o : ObjectInfo) : ℕ := OBJECT_HEADER_SIZE.toNat + o.allocated.toNat

/-- The bytes stored in an object. -/
def objectBytes (o : ObjectInfo) : Bytes := o.data.take o.size.toNat

/-- What can be seen of an object besides its links and the idle part of its memory. -/
@[ext] structure Contents where
  key : UInt64
  detail : UInt64
  size : UInt32
  allocated : UInt32
  bytes : Bytes
  deriving DecidableEq

/-- The contents of an object. -/
def contents (o : ObjectInfo) : Contents where
  key := o.hash
  detail := o.detail
  size := o.size
  allocated := o.allocated
  bytes := objectBytes o

/-- The memory an object of these contents is charged for. -/
def Contents.footprint (x : Contents) : ℕ := OBJECT_HEADER_SIZE.toNat + x.allocated.toNat

/-- The contents of an object that carries the entry. -/
def entryContents (e : Entry) : Contents where
  key := e.key
  detail := e.detail
  size := UInt32.ofNat e.bytes.length
  allocated := UInt32.ofNat e.allocated
  bytes := e.bytes

theorem Holds.objectBytes_eq {e : Entry} (hh : Holds o e) : objectBytes o = e.bytes := by
  rw [objectBytes, hh.size, hh.take]

theorem Holds.contents_eq {e : Entry} (hh : Holds o e) : contents o = entryContents e := by
  ext1
  · exact hh.hash
  · exact hh.detail
  · exact UInt32.toNat_inj.1 (hh.size.trans (UInt32.toNat_ofNat_of_lt' (e.fits.trans_lt e.lt)).symm)
  · exact UInt32.toNat_inj.1 (hh.allocated.trans (UInt32.toNat_ofNat_of_lt' e.lt).symm)
  · exact hh.objectBytes_eq

/-- The objects the list visits, from `top_object` on along `next`. -/
def Reads (priv : HyScanCachedPrivate) (os : List ObjectInfo) : Prop :=
  ∃ ps : List Addr, Follows priv.heap ObjectInfo.next priv.topObject ps ∧ ps.map priv.heap = os.map some

theorem Reads.unique {os os' : List ObjectInfo} (h : Reads priv os) (h' : Reads priv os') : os = os' := by
  obtain ⟨ps, hf, ho⟩ := h
  obtain ⟨ps', hf', ho'⟩ := h'
  rw [hf.unique hf'] at ho
  exact List.map_injective_iff.2 (fun _ _ => Option.some.inj) (ho.symm.trans ho')

/-! ### Pointers -/

/-- **The list and the table are consistent.** -/
structure WellFormed (priv : HyScanCachedPrivate) : Prop where
  /-- The list visits every object of the table once, forwards and backwards. -/
  walk : ∃ ps : List Addr, ps.Nodup ∧ (priv.objects.map Slot.value).Perm (ps.map some) ∧
    Follows priv.heap ObjectInfo.next priv.topObject ps ∧ ps.getLast? = priv.bottomObject ∧
    Follows priv.heap ObjectInfo.prev priv.bottomObject ps.reverse ∧ ps.head? = priv.topObject
  top_prev : ∀ a o, priv.topObject = some a → priv.heap a = some o → o.prev = none
  bottom_next : ∀ a o, priv.bottomObject = some a → priv.heap a = some o → o.next = none
  top_none : priv.topObject = none ↔ priv.bottomObject = none
  bottom_none : priv.bottomObject = none ↔ priv.objects = []
  /-- The key of an entry of the table lies in the object of the entry, and the object is found by it. -/
  slot : ∀ slot ∈ priv.objects, ∃ a o, slot.key = some a ∧ slot.value = some a ∧ priv.heap a = some o ∧
    priv.lookup o.hash = .ok (some a)
  lookup : ∀ key a, priv.lookup key = .ok (some a) → ∃ o, priv.heap a = some o ∧ o.hash = key
  /-- No two objects of the table share a key. -/
  keys : ((storedObjects priv).map ObjectInfo.hash).Nodup
  /-- Nothing points to a block that is not live. -/
  dead : ∀ a, priv.heap a = none → priv.topObject ≠ some a ∧ priv.bottomObject ≠ some a ∧
    (∀ slot ∈ priv.objects, slot.key ≠ some a ∧ slot.value ≠ some a) ∧
    ∀ b o, priv.heap b = some o → o.prev ≠ some a ∧ o.next ≠ some a

/-- The objects `os` are those of the cells, in the same order. -/
def Carries (priv : HyScanCachedPrivate) (os : List ObjectInfo) (cells : List Cell) : Prop :=
  List.Forall₂ (fun o x => priv.heap x.1 = some o ∧ Holds o x.2) os cells

section Carries

variable {os : List ObjectInfo}

theorem Carries.exists_of_live (ho : ∀ x ∈ l, ∃ o, priv.heap x.1 = some o ∧ Holds o x.2) :
    ∃ os, Carries priv os l := by
  induction l with
  | nil => exact ⟨[], List.Forall₂.nil⟩
  | cons x l ih =>
    obtain ⟨o, hx⟩ := ho x (by simp)
    obtain ⟨os, hf⟩ := ih fun y hy => ho y (List.mem_cons_of_mem _ hy)
    exact ⟨o :: os, List.Forall₂.cons hx hf⟩

theorem Carries.map_eq (hc : Carries priv os l) {γ : Type} {f : ObjectInfo → γ} {g : Cell → γ}
    (hfg : ∀ o x, priv.heap x.1 = some o → Holds o x.2 → f o = g x) : os.map f = l.map g := by
  induction hc with
  | nil => rfl
  | cons h _ ih => rw [List.map_cons, List.map_cons, hfg _ _ h.1 h.2, ih]

theorem Carries.map_some (hc : Carries priv os l) : os.map some = l.map fun x => priv.heap x.1 :=
  hc.map_eq fun _ _ ho _ => ho.symm

theorem Holding.carries (h : Holding priv l) :
    ∃ cells : List Cell, cells.Perm l ∧ Carries priv (storedObjects priv) cells := by
  obtain ⟨cells, hp, ht⟩ := h.table
  obtain ⟨os, hc⟩ := Carries.exists_of_live fun x hx => h.object x (hp.mem_iff.1 hx)
  refine ⟨cells, hp, ?_⟩
  have hs : storedObjects priv = (cells.map fun x => priv.heap x.1).filterMap id := by
    rw [storedObjects, ht, List.filterMap_map, List.filterMap_map]
    rfl
  rw [hs, ← hc.map_some, List.filterMap_map]
  simpa using hc

theorem Holding.map_storedObjects (h : Holding priv l) {γ : Type} {f : ObjectInfo → γ} {g : Cell → γ}
    (hfg : ∀ o x, Holds o x.2 → f o = g x) : ((storedObjects priv).map f).Perm (l.map g) := by
  obtain ⟨cells, hp, hc⟩ := h.carries
  rw [hc.map_eq fun o x _ => hfg o x]
  exact hp.map g

theorem Holding.exists_holds (h : Holding priv l) (ho : o ∈ storedObjects priv) : ∃ x ∈ l, Holds o x.2 := by
  obtain ⟨cells, hp, hc⟩ := h.carries
  have hm : some o ∈ cells.map fun x => priv.heap x.1 := hc.map_some ▸ List.mem_map_of_mem ho
  obtain ⟨x, hx, hox⟩ := List.mem_map.1 hm
  obtain ⟨o', ho', hh⟩ := h.object x (hp.mem_iff.1 hx)
  obtain rfl : o = o' := Option.some.inj (hox.symm.trans ho')
  exact ⟨x, hp.mem_iff.1 hx, hh⟩

theorem Abs.exists_entry (hA : Abs priv s) (ho : o ∈ storedObjects priv) : ∃ e ∈ s.entries, Holds o e := by
  obtain ⟨l, hl, hs, -⟩ := hA
  obtain ⟨x, hx, hh⟩ := hl.holding.exists_holds ho
  exact ⟨x.2, by rw [hs]; exact List.mem_map_of_mem hx, hh⟩

theorem Abs.exists_object (hA : Abs priv s) {e : Entry} (he : e ∈ s.entries) :
    ∃ o ∈ storedObjects priv, Holds o e := by
  obtain ⟨l, hl, hs, -⟩ := hA
  obtain ⟨cells, hp, hc⟩ := hl.holding.carries
  rw [hs] at he
  obtain ⟨x, hx, rfl⟩ := List.mem_map.1 he
  obtain ⟨o, ho, hh⟩ := hl.holding.object x hx
  have hm : priv.heap x.1 ∈ (storedObjects priv).map some :=
    hc.map_some ▸ List.mem_map_of_mem (f := fun x : Cell => priv.heap x.1) (hp.mem_iff.2 hx)
  obtain ⟨o', ho', he⟩ := List.mem_map.1 hm
  obtain rfl : o' = o := Option.some.inj (he.trans ho)
  exact ⟨o', ho', hh⟩

theorem Abs.total_filter (hA : Abs priv s) (q : UInt64 → Bool) :
    total objectFootprint ((storedObjects priv).filter fun o => q o.hash) =
      total Entry.footprint (s.entries.filter fun e => q e.key) := by
  obtain ⟨l, hl, hs, -⟩ := hA
  obtain ⟨cells, hp, hc⟩ := hl.holding.carries
  have hf : Carries priv ((storedObjects priv).filter fun o => q o.hash) (cells.filter fun x => q x.key) :=
    List.rel_filter (fun o x h => by simp only [show o.hash = x.key from h.2.hash]) hc
  have hcost : ∀ o x, priv.heap x.1 = some o → Holds o x.2 → objectFootprint o = Cell.cost x := by
    intro o x _ hh
    rw [objectFootprint, hh.allocated]
    rfl
  rw [total, hf.map_eq hcost, ← total, hs, List.filter_map, total_cells]
  exact total_perm _ (hp.filter _)

/-- **The list reads off the objects of the cells**, in the order of the cells. -/
theorem Rep.reads (hr : Rep priv l) : ∃ os, Reads priv os ∧ Carries priv os l := by
  obtain ⟨os, hc⟩ := Carries.exists_of_live hr.holding.object
  refine ⟨os, ⟨l.map Prod.fst, ?_, ?_⟩, hc⟩
  · rw [hr.list.top]
    exact hr.list.seg.follows_next
  · rw [hc.map_some, List.map_map]
    rfl

theorem Rep.reads_contents (hr : Rep priv l) (h : Reads priv os) :
    os.map contents = l.map fun x => entryContents x.2 := by
  obtain ⟨os', h', hc⟩ := hr.reads
  obtain rfl := h.unique h'
  exact hc.map_eq fun o x _ hh => hh.contents_eq

theorem Abs.exists_reads (hA : Abs priv s) : ∃ os, Reads priv os := by
  obtain ⟨l, hl, -⟩ := hA
  obtain ⟨os, h, -⟩ := hl.reads
  exact ⟨os, h⟩

theorem Abs.reads_contents (hA : Abs priv s) (h : Reads priv os) :
    os.map contents = s.entries.map entryContents := by
  obtain ⟨l, hl, hs, -⟩ := hA
  rw [hl.reads_contents h, hs, List.map_map]
  rfl

theorem Rep.reads_perm (hr : Rep priv l) (hc : Carries priv os l) : os.Perm (storedObjects priv) := by
  obtain ⟨cells, hp, hs⟩ := hr.holding.carries
  refine (List.map_perm_map_iff fun _ _ => Option.some.inj).1 ?_
  rw [hc.map_some, hs.map_some]
  exact (hp.map _).symm

theorem Abs.reads_perm (hA : Abs priv s) (h : Reads priv os) : os.Perm (storedObjects priv) := by
  obtain ⟨l, hl, -⟩ := hA
  obtain ⟨os', h', hc⟩ := hl.reads
  obtain rfl := h.unique h'
  exact hl.reads_perm hc

end Carries

/-- The links of a live object lead to objects of the list. -/
theorem Rep.links (h : Rep priv l) (ho : priv.heap b = some o) :
    (o.prev = some a ∨ o.next = some a) → a ∈ l.map Prod.fst := by
  obtain ⟨us, vs, he⟩ := List.append_of_mem (h.holding.live b (by simp [ho]))
  have hseg := h.list.seg
  rw [he] at hseg ⊢
  obtain ⟨o', ho', hp, hn⟩ := hseg.links
  obtain rfl : o = o' := Option.some.inj (ho.symm.trans ho')
  rintro (hpa | hna)
  · have : us.getLast? = some a := hp.symm.trans hpa
    exact List.mem_append_left _ (List.mem_of_getLast? this)
  · have : vs.head? = some a := hn.symm.trans hna
    exact List.mem_append_right _ (List.mem_cons_of_mem _ (List.mem_of_head? this))

theorem UsedList.top_prev {ps : List Addr} (hl : UsedList priv ps) (ha : priv.topObject = some a)
    (ho : priv.heap a = some o) : o.prev = none := by
  cases ps with
  | nil => simp [hl.top] at ha
  | cons b ps =>
    obtain ⟨⟨v, hv, hp, -⟩, -⟩ := hl.seg
    obtain rfl : b = a := by simpa [hl.top] using ha
    obtain rfl : o = v := Option.some.inj (ho.symm.trans hv)
    exact hp

theorem UsedList.bottom_next {ps : List Addr} (hl : UsedList priv ps) (ha : priv.bottomObject = some a)
    (ho : priv.heap a = some o) : o.next = none := by
  rcases List.eq_nil_or_concat' ps with rfl | ⟨us, b, rfl⟩
  · simp [hl.bottom] at ha
  · obtain ⟨-, ⟨v, hv, -, hn⟩, -⟩ := Seg.append.1 hl.seg
    obtain rfl : b = a := by simpa [hl.bottom] using ha
    obtain rfl : o = v := Option.some.inj (ho.symm.trans hv)
    exact hn

theorem Holding.exists_cell (h : Holding priv l) {slot : Slot} (hs : slot ∈ priv.objects) :
    ∃ x ∈ l, slot = x.slot := by
  obtain ⟨cells, hp, ht⟩ := h.table
  rw [ht] at hs
  obtain ⟨x, hx, rfl⟩ := List.mem_map.1 hs
  exact ⟨x, hp.mem_iff.1 hx, rfl⟩

theorem Holding.lookup_hash (h : Holding priv l) {x : Cell} (hx : x ∈ l) (hh : Holds o x.2) :
    priv.lookup o.hash = .ok (some x.1) := by
  rw [h.lookup, show o.hash = x.key from hh.hash, (find_eq_some h.keys).2 ⟨hx, rfl⟩]
  rfl

theorem Holding.hash_of_lookup (h : Holding priv l) {key : UInt64} (hk : priv.lookup key = .ok (some a)) :
    ∃ o, priv.heap a = some o ∧ o.hash = key := by
  rw [h.lookup] at hk
  obtain ⟨x, hf, rfl⟩ := Option.map_eq_some_iff.1 (Except.ok.inj hk)
  obtain ⟨o, ho, hh⟩ := h.object x (mem_of_find hf)
  have hkey : Cell.key x = key := key_of_find hf
  exact ⟨o, ho, hh.hash.trans hkey⟩

theorem Rep.walk (h : Rep priv l) :
    (priv.objects.map Slot.value).Perm ((l.map Prod.fst).map some) ∧
    Follows priv.heap ObjectInfo.next priv.topObject (l.map Prod.fst) ∧
    Follows priv.heap ObjectInfo.prev priv.bottomObject (l.map Prod.fst).reverse := by
  obtain ⟨cells, hp, ht⟩ := h.holding.table
  have hvalues : priv.objects.map Slot.value = (cells.map Prod.fst).map some := by
    rw [ht, List.map_map, List.map_map]
    rfl
  refine ⟨?_, ?_, ?_⟩
  · rw [hvalues]
    exact (hp.map Prod.fst).map some
  · rw [h.list.top]
    exact h.list.seg.follows_next
  · rw [h.list.bottom]
    exact h.list.seg.follows_prev

theorem Rep.bottom_eq_none (h : Rep priv l) : priv.bottomObject = none ↔ priv.objects = [] := by
  have hlen := h.holding.length_objects
  rw [h.list.bottom, ← List.length_eq_zero_iff, hlen, List.length_eq_zero_iff]
  simp

theorem Rep.wellFormed (h : Rep priv l) : WellFormed priv where
  walk := by
    obtain ⟨hperm, hnext, hprev⟩ := h.walk
    exact ⟨l.map Prod.fst, h.holding.addrs, hperm, hnext, h.list.bottom.symm, hprev, h.list.top.symm⟩
  top_prev _ _ ha ho := h.list.top_prev ha ho
  bottom_next _ _ ha ho := h.list.bottom_next ha ho
  top_none := by
    rw [h.list.top, h.list.bottom]
    simp
  bottom_none := h.bottom_eq_none
  slot slot hs := by
    obtain ⟨x, hx, rfl⟩ := h.holding.exists_cell hs
    obtain ⟨o, ho, hh⟩ := h.holding.object x hx
    exact ⟨x.1, o, rfl, rfl, ho, h.holding.lookup_hash hx hh⟩
  lookup _ _ hk := h.holding.hash_of_lookup hk
  keys := by
    have := h.holding.map_storedObjects (f := ObjectInfo.hash) (g := Cell.key) fun o x hh => hh.hash
    exact this.nodup_iff.2 h.holding.keys
  dead a ha := by
    have hdead : a ∉ l.map Prod.fst := h.holding.notMem_of_dead ha
    refine ⟨?_, ?_, ?_, ?_⟩
    · intro e
      exact hdead (List.mem_of_head? (h.list.top.symm.trans e))
    · intro e
      exact hdead (List.mem_of_getLast? (h.list.bottom.symm.trans e))
    · intro slot hs
      obtain ⟨x, hx, rfl⟩ := h.holding.exists_cell hs
      have hne := h.holding.ne_of_dead ha hx
      exact ⟨fun e => hne (Option.some.inj e), fun e => hne (Option.some.inj e)⟩
    · intro b o ho
      exact ⟨fun e => hdead (h.links ho (.inl e)), fun e => hdead (h.links ho (.inr e))⟩

/-- **In every reachable state the list and the table are consistent.** -/
theorem reachable_wellFormed (hr : (cached β).Reachable priv) : WellFormed priv := by
  obtain ⟨s, l, h, -⟩ := Reachable.abs hr
  exact h.wellFormed

/-- The state after two payloads were stored and one was read. -/
theorem reachable_wellFormed_sample : ∃ priv, (cached PlainBuffer).Reachable priv ∧
    (storedObjects priv).map ObjectInfo.hash = [8, 7] ∧ WellFormed priv := by
  obtain ⟨priv₁, priv₂, bufs, priv, h₁, h₂, h₃, hf⟩ := sample_calls
  have hr : (cached PlainBuffer).Reachable priv := ⟨_, sample_run h₁ h₂ h₃ hf⟩
  refine ⟨priv, hr, ?_, reachable_wellFormed hr⟩
  cases h₁
  cases h₂
  cases h₃
  decide

/-! ### Memory in use -/

/-- Some rounds of the eviction loop. -/
def Evicts (priv priv' : HyScanCachedPrivate) : Prop :=
  Relation.ReflTransGen (fun p q => p.bottomObject ≠ none ∧ dropObject p p.bottomObject = .ok q) priv priv'

theorem Rep.evicts (h : Rep priv l) (he : Evicts priv priv') : ∃ l', Rep priv' l' := by
  induction he with
  | refl => exact ⟨l, h⟩
  | tail _ hd ih =>
    obtain ⟨l', h'⟩ := ih
    obtain ⟨hne, hd⟩ := hd
    rcases List.eq_nil_or_concat' l' with rfl | ⟨us, x, rfl⟩
    · exact absurd rfl (h'.bottom_ne_none.1 hne)
    · obtain ⟨priv₁, hd₁, h₁, -⟩ := dropObject_spec us [] h'
      rw [h'.list.bottom, List.map_append, List.map_cons, List.map_nil, List.getLast?_concat, hd₁] at hd
      obtain rfl := Except.ok.inj hd
      exact ⟨_, h₁⟩

theorem Holding.usedSize_eq (h : Holding priv l) :
    priv.usedSize.toNat = total objectFootprint (storedObjects priv) := by
  have := h.map_storedObjects (f := objectFootprint) (g := Cell.cost) fun o x hh => by
    rw [objectFootprint, hh.allocated]
    rfl
  rw [h.used, total, total, ← this.sum_eq]

theorem Rep.usedSize_eq_zero (h : Rep priv l) : priv.usedSize = 0 ↔ priv.objects = [] := by
  rw [← h.bottom_eq_none, ← UInt64.toNat_inj, h.holding.used, h.list.bottom]
  cases l with
  | nil => simp
  | cons x l =>
    have := x.2.footprint_gt
    simp only [total_cons, Cell.cost, UInt64.toNat_zero]
    simp
    omega

/-- **Exact accounting.**  The counter is the sum of the footprints of the objects of the table, in a reachable
state and after any number of rounds of the eviction loop from there; so it does not fall short of the
footprint of any object that may be dropped or updated next, the sum is below 2⁶⁴, and it is zero exactly for
the empty cache. -/
theorem reachable_accounting (hr : (cached β).Reachable priv) (he : Evicts priv priv') :
    priv'.usedSize.toNat = total objectFootprint (storedObjects priv') ∧
    (∀ o ∈ storedObjects priv', objectFootprint o ≤ priv'.usedSize.toNat) ∧
    total objectFootprint (storedObjects priv') < 2 ^ 64 ∧
    (priv'.usedSize = 0 ↔ priv'.objects = []) := by
  obtain ⟨s, l, h, -⟩ := Reachable.abs hr
  obtain ⟨l', h'⟩ := h.evicts he
  have hsum := h'.holding.usedSize_eq
  refine ⟨hsum, ?_, ?_, h'.usedSize_eq_zero⟩
  · intro o ho
    rw [hsum]
    exact cost_le_total _ ho
  · rw [← hsum]
    exact priv'.usedSize.toNat_lt

/-- The same state, before any eviction. -/
theorem reachable_accounting_sample : ∃ priv, (cached PlainBuffer).Reachable priv ∧
    (storedObjects priv).map objectFootprint = [43, 43] ∧
    priv.usedSize.toNat = total objectFootprint (storedObjects priv) := by
  obtain ⟨priv₁, priv₂, bufs, priv, h₁, h₂, h₃, hf⟩ := sample_calls
  have hr : (cached PlainBuffer).Reachable priv := ⟨_, sample_run h₁ h₂ h₃ hf⟩
  refine ⟨priv, hr, ?_, (reachable_accounting hr Relation.ReflTransGen.refl).1⟩
  cases h₁
  cases h₂
  cases h₃
  decide

/-! ### Idle memory -/

/-- **Bounded slack.**  In a reachable state, and after any number of rounds of the eviction loop from there, an
object is not empty, it has room for its payload, and at most a twentieth of that room is idle; so the memory in
use is bounded by the payloads. -/
theorem reachable_slack (hr : (cached β).Reachable priv) (he : Evicts priv priv') :
    (∀ o ∈ storedObjects priv', 0 < o.size.toNat ∧ o.size ≤ o.allocated ∧
      19 * o.allocated.toNat ≤ 20 * o.size.toNat ∧ o.allocated ≠ 0) ∧
    priv'.usedSize.toNat ≤
      total (fun o => OBJECT_HEADER_SIZE.toNat + 20 * o.size.toNat / 19) (storedObjects priv') := by
  obtain ⟨s, l, h, -⟩ := Reachable.abs hr
  obtain ⟨l', h'⟩ := h.evicts he
  have hobject : ∀ o ∈ storedObjects priv', 0 < o.size.toNat ∧ o.size.toNat ≤ o.allocated.toNat ∧
      19 * o.allocated.toNat ≤ 20 * o.size.toNat := by
    intro o ho
    obtain ⟨x, -, hh⟩ := h'.holding.exists_holds ho
    rw [hh.size, hh.allocated]
    exact ⟨x.2.pos, x.2.fits, x.2.tight⟩
  constructor
  · intro o ho
    obtain ⟨hpos, hle, htight⟩ := hobject o ho
    refine ⟨hpos, hle, htight, ?_⟩
    intro h0
    rw [h0, UInt32.toNat_zero] at hle
    omega
  · rw [h'.holding.usedSize_eq]
    apply total_le_total
    intro o ho
    obtain ⟨-, -, htight⟩ := hobject o ho
    rw [objectFootprint]
    omega

/-- An object whose payload shrinks in place from twenty bytes to nineteen. -/
theorem reachable_slack_sample : ∃ priv, (cached PlainBuffer).Reachable priv ∧
    (storedObjects priv).map (fun o => (o.size, o.allocated)) = [(19, 20)] ∧ priv.usedSize.toNat = 60 ∧
    priv.usedSize.toNat ≤
      total (fun o => OBJECT_HEADER_SIZE.toNat + 20 * o.size.toNat / 19) (storedObjects priv) := by
  obtain ⟨priv₁, h₁⟩ : ∃ priv,
      callSet ⟨0, fun _ => 0⟩ (new 64) (sizedSet 7 20 (by decide)) = .ok (true, priv) := ⟨_, rfl⟩
  obtain ⟨priv₂, h₂⟩ : ∃ priv,
      callSet ⟨1, fun _ => 0⟩ priv₁ (sizedSet 7 19 (by decide)) = .ok (true, priv) := by
    cases h₁
    exact ⟨_, rfl⟩
  have hr : (cached PlainBuffer).Reachable priv₂ := (reachable_new.step (Step.set _ h₁)).step (Step.set _ h₂)
  have hslack := (reachable_slack hr Relation.ReflTransGen.refl).2
  refine ⟨priv₂, hr, ?_, ?_, hslack⟩
  · cases h₁
    cases h₂
    decide
  · cases h₁
    cases h₂
    rfl

end HyScanCache.Cached
