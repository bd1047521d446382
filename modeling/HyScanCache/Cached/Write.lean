import HyScanCache.Cached.Table

/-!
# Storing an object

A payload comes in two parts, and its size is the sum of theirs in 32 bits.  The memory of an object is
allocated by this sum while the two copies write the parts whole: `copyData_eq` decides whether they stay in
the block.  For a payload below 2³² bytes they do, and `storeObject` leaves the entry that `Entry.next` says
(`storeObject_create`, `storeObject_update`); beyond, a copy overruns the block (`storeObject_overrun`).
-/

namespace HyScanCache.Cached

open Lib Recency HyScanCachedPrivate

variable {priv priv' : HyScanCachedPrivate} {a : Addr} {o : ObjectInfo} {e : Entry} {l : List Cell} {x : Cell}
variable {block : Block} {key detail : UInt64} {data1 data2 : Bytes} {p : Payload}

/-! ### Sizes -/

/-- The size the source computes of a payload of two parts. -/
def sumSize (data1 data2 : Bytes) : UInt32 := guint32Size data1 + guint32Size data2

theorem toNat_sumSize (data1 data2 : Bytes) :
    (sumSize data1 data2).toNat = (data1.length + data2.length) % 2 ^ 32 := by
  simp [sumSize, guint32Size, UInt32.toNat_add, UInt32.toNat_ofNat']

theorem sumSize_payload (hp : p.bytes = data1 ++ data2) : (sumSize data1 data2).toNat = p.bytes.length := by
  have := p.lt
  rw [toNat_sumSize, ← List.length_append, ← hp, Nat.mod_eq_of_lt this]

theorem length_le_sumSize : data1.length + data2.length ≤ (sumSize data1 data2).toNat ↔
    data1.length + data2.length < 2 ^ 32 := by
  rw [toNat_sumSize]
  omega

/-! ### Copies -/

theorem store_eq (ho : priv.heap a = some o) (f : ObjectInfo → ObjectInfo) :
    priv.store (some a) f = .ok { priv with heap := Function.update priv.heap a (some (f o)) } := by
  rw [store_live ho, Heap.modify, ho]
  rfl

theorem memcpy_eq (ho : priv.heap a = some o) (offset : UInt32) (src : Bytes) :
    priv.memcpy (some a) offset src =
      if offset.toNat + src.length ≤ o.data.length then
        .ok { priv with heap := Function.update priv.heap a (some { o with
          data := o.data.take offset.toNat ++ src ++ o.data.drop (offset.toNat + src.length) }) }
      else
        .error .overrun := by
  rw [memcpy, load_live ho, Exec.ok_bind]
  split
  · exact store_eq ho _
  · rfl

/-- The object with the two parts written to its memory. -/
def written (o : ObjectInfo) (data1 data2 : Bytes) : ObjectInfo :=
  { o with data := data1 ++ data2 ++ o.data.drop (data1.length + data2.length) }

/-- **The copies stay in the block exactly if the parts fit together.** -/
theorem copyData_eq (ho : priv.heap a = some o) (h1 : data1.length < 2 ^ 32) (h2 : data2.length < 2 ^ 32) :
    copyData priv (some a) data1 data2 =
      if data1.length + data2.length ≤ o.data.length then
        .ok { priv with heap := Function.update priv.heap a (some (written o data1 data2)) }
      else
        .error .overrun := by
  have hs1 := toNat_guint32Size h1
  have hs2 := guint32Size_pos h2
  unfold copyData
  rw [memcpy_eq ho, UInt32.toNat_zero, Nat.zero_add]
  by_cases hfit1 : data1.length ≤ o.data.length
  · rw [if_pos hfit1, Exec.ok_bind]
    by_cases he : data2 = []
    · subst he
      rw [if_neg (by simp [hs2]), if_pos (by simpa using hfit1)]
      simp [written]
    · rw [if_pos (hs2.2 he), memcpy_eq (by exact Function.update_self _ _ _), hs1]
      simp only [Function.update_idem, List.take_zero, List.nil_append]
      have hlen : (data1 ++ o.data.drop data1.length).length = o.data.length := by
        rw [List.length_append, List.length_drop]
        omega
      have hdrop : (data1 ++ o.data.drop data1.length).drop (data1.length + data2.length) =
          o.data.drop (data1.length + data2.length) := by
        rw [List.drop_append, List.drop_eq_nil_of_le (by omega), List.nil_append, Nat.add_sub_cancel_left,
          List.drop_drop]
      rw [hlen, List.take_left' rfl, hdrop]
      rfl
  · rw [if_neg hfit1, if_neg (by omega), Exec.error_bind]

/-! ### New objects -/

/-- The cache with one more object: its block, its table entry and its charge. -/
def addObject (priv : HyScanCachedPrivate) (a : Addr) (o : ObjectInfo) : HyScanCachedPrivate :=
  { priv with
    usedSize := priv.usedSize + (OBJECT_HEADER_SIZE + o.allocated.toUInt64)
    objects := ⟨some a, some a⟩ :: priv.objects
    heap := Function.update priv.heap a (some o) }

theorem Holding.notMem_of_dead (h : Holding priv l) (ha : priv.heap a = none) : a ∉ l.map Prod.fst := by
  intro hm
  obtain ⟨x, hx, he⟩ := List.mem_map.1 hm
  exact h.ne_of_dead ha hx he

theorem Holding.addObject (h : Holding priv l) (ha : priv.heap a = none) (hk : find Cell.key e.key l = none)
    (hh : Holds o e) (hlt : total Cell.cost l + e.footprint < 2 ^ 64) :
    Holding (addObject priv a o) ((a, e) :: l) := by
  have hc := toNat_charge o.allocated
  have hf : e.footprint = headerSize + o.allocated.toNat := by rw [hh.allocated]; rfl
  apply h.cons ha hk hh rfl rfl
  rw [Cached.addObject, UInt64.toNat_add, h.used, hc, ← hf, Nat.mod_eq_of_lt hlt]

theorem UsedList.addObject (hl : UsedList priv (l.map Prod.fst)) (h : Holding priv l)
    (ha : priv.heap a = none) : UsedList (addObject priv a o) (l.map Prod.fst) :=
  hl.congr rfl rfl fun _ hb => Function.update_of_ne (fun e => h.notMem_of_dead ha (by rw [← e]; exact hb)) _ _

theorem insert_eq (h : Holding priv l) (ha : priv.heap a = none) (hk : find Cell.key o.hash l = none)
    {priv' : HyScanCachedPrivate} (hheap : priv'.heap = Function.update priv.heap a (some o))
    (hobj : priv'.objects = priv.objects) :
    priv'.insert (some a) = .ok { priv' with objects := ⟨some a, some a⟩ :: priv'.objects } := by
  have ho : priv'.heap a = some o := by rw [hheap, Function.update_self]
  have hsame : ∀ x ∈ l, priv'.heap x.1 = priv.heap x.1 := fun x hx => by
    rw [hheap, Function.update_of_ne (h.ne_of_dead ha hx)]
  obtain ⟨cells, -, hex⟩ := h.extract hsame o.hash
  rw [hk, Option.map_none, ← hobj] at hex
  rw [HyScanCachedPrivate.insert, load_live ho, Exec.ok_bind, hex]
  rfl

theorem malloc_dead (ha : priv.heap block.addr = none) (o : ObjectInfo) :
    priv.malloc block o =
      .ok (some block.addr, { priv with heap := Function.update priv.heap block.addr (some o) }) := by
  rw [malloc, ha]

theorem malloc_live {o' : ObjectInfo} (ha : priv.heap block.addr = some o') (o : ObjectInfo) :
    priv.malloc block o = .error .allocator := by
  rw [malloc, ha]

/-- The object that `hyscan_cached_rise_object` makes. -/
def risen (block : Block) (key detail : UInt64) (data1 data2 : Bytes) : ObjectInfo where
  prev := none
  next := none
  hash := key
  detail := detail
  allocated := sumSize data1 data2
  size := sumSize data1 data2
  data := block.bytes (sumSize data1 data2)

/-- **A new object**: the copies stay in its memory exactly if the sum of the sizes does not wrap. -/
theorem riseObject_eq (ha : priv.heap block.addr = none) (h1 : data1.length < 2 ^ 32)
    (h2 : data2.length < 2 ^ 32) :
    riseObject block priv key detail data1 data2 =
      if data1.length + data2.length < 2 ^ 32 then
        .ok (some block.addr, { priv with
          usedSize := priv.usedSize + (OBJECT_HEADER_SIZE + (sumSize data1 data2).toUInt64)
          heap := Function.update priv.heap block.addr
            (some (written (risen block key detail data1 data2) data1 data2)) })
      else
        .error .overrun := by
  have hlen : (risen block key detail data1 data2).data.length = (sumSize data1 data2).toNat :=
    block.length_bytes _
  have he : riseObject block priv key detail data1 data2 = (copyData { priv with
      usedSize := priv.usedSize + (OBJECT_HEADER_SIZE + (sumSize data1 data2).toUInt64)
      heap := Function.update priv.heap block.addr (some (risen block key detail data1 data2)) }
      (some block.addr) data1 data2 >>= fun priv => pure (some block.addr, priv)) := by
    rw [riseObject, malloc_dead ha]
    rfl
  rw [he, copyData_eq (o := risen block key detail data1 data2) (by exact Function.update_self _ _ _) h1 h2, hlen]
  simp only [length_le_sumSize, Function.update_idem]
  split <;> rfl

theorem written_data_of_length (o : ObjectInfo) (data1 data2 : Bytes)
    (h : o.data.length ≤ data1.length + data2.length) : (written o data1 data2).data = data1 ++ data2 := by
  rw [written]
  simp only
  rw [List.drop_eq_nil_of_le h, List.append_nil]

theorem holds_risen (block : Block) (key detail : UInt64) (hp : p.bytes = data1 ++ data2) :
    Holds (written (risen block key detail data1 data2) data1 data2) (Entry.fresh key detail p) := by
  have hlen : p.bytes.length = data1.length + data2.length := by rw [hp, List.length_append]
  have hsize := sumSize_payload hp
  have hdata := written_data_of_length (risen block key detail data1 data2) data1 data2
    (by rw [risen, block.length_bytes, hsize, hlen])
  exact ⟨rfl, rfl, hsize, hsize, by rw [hdata, ← hp]; rfl, by rw [hdata, ← hp]; exact List.take_length⟩

/-! ### Objects changed -/

/-- The memory is allocated anew exactly if that of the entry does not do. -/
theorem reallocates_iff {allocated size : UInt32} (ha : allocated.toNat = e.allocated)
    (hs : size.toNat = p.bytes.length) : reallocates allocated size ↔ ¬ e.Reusable p := by
  rw [reallocates, Entry.Reusable, UInt32.lt_iff_toNat_lt, ha, hs]
  omega

/-- The object with its new size and detail. -/
def resized (o : ObjectInfo) (size : UInt32) (detail : UInt64) : ObjectInfo :=
  { o with size := size, detail := detail }

/-- A change of a live object: room for the payload, then its size and detail, then the copies. -/
theorem updateObject_live (block : Block) (detail : UInt64) (ho : priv.heap a = some o) :
    updateObject block priv (some a) detail data1 data2 =
      ((if reallocates o.allocated (sumSize data1 data2) then
        reallocObject block priv (some a) (sumSize data1 data2) else pure (some a, priv)) >>= fun r =>
      r.2.store r.1 (fun x => resized x (sumSize data1 data2) detail) >>= fun priv =>
      copyData priv r.1 data1 data2 >>= fun priv => pure (r.1, priv)) := by
  rw [updateObject, load_live ho, Exec.ok_bind]
  unfold sumSize
  split <;> rfl

/-- **A change in place**: the copies stay in the memory exactly if it has as many bytes as the payload. -/
theorem updateObject_inPlace (block : Block) (detail : UInt64) (ho : priv.heap a = some o)
    (h1 : data1.length < 2 ^ 32) (h2 : data2.length < 2 ^ 32) (hr : ¬ reallocates o.allocated (sumSize data1 data2)) :
    updateObject block priv (some a) detail data1 data2 =
      if data1.length + data2.length ≤ o.data.length then
        .ok (some a, { priv with
          heap := Function.update priv.heap a
            (some (written (resized o (sumSize data1 data2) detail) data1 data2)) })
      else
        .error .overrun := by
  rw [updateObject_live _ _ ho, if_neg hr, Exec.pure_eq, Exec.ok_bind]
  simp only
  rw [store_eq ho, Exec.ok_bind, copyData_eq (by exact Function.update_self _ _ _) h1 h2]
  simp only [Function.update_idem, show ∀ n d, (resized o n d).data = o.data from fun _ _ => rfl]
  split <;> rfl

/-- `g_realloc` of a live block, to a block that is dead once the old one is freed. -/
theorem realloc_eq (ho : priv.heap a = some o) (hb : Function.update priv.heap a none block.addr = none)
    (size : UInt32) :
    priv.realloc block (some a) size = .ok (some block.addr, { priv with
      heap := Function.update (Function.update priv.heap a none) block.addr
        (some { o with data := o.data.take size.toNat ++ (block.bytes size).drop o.data.length }) }) := by
  rw [HyScanCachedPrivate.realloc, load_live ho, Exec.ok_bind, free_live ho, Exec.ok_bind]
  exact malloc_dead (by exact hb) _

theorem steal_eq {found : Option Slot} {rest : List Slot}
    (h : extract priv.heap key priv.objects = .ok (found, rest)) :
    priv.steal key = .ok { priv with objects := rest } := by
  rw [steal, h]
  rfl

/-- The object in the memory allocated anew. -/
def reallocated (block : Block) (o : ObjectInfo) (size : UInt32) : ObjectInfo :=
  { o with
    allocated := size
    data := o.data.take size.toNat ++ (block.bytes size).drop o.data.length }

theorem length_reallocated : (reallocated block o (sumSize data1 data2)).data.length =
    (sumSize data1 data2).toNat := by
  simp only [reallocated, List.length_append, List.length_take, List.length_drop, Block.length_bytes]
  omega

/-- The object leaves its block and its charge, and comes back with those of the memory allocated anew. -/
theorem reallocObject_eq (size : UInt32) (h : Holding priv (x :: l)) (ho : priv.heap x.1 = some o)
    (hh : Holds o x.2) (hb : Function.update priv.heap x.1 none block.addr = none) :
    ∃ priv₀, Holding priv₀ l ∧ priv₀.heap = Function.update priv.heap x.1 none ∧
      priv₀.topObject = priv.topObject ∧ priv₀.bottomObject = priv.bottomObject ∧
      priv₀.cacheSize = priv.cacheSize ∧
      reallocObject block priv (some x.1) size =
        .ok (some block.addr, addObject priv₀ block.addr (reallocated block o size)) := by
  have hkey : o.hash = x.key := hh.hash
  have hnone : find Cell.key o.hash l = none := by
    rw [hkey]
    exact find_tail_eq_none h.keys
  have hcost : headerSize + o.allocated.toNat = x.cost := by rw [hh.allocated]; rfl
  have hused := h.used
  rw [total_cons] at hused
  have hrefund := toNat_refund (u := priv.usedSize) (n := o.allocated) (by omega)
  obtain ⟨cells, hp, hex⟩ := h.extract (fun _ _ => rfl) o.hash
  rw [hkey, erase_cons_self h.keys] at hp
  -- without the object
  let priv₀ : HyScanCachedPrivate := { priv with
    usedSize := priv.usedSize - (OBJECT_HEADER_SIZE + o.allocated.toUInt64)
    objects := cells.map Cell.slot
    heap := Function.update priv.heap x.1 none }
  have h₀ : Holding priv₀ l := h.uncons rfl hp rfl (by simp only [priv₀]; omega)
  refine ⟨priv₀, h₀, rfl, rfl, rfl, rfl, ?_⟩
  rw [reallocObject, load_live ho, Exec.ok_bind, steal_eq hex, Exec.ok_bind, realloc_eq (by exact ho)
    (by exact hb), Exec.ok_bind]
  simp only
  rw [insert_eq (o := { o with data := o.data.take size.toNat ++ (block.bytes size).drop o.data.length }) h₀
    hb hnone (by rfl) (by rfl), Exec.ok_bind, load_live (by exact Function.update_self _ _ _), Exec.ok_bind,
    store_eq (by exact Function.update_self _ _ _), Exec.ok_bind]
  simp only [Function.update_idem]
  rfl

/-- **A change that allocates anew**: the copies stay in the new memory exactly if the sum of the sizes does
not wrap. -/
theorem updateObject_realloc (detail : UInt64) (h : Holding priv (x :: l)) (ho : priv.heap x.1 = some o)
    (hh : Holds o x.2) (h1 : data1.length < 2 ^ 32) (h2 : data2.length < 2 ^ 32)
    (hr : reallocates o.allocated (sumSize data1 data2))
    (hb : Function.update priv.heap x.1 none block.addr = none) :
    ∃ priv₀, Holding priv₀ l ∧ priv₀.heap = Function.update priv.heap x.1 none ∧
      priv₀.topObject = priv.topObject ∧ priv₀.bottomObject = priv.bottomObject ∧
      priv₀.cacheSize = priv.cacheSize ∧
      updateObject block priv (some x.1) detail data1 data2 =
        if data1.length + data2.length < 2 ^ 32 then
          .ok (some block.addr, addObject priv₀ block.addr
            (written (resized (reallocated block o (sumSize data1 data2)) (sumSize data1 data2) detail)
              data1 data2))
        else
          .error .overrun := by
  obtain ⟨priv₀, h₀, hheap, htop, hbot, hsize, he⟩ := reallocObject_eq (sumSize data1 data2) h ho hh hb
  refine ⟨priv₀, h₀, hheap, htop, hbot, hsize, ?_⟩
  rw [updateObject_live _ _ ho, if_pos hr, he, Exec.ok_bind]
  simp only
  rw [store_eq (by exact Function.update_self _ _ _), Exec.ok_bind,
    copyData_eq (by exact Function.update_self _ _ _) h1 h2]
  simp only [show ∀ o n d, (resized o n d).data = o.data from fun _ _ _ => rfl, length_reallocated,
    length_le_sumSize, addObject, Function.update_idem]
  split <;> rfl

/-! ### The object of the key -/

/-- The object at `a` is in the table with the entry `e`, and not in the list. -/
structure Stored (priv : HyScanCachedPrivate) (a : Addr) (e : Entry) (l : List Cell) : Prop where
  holding : Holding priv ((a, e) :: l)
  list : UsedList priv (l.map Prod.fst)
  detached : Detached priv a

/-- The allocator may hand out `block` in exchange for the memory of `object`. -/
def Grants (priv : HyScanCachedPrivate) (object : Ptr) (block : Block) : Prop :=
  priv.heap block.addr = none ∨ object = some block.addr

theorem grants_none : Grants priv none block ↔ priv.heap block.addr = none := by simp [Grants]

theorem dead_of_grants (h : Grants priv (some a) block) : Function.update priv.heap a none block.addr = none := by
  by_cases he : block.addr = a
  · rw [he, Function.update_self]
  · rw [Function.update_of_ne he]
    exact h.resolve_right fun e => he (by simpa using e.symm)

theorem storeObject_create (detail : UInt64) (h : Rep priv l) (hk : find Cell.key key l = none)
    (hb : priv.heap block.addr = none) (hp : p.bytes = data1 ++ data2)
    (hlt : total Cell.cost l + headerSize + 2 ^ 32 ≤ 2 ^ 64) :
    ∃ priv', storeObject block priv none key detail data1 data2 = .ok (some block.addr, priv') ∧
      Stored priv' block.addr (Entry.fresh key detail p) l ∧ priv'.cacheSize = priv.cacheSize := by
  have hlen : p.bytes.length = data1.length + data2.length := by rw [hp, List.length_append]
  have hplt := p.lt
  have hh := holds_risen block key detail hp
  refine ⟨addObject priv block.addr (written (risen block key detail data1 data2) data1 data2), ?_,
    ⟨h.holding.addObject hb hk hh ?_, h.list.addObject h.holding hb, _, Function.update_self _ _ _, rfl, rfl⟩, rfl⟩
  · rw [storeObject, if_neg (by simp), riseObject_eq hb (by omega) (by omega), if_pos (by omega), Exec.ok_bind]
    simp only
    rw [insert_eq (o := written (risen block key detail data1 data2) data1 data2) h.holding hb hk (by rfl)
      (by rfl)]
    rfl
  · simp only [Entry.footprint, Entry.fresh]
    omega

theorem holds_resized (detail : UInt64) (hh : Holds o e) (hp : p.bytes = data1 ++ data2) (hr : e.Reusable p) :
    Holds (written (resized o (sumSize data1 data2) detail) data1 data2) (e.reuse detail p hr) := by
  have hlen : p.bytes.length = data1.length + data2.length := by rw [hp, List.length_append]
  have hsize := sumSize_payload hp
  have hal := hh.length
  have hfit : data1.length + data2.length ≤ o.data.length := by
    have := hr.1
    omega
  refine ⟨hh.hash, rfl, hh.allocated, hsize, ?_, ?_⟩
  · rw [written, resized]
    simp only [List.length_append, List.length_drop]
    exact (by omega : _ = o.data.length).trans hal
  · rw [written, ← hp]
    exact List.take_left

theorem holds_reallocated (hh : Holds o e) (hp : p.bytes = data1 ++ data2) :
    Holds (written (resized (reallocated block o (sumSize data1 data2)) (sumSize data1 data2) detail) data1 data2)
      (Entry.fresh e.key detail p) := by
  have hlen : p.bytes.length = data1.length + data2.length := by rw [hp, List.length_append]
  have hsize := sumSize_payload hp
  have hdata := written_data_of_length
    (resized (reallocated block o (sumSize data1 data2)) (sumSize data1 data2) detail) data1 data2 (by
      show (reallocated block o (sumSize data1 data2)).data.length ≤ _
      rw [length_reallocated, hsize, hlen])
  exact ⟨hh.hash, rfl, hsize, hsize, by rw [hdata, ← hp]; rfl, by rw [hdata, ← hp]; exact List.take_length⟩

theorem Rep.removeObjectFromUsed {us vs : List Cell} (h : Rep priv (us ++ x :: vs)) :
    ∃ priv₁, removeObjectFromUsed priv (some x.1) = .ok priv₁ ∧ Stored priv₁ x.1 x.2 (us ++ vs) ∧
      LinksOnly priv priv₁ := by
  have hl := h.list
  rw [List.map_append, List.map_cons] at hl
  obtain ⟨priv₁, hr, hl₁, hlo, hd⟩ := removeObjectFromUsed_mem hl
  refine ⟨priv₁, hr, ⟨hlo.holding (h.holding.perm (perm_front us vs x)), ?_, hd⟩, hlo⟩
  rw [List.map_append]
  exact hl₁

theorem Stored.exists_object (h : Stored priv a e l) :
    ∃ o, priv.heap a = some o ∧ o.prev = none ∧ o.next = none ∧ Holds o e := by
  obtain ⟨o, ho, hprev, hnext⟩ := h.detached
  obtain ⟨o', ho', hh⟩ := h.holding.object (a, e) (by simp)
  obtain rfl : o = o' := Option.some.inj (ho.symm.trans ho')
  exact ⟨o, ho, hprev, hnext, hh⟩

/-- The object that is detached is changed in its memory. -/
theorem Stored.update_inPlace (block : Block) (key detail : UInt64) (h : Stored priv x.1 x.2 l)
    (hre : x.2.Reusable p) (hp : p.bytes = data1 ++ data2) :
    ∃ priv', updateObject block priv (some x.1) detail data1 data2 = .ok (some x.1, priv') ∧
      Stored priv' x.1 (Entry.next (some x.2) key detail p) l ∧ priv'.cacheSize = priv.cacheSize := by
  have hlen : p.bytes.length = data1.length + data2.length := by rw [hp, List.length_append]
  have hplt := p.lt
  obtain ⟨o, ho, hprev, hnext, hh⟩ := h.exists_object
  have hnr : ¬ reallocates o.allocated (sumSize data1 data2) := by
    rw [reallocates_iff hh.allocated (sumSize_payload hp)]
    exact fun hn => hn hre
  have hfit : data1.length + data2.length ≤ o.data.length := by
    rw [hh.length, ← hlen]
    exact hre.1
  have he := updateObject_inPlace block detail ho (by omega) (by omega) hnr
  rw [if_pos hfit] at he
  refine ⟨_, he, ⟨?_, ?_, ?_⟩, rfl⟩
  · rw [Entry.next]
    simp only [dif_pos hre]
    exact h.holding.replace rfl rfl (holds_resized detail hh hp hre) rfl rfl rfl
  · refine h.list.congr rfl rfl fun b hb => Function.update_of_ne ?_ _ _
    rintro rfl
    exact (List.nodup_cons.1 h.holding.addrs).1 hb
  · exact ⟨_, Function.update_self _ _ _, hprev, hnext⟩

/-- The object that is detached is changed in a block allocated anew. -/
theorem Stored.update_realloc (key detail : UInt64) (h : Stored priv x.1 x.2 l) (hre : ¬ x.2.Reusable p)
    (hdead : Function.update priv.heap x.1 none block.addr = none) (hp : p.bytes = data1 ++ data2)
    (hlt : total Cell.cost l + headerSize + 2 ^ 32 ≤ 2 ^ 64) :
    ∃ priv', updateObject block priv (some x.1) detail data1 data2 = .ok (some block.addr, priv') ∧
      Stored priv' block.addr (Entry.next (some x.2) key detail p) l ∧ priv'.cacheSize = priv.cacheSize := by
  have hlen : p.bytes.length = data1.length + data2.length := by rw [hp, List.length_append]
  have hplt := p.lt
  obtain ⟨o, ho, hprev, hnext, hh⟩ := h.exists_object
  have hrl : reallocates o.allocated (sumSize data1 data2) :=
    (reallocates_iff hh.allocated (sumSize_payload hp)).2 hre
  obtain ⟨priv₀, h₀, hheap, htop, hbot, hcs, he⟩ := updateObject_realloc detail h.holding ho hh
    (by omega) (by omega) hrl hdead
  have hk : find Cell.key x.key l = none := find_tail_eq_none h.holding.keys
  rw [if_pos (by omega)] at he
  have hdead₀ : priv₀.heap block.addr = none := by rw [hheap, hdead]
  have hl₀ : UsedList priv₀ (l.map Prod.fst) := by
    apply h.list.congr htop hbot
    intro b hb
    rw [hheap, Function.update_of_ne]
    rintro rfl
    exact (List.nodup_cons.1 h.holding.addrs).1 hb
  refine ⟨_, he, ⟨?_, hl₀.addObject h₀ hdead₀, ?_⟩, hcs⟩
  · rw [Entry.next]
    simp only [dif_neg hre]
    refine h₀.addObject hdead₀ hk (holds_reallocated hh hp) ?_
    simp only [Entry.footprint, Entry.fresh]
    omega
  · exact ⟨_, Function.update_self _ _ _, hprev, hnext⟩

theorem storeObject_update (key detail : UInt64) {us vs : List Cell} (h : Rep priv (us ++ x :: vs))
    (hb : x.2.Reusable p ∨ Grants priv (some x.1) block) (hp : p.bytes = data1 ++ data2)
    (hlt : total Cell.cost (us ++ vs) + headerSize + 2 ^ 32 ≤ 2 ^ 64) :
    ∃ b priv', storeObject block priv (some x.1) key detail data1 data2 = .ok (some b, priv') ∧
      Stored priv' b (Entry.next (some x.2) key detail p) (us ++ vs) ∧ priv'.cacheSize = priv.cacheSize := by
  obtain ⟨priv₁, hr, h₁, hlo⟩ := h.removeObjectFromUsed
  rw [storeObject, if_pos (by simp), hr, Exec.ok_bind]
  by_cases hre : x.2.Reusable p
  · obtain ⟨priv', he, h', hc⟩ := h₁.update_inPlace block key detail hre hp
    exact ⟨x.1, priv', he, h', hc.trans hlo.cacheSize⟩
  · have hdead : Function.update priv₁.heap x.1 none block.addr = none := by
      refine dead_of_grants ((hb.resolve_left hre).imp_left fun hn => ?_)
      exact (hlo.heap.eq_none _).2 hn
    obtain ⟨priv', he, h', hc⟩ := h₁.update_realloc key detail hre hdead hp hlt
    exact ⟨block.addr, priv', he, h', hc.trans hlo.cacheSize⟩

/-- The allocator hands out a live block. -/
theorem reallocObject_allocator {size : UInt32} (h : Holding priv (x :: l)) (ho : priv.heap x.1 = some o)
    (hb : Function.update priv.heap x.1 none block.addr ≠ none) :
    reallocObject block priv (some x.1) size = .error .allocator := by
  obtain ⟨o', ho'⟩ := Option.ne_none_iff_exists'.1 hb
  obtain ⟨cells, -, hex⟩ := h.extract (fun _ _ => rfl) o.hash
  rw [reallocObject, load_live ho, Exec.ok_bind, steal_eq hex, Exec.ok_bind, HyScanCachedPrivate.realloc,
    load_live (by exact ho), Exec.ok_bind, free_live (by exact ho), Exec.ok_bind, malloc_live (by exact ho'),
    Exec.error_bind]

theorem updateObject_allocator (h : Holding priv (x :: l)) (ho : priv.heap x.1 = some o)
    (hr : reallocates o.allocated (sumSize data1 data2))
    (hb : Function.update priv.heap x.1 none block.addr ≠ none) :
    updateObject block priv (some x.1) detail data1 data2 = .error .allocator := by
  rw [updateObject_live _ _ ho, if_pos hr, reallocObject_allocator h ho hb, Exec.error_bind]

theorem storeObject_allocator (hb : priv.heap block.addr ≠ none) :
    storeObject block priv none key detail data1 data2 = .error .allocator := by
  obtain ⟨o, ho⟩ := Option.ne_none_iff_exists'.1 hb
  rw [storeObject, if_neg (by simp), riseObject, malloc_live ho]
  rfl

/-- **A payload below 2³² bytes is stored**, unless the allocator fails. -/
theorem storeObject_spec (block : Block) (key detail : UInt64) (h : Rep priv l) (hp : p.bytes = data1 ++ data2)
    (hlt : total Cell.cost l + headerSize + 2 ^ 32 ≤ 2 ^ 64) :
    (∃ a priv', storeObject block priv ((find Cell.key key l).map Prod.fst) key detail data1 data2 =
        .ok (some a, priv') ∧
      Stored priv' a (Entry.next ((find Cell.key key l).map Prod.snd) key detail p) (erase Cell.key key l) ∧
      priv'.cacheSize = priv.cacheSize) ∨
    storeObject block priv ((find Cell.key key l).map Prod.fst) key detail data1 data2 = .error .allocator ∧
      ¬ Grants priv ((find Cell.key key l).map Prod.fst) block := by
  have hlen : p.bytes.length = data1.length + data2.length := by rw [hp, List.length_append]
  have hplt := p.lt
  cases hf : find Cell.key key l with
  | none =>
    rw [erase_of_find_none hf, Option.map_none, Option.map_none]
    by_cases hb : priv.heap block.addr = none
    · obtain ⟨priv', h₁, h₂, h₃⟩ := storeObject_create detail h hf hb hp hlt
      exact .inl ⟨_, priv', h₁, h₂, h₃⟩
    · exact .inr ⟨storeObject_allocator hb, mt grants_none.1 hb⟩
  | some x =>
    obtain ⟨us, vs, rfl⟩ := List.append_of_mem (mem_of_find hf)
    have hkey : Cell.key x = key := key_of_find hf
    have her : erase Cell.key key (us ++ x :: vs) = us ++ vs := by
      rw [← hkey]
      exact erase_append_cons h.holding.keys
    have hle : total Cell.cost (us ++ vs) ≤ total Cell.cost (us ++ x :: vs) :=
      total_le_of_sublist _ (List.Sublist.append_left (List.sublist_cons_self x vs) us)
    rw [her, Option.map_some, Option.map_some]
    by_cases hb : x.2.Reusable p ∨ Grants priv (some x.1) block
    · obtain ⟨b, priv', h₁, h₂, h₃⟩ := storeObject_update key detail h hb hp (by omega)
      exact .inl ⟨b, priv', h₁, h₂, h₃⟩
    · -- the entry needs a new block and is not granted one
      obtain ⟨hre, hng⟩ := not_or.1 hb
      obtain ⟨priv₁, hr, h₁, hlo⟩ := h.removeObjectFromUsed
      obtain ⟨o, ho, -, -, hh⟩ := h₁.exists_object
      have hlive : Function.update priv₁.heap x.1 none block.addr ≠ none := by
        obtain ⟨hn, he⟩ := not_or.1 hng
        rw [Function.update_of_ne fun e => he (by rw [e])]
        exact fun hn' => hn ((hlo.heap.eq_none _).1 hn')
      refine .inr ⟨?_, hng⟩
      rw [storeObject, if_pos (by simp), hr, Exec.ok_bind]
      exact updateObject_allocator h₁.holding ho ((reallocates_iff hh.allocated (sumSize_payload hp)).2 hre) hlive

/-- **A payload from 2³² bytes on overruns its block**, unless the allocator fails. -/
theorem storeObject_overrun (block : Block) (key detail : UInt64) (h : Rep priv l) (h1 : data1.length < 2 ^ 32)
    (h2 : data2.length < 2 ^ 32) (hbig : 2 ^ 32 ≤ data1.length + data2.length) :
    storeObject block priv ((find Cell.key key l).map Prod.fst) key detail data1 data2 = .error .overrun ∨
    storeObject block priv ((find Cell.key key l).map Prod.fst) key detail data1 data2 = .error .allocator ∧
      ¬ Grants priv ((find Cell.key key l).map Prod.fst) block := by
  cases hf : find Cell.key key l with
  | none =>
    rw [Option.map_none]
    by_cases hb : priv.heap block.addr = none
    · rw [storeObject, if_neg (by simp), riseObject_eq hb h1 h2, if_neg (by omega), Exec.error_bind]
      exact .inl rfl
    · exact .inr ⟨storeObject_allocator hb, mt grants_none.1 hb⟩
  | some x =>
    obtain ⟨us, vs, rfl⟩ := List.append_of_mem (mem_of_find hf)
    obtain ⟨priv₁, hr, h₁, hlo⟩ := h.removeObjectFromUsed
    obtain ⟨o, ho, hh⟩ := h₁.holding.object (x.1, x.2) (by simp)
    rw [Option.map_some, storeObject, if_pos (by simp), hr, Exec.ok_bind]
    by_cases hre : reallocates o.allocated (sumSize data1 data2)
    · by_cases hdead : Function.update priv₁.heap x.1 none block.addr = none
      · obtain ⟨priv₀, -, -, -, -, -, he⟩ := updateObject_realloc detail h₁.holding ho hh h1 h2 hre hdead
        rw [he, if_neg (by omega)]
        exact .inl rfl
      · refine .inr ⟨updateObject_allocator h₁.holding ho hre hdead, fun hg => hdead (dead_of_grants ?_)⟩
        exact hg.imp_left fun hn => (hlo.heap.eq_none _).2 hn
    · have hal : (x.1, x.2).2.allocated < 2 ^ 32 := x.2.lt
      have hle : ¬ data1.length + data2.length ≤ o.data.length := by
        rw [hh.length]
        omega
      rw [updateObject_inPlace block detail ho h1 h2 hre, if_neg hle]
      exact .inl rfl

theorem Stored.placeObjectOnTopOfUsed (h : Stored priv a e l) :
    ∃ priv', placeObjectOnTopOfUsed priv (some a) = .ok priv' ∧ Rep priv' ((a, e) :: l) ∧
      priv'.cacheSize = priv.cacheSize := by
  have ha : a ∉ l.map Prod.fst := (List.nodup_cons.1 h.holding.addrs).1
  obtain ⟨priv', he, hl, hlo⟩ := placeObjectOnTopOfUsed_notMem h.list ha h.detached
  exact ⟨priv', he, ⟨hlo.holding h.holding, hl⟩, hlo.cacheSize⟩

end HyScanCache.Cached
