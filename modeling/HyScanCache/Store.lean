import HyScanCache.Lib.Recency
import HyScanCache.Memory

/-!
# What the cache is for

The cache without its pointers: a limit and a list of entries, the most recently used first.  An `Entry` and
a `Store` carry what makes them valid, so an empty entry, an entry larger than its memory, two entries of one
key or a store far beyond its limit cannot be built.

* `Store.erase`, `Store.touch`: delete an entry, use an entry;
* `Store.evict`: keep the longest prefix that leaves room for a request;
* `Store.put`: make a payload the entry of its key, on top;
* `Store.set`: make room, then put.  The request is a 32-bit value, as in the source.
-/

namespace HyScanCache

open Lib Recency

/-- `OBJECT_HEADER_SIZE` -/
def headerSize : ℕ := 40

/-- A payload that can be stored. -/
structure Payload where
  bytes : Bytes
  pos : 0 < bytes.length
  lt : bytes.length < 2 ^ 32

/-- What is stored of one key. -/
@[ext] structure Entry where
  key : UInt64
  detail : UInt64
  /-- The size of the memory of the payload. -/
  allocated : ℕ
  /-- The payload. -/
  bytes : Bytes
  pos : 0 < bytes.length
  fits : bytes.length ≤ allocated
  /-- At most a twentieth of the memory is idle. -/
  tight : 19 * allocated ≤ 20 * bytes.length
  lt : allocated < 2 ^ 32

namespace Entry

/-- The memory an entry is charged for. -/
def footprint (e : Entry) : ℕ := headerSize + e.allocated

theorem footprint_gt (e : Entry) : headerSize < e.footprint := by
  have h1 := e.pos
  have h2 := e.fits
  unfold footprint
  omega

/-- A new entry. -/
def fresh (key detail : UInt64) (p : Payload) : Entry where
  key := key
  detail := detail
  allocated := p.bytes.length
  bytes := p.bytes
  pos := p.pos
  fits := le_rfl
  tight := by omega
  lt := p.lt

/-- The memory of `e` does for the payload. -/
def Reusable (e : Entry) (p : Payload) : Prop :=
  p.bytes.length ≤ e.allocated ∧ 19 * e.allocated ≤ 20 * p.bytes.length

instance (e : Entry) (p : Payload) : Decidable (e.Reusable p) := by unfold Reusable; infer_instance

theorem reusable_fresh (key detail : UInt64) (p : Payload) : (fresh key detail p).Reusable p :=
  ⟨le_rfl, Nat.mul_le_mul_right p.bytes.length (show 19 ≤ 20 by decide)⟩

/-- The payload in the memory of `e`. -/
def reuse (e : Entry) (detail : UInt64) (p : Payload) (h : e.Reusable p) : Entry :=
  { e with detail := detail, bytes := p.bytes, pos := p.pos, fits := h.1, tight := h.2 }

/-- The entry that comes after `old`, if there is an entry of the key, or is new. -/
def next (old : Option Entry) (key detail : UInt64) (p : Payload) : Entry :=
  match old with
  | none => fresh key detail p
  | some e => if h : e.Reusable p then e.reuse detail p h else fresh e.key detail p

@[simp] theorem bytes_next (old : Option Entry) (key detail : UInt64) (p : Payload) :
    (next old key detail p).bytes = p.bytes := by
  unfold next
  split
  · rfl
  · split <;> rfl

@[simp] theorem detail_next (old : Option Entry) (key detail : UInt64) (p : Payload) :
    (next old key detail p).detail = detail := by
  unfold next
  split
  · rfl
  · split <;> rfl

theorem footprint_next_le (old : Option Entry) (key detail : UInt64) (p : Payload) :
    (next old key detail p).footprint ≤ (old.map footprint).getD 0 + headerSize + p.bytes.length := by
  unfold next
  split
  · simp [fresh, footprint]
  · split
    · simp only [reuse, footprint, Option.map_some, Option.getD_some]
      omega
    · simp only [fresh, footprint, Option.map_some, Option.getD_some]
      omega

theorem footprint_next_none (key detail : UInt64) (p : Payload) :
    (next none key detail p).footprint = headerSize + p.bytes.length := rfl

theorem footprint_next_some (e : Entry) (key detail : UInt64) (p : Payload) :
    (next (some e) key detail p).footprint =
      if e.Reusable p then e.footprint else headerSize + p.bytes.length := by
  unfold next
  by_cases h : e.Reusable p
  · simp only [dif_pos h, if_pos h]
    rfl
  · simp only [dif_neg h, if_neg h]
    rfl

theorem le_footprint_next (old : Option Entry) (key detail : UInt64) (p : Payload) :
    headerSize + p.bytes.length ≤ (next old key detail p).footprint := by
  have h := (next old key detail p).fits
  rw [bytes_next] at h
  unfold footprint
  omega

end Entry

/-- The contents of a cache. -/
@[ext] structure Store where
  limit : ℕ
  /-- The most recently used first. -/
  entries : List Entry
  limit_ge : 2 ^ 26 ≤ limit
  limit_le : limit ≤ 2 ^ 37
  distinct : Distinct Entry.key entries
  used_le : total Entry.footprint entries ≤ limit + headerSize + 2 ^ 32

namespace Store

variable (s : Store) (k detail : UInt64) (p : Payload)

/-- The memory in use. -/
def used : ℕ := total Entry.footprint s.entries

/-- The entry of a key. -/
def find : Option Entry := Recency.find Entry.key k s.entries

/-- No entries. -/
def empty (limit : ℕ) (h1 : 2 ^ 26 ≤ limit) (h2 : limit ≤ 2 ^ 37) : Store where
  limit := limit
  entries := []
  limit_ge := h1
  limit_le := h2
  distinct := List.nodup_nil
  used_le := by simp

/-- A part of a store. -/
def restrict (l : List Entry) (h : l.Sublist s.entries) : Store :=
  { s with
    entries := l
    distinct := s.distinct.sublist h
    used_le := (total_le_of_sublist _ h).trans s.used_le }

/-- Delete the entry of a key. -/
def erase : Store := s.restrict (Recency.erase Entry.key k s.entries) erase_sublist

@[simp] theorem entries_erase : (s.erase k).entries = Recency.erase Entry.key k s.entries := rfl

theorem total_promote_le (e : Entry) (hf : s.find e.key = some e) :
    total Entry.footprint (promote Entry.key e s.entries) = s.used := by
  have he := mem_of_find hf
  rw [promote, total_cons, used, total_erase Entry.footprint s.distinct he]
  omega

/-- Use the entry of a key. -/
def touch : Store :=
  match h : s.find k with
  | none => s
  | some e =>
    { s with
      entries := promote Entry.key e s.entries
      distinct := s.distinct.promote
      used_le := by
        rw [total_promote_le s e (by rw [key_of_find h]; exact h)]
        exact s.used_le }

theorem entries_touch (e : Entry) (hf : s.find k = some e) :
    (s.touch k).entries = promote Entry.key e s.entries := by
  unfold touch
  split
  · next hn => rw [hf] at hn; cases hn
  · next e' he =>
    obtain rfl : e = e' := Option.some.inj (hf.symm.trans he)
    rfl

@[simp] theorem limit_touch : (s.touch k).limit = s.limit := by
  unfold touch
  split <;> rfl

/-- Keep the longest prefix that leaves room for `request` bytes. -/
def evict (request : ℕ) : Store :=
  s.restrict (keepFit Entry.footprint (s.limit - request) s.entries)
    (keepFit_isPrefix _ _ _).sublist

/-- Make room for a payload.  The request is cut to 32 bits. -/
def makeRoom : Store :=
  if s.limit < s.used + headerSize + p.bytes.length then
    s.evict ((headerSize + p.bytes.length) % 2 ^ 32)
  else
    s

@[simp] theorem entries_evict (request : ℕ) :
    (s.evict request).entries = keepFit Entry.footprint (s.limit - request) s.entries := rfl

theorem used_evict_le (request : ℕ) : (s.evict request).used ≤ s.limit - request :=
  total_keepFit_le _ _ _

@[simp] theorem limit_makeRoom : (s.makeRoom p).limit = s.limit := by
  unfold makeRoom
  split <;> rfl

theorem used_makeRoom_le : (s.makeRoom p).used ≤ s.limit := by
  unfold makeRoom
  split
  · have := s.used_evict_le ((headerSize + p.bytes.length) % 2 ^ 32)
    omega
  · omega

theorem makeRoom_isPrefix : (s.makeRoom p).entries <+: s.entries := by
  unfold makeRoom
  split
  · exact keepFit_isPrefix _ _ _
  · exact List.prefix_refl _

@[simp] theorem key_next : (Entry.next (s.find k) k detail p).key = k := by
  unfold Entry.next
  split
  · rfl
  · next e hf =>
    have := key_of_find hf
    split <;> exact this

/-- The memory of the other keys. -/
theorem total_erase_find :
    total Entry.footprint (Recency.erase Entry.key k s.entries) + ((s.find k).map Entry.footprint).getD 0 =
      s.used := by
  cases hf : s.find k with
  | none =>
    rw [erase_of_find_none hf]
    rfl
  | some e =>
    have h := total_erase Entry.footprint s.distinct (mem_of_find hf)
    rw [key_of_find hf] at h
    exact h.symm

theorem used_inPlace {e : Entry} (hf : s.find k = some e) (hre : e.Reusable p) :
    s.used - ((s.find k).map Entry.footprint).getD 0 + (Entry.next (s.find k) k detail p).footprint = s.used := by
  have h := s.total_erase_find k
  rw [hf, Option.map_some, Option.getD_some] at h
  rw [hf, Option.map_some, Option.getD_some, Entry.footprint_next_some, if_pos hre]
  omega

/-- The memory in use after an entry of the key `e.key` was put on top. -/
theorem total_promote (e : Entry) :
    total Entry.footprint (promote Entry.key e s.entries) +
      ((s.find e.key).map Entry.footprint).getD 0 = s.used + e.footprint := by
  have h := s.total_erase_find e.key
  rw [promote, total_cons]
  omega

/-- Make the payload the entry of the key, on top. -/
def put (h : s.used ≤ s.limit) : Store :=
  { s with
    entries := promote Entry.key (Entry.next (s.find k) k detail p) s.entries
    distinct := s.distinct.promote
    used_le := by
      have h1 := s.total_promote (Entry.next (s.find k) k detail p)
      have h2 := Entry.footprint_next_le (s.find k) k detail p
      have h3 := p.lt
      rw [key_next] at h1
      omega }

@[simp] theorem limit_put (h : s.used ≤ s.limit) : (s.put k detail p h).limit = s.limit := rfl

/-- Make room for the payload and put it. -/
def set : Store :=
  (s.makeRoom p).put k detail p (by rw [limit_makeRoom]; exact s.used_makeRoom_le p)

@[simp] theorem limit_set : (s.set k detail p).limit = s.limit := by
  rw [set, limit_put, limit_makeRoom]

theorem entries_set : (s.set k detail p).entries =
    promote Entry.key (Entry.next ((s.makeRoom p).find k) k detail p) (s.makeRoom p).entries := rfl

theorem find_set : ∃ e, (s.set k detail p).find k = some e ∧ e.detail = detail ∧ e.bytes = p.bytes := by
  refine ⟨Entry.next ((s.makeRoom p).find k) k detail p, ?_, Entry.detail_next .., Entry.bytes_next ..⟩
  refine (find_eq_some (s.set k detail p).distinct).2 ⟨?_, key_next ..⟩
  rw [entries_set, promote]
  exact List.mem_cons_self

/-- A payload of a new key, when nothing is evicted. -/
theorem entries_set_of_room (hroom : s.makeRoom p = s) (hf : s.find k = none) :
    (s.set k detail p).entries = Entry.fresh k detail p :: s.entries := by
  have hnext : Entry.next (s.find k) k detail p = Entry.fresh k detail p := by
    rw [hf]
    rfl
  rw [entries_set, hroom, hnext, promote]
  exact congrArg _ (erase_of_find_none hf)

end Store

end HyScanCache
