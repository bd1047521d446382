import HyScanCache.Cached.Limit
import HyScanCache.Remote.Client

/-!
# Copies stay inside their destinations

Both the cache and its client add up two sizes in 32 bits, compare the sum with a limit, allocate or reserve
that many bytes, and then copy the two parts whole.  The copies fit, and what is too large is rejected, exactly
when the sum did not wrap around or when what is left of it is still too large (`copiesInside_iff`,
`clientCopiesInside_iff`).  Two parts of 2³² + 1 bytes in all are copied to one byte (`copies_overrun`).
-/

namespace HyScanCache

open Lib Cached

variable {β : Type} [HyScanBuffer β]
variable {priv : HyScanCachedPrivate} {block : Block} {c : SetCall β}

/-! ### The cache -/

/-- The call returns, and if it accepts its payload, the payload is within the limit and, unless it is empty,
stored whole in an object that is large enough. -/
def CopiesInside (block : Block) (priv : HyScanCachedPrivate) (c : SetCall β) : Prop :=
  ∃ status priv', callSet block priv c = .ok (status, priv') ∧
    (status = true → c.payload.length ≤ priv.cacheSize.toNat / 10 ∧
      (c.payload.length ≠ 0 → ∃ o ∈ storedObjects priv', o.hash = c.key ∧ o.size.toNat = c.payload.length ∧
        c.payload.length ≤ o.allocated.toNat))

theorem copiesInside_of_lt {s : Store} (hA : Abs priv s) (hb : callSet block priv c ≠ .error .allocator)
    (hlt : c.payload.length < 2 ^ 32) : CopiesInside block priv c := by
  have hsize : c.size = c.payload.length := Nat.mod_eq_of_lt hlt
  rcases set_spec block hA c with ⟨status, priv', s', he, hs, hA'⟩ | ⟨-, hbig, -⟩ | ⟨he, -⟩
  · refine ⟨status, priv', he, ?_⟩
    rw [hA.cacheSize_eq]
    cases hs with
    | reject h => exact fun h => absurd h (by decide)
    | delete h => exact fun _ => ⟨by omega, fun h0 => absurd (hsize ▸ h) h0⟩
    | @put _ p hp h =>
      intro _
      refine ⟨by rw [← hp]; exact h, ?_⟩
      intro _
      have hmem : Entry.next ((s.makeRoom p).find c.key) c.key c.detail p ∈ (s.set c.key c.detail p).entries := by
        rw [Store.entries_set, Recency.promote]
        exact List.mem_cons_self
      obtain ⟨o, ho, hh⟩ := hA'.exists_object hmem
      have hbytes : o.size.toNat = c.payload.length := by rw [hh.size, Entry.bytes_next, hp]
      refine ⟨o, ho, hh.hash.trans (Store.key_next ..), hbytes, ?_⟩
      rw [← hbytes, hh.size, hh.allocated]
      exact Entry.fits _
  · omega
  · exact absurd he hb

/-- **The copies of the cache stay inside**, and what exceeds the limit is rejected, exactly when the sum of the
sizes does not wrap around or is too large all the same. -/
theorem copiesInside_iff {s : Store} (hA : Abs priv s) (hb : callSet block priv c ≠ .error .allocator) :
    CopiesInside block priv c ↔ c.payload.length < 2 ^ 32 ∨ priv.cacheSize.toNat / 10 < c.size := by
  constructor
  · intro h
    by_contra hn
    rw [not_or, not_lt, not_lt, hA.cacheSize_eq] at hn
    obtain ⟨status, priv', he, hin⟩ := h
    rcases set_spec block hA c with ⟨status', priv₁, s', he', hs, hA'⟩ | ⟨he', -⟩ | ⟨he', -⟩
    · obtain ⟨rfl, rfl⟩ : status = status' ∧ priv' = priv₁ := by simpa using he.symm.trans he'
      cases hs with
      | reject h => omega
      | delete h =>
        -- no object has a size of 2³² or more
        obtain ⟨o, -, -, hsize, -⟩ := (hin rfl).2 (by omega)
        have := o.size.toNat_lt
        omega
      | @put _ p hp h =>
        have := p.lt
        rw [hp] at this
        omega
    · rw [he'] at he
      cases he
    · exact hb he'
  · rintro (hlt | hrej)
    · exact copiesInside_of_lt hA hb hlt
    · exact ⟨false, priv, set_reject hrej, fun h => absurd h (by decide)⟩

namespace Remote

section Client

variable [URpc]

/-! ### The client -/

section Programs

variable {α γ : Type}

/-- The program, alone on the transport, may write outside the memory of a parameter; any operation may be done
or refused, and a procedure may reply anything. -/
inductive Overruns : ClientProg α → Transport → Prop
  | here {o : ClientOp} {k : o.Ans → ClientProg α} {t : Transport} (h : t.perform o = .error .overrun) :
      Overruns (.op o k) t
  | perform {o : ClientOp} {k : o.Ans → ClientProg α} {t t' : Transport} {a : o.Ans}
      (h : t.perform o = .ok (a, t')) (hk : Overruns (k a) t') : Overruns (.op o k) t
  | refuse {o : ClientOp} {k : o.Ans → ClientProg α} {t : Transport} {a : o.Ans} (h : o.refusal = some a)
      (hk : Overruns (k a) t) : Overruns (.op o k) t
  | reply {proc : Proc} {k : Bool → ClientProg α} {t : Transport} (reply : URpcData)
      (hk : Overruns (k true) { t with reply := reply }) : Overruns (.op (.exec proc) k) t

/-- The program writes to the data parameter only, inside the memory it has reserved last, `n` bytes to begin
with. -/
def Fits (n : ℕ) : ClientProg α → Prop
  | .ret _ => True
  | .op (.setUint64 p _) k => p ≠ .data ∧ ∀ a, Fits n (k a)
  | .op (.reserve p size) k => p = .data ∧ Fits size.toNat (k true) ∧ Fits n (k false)
  | .op (.write p offset src) k => p = .data ∧ offset.toNat + src.length ≤ n ∧ Fits n (k ())
  | .op _ k => ∀ a, Fits n (k a)

omit [URpc] in
theorem Fits.bind {n : ℕ} {p : ClientProg α} (h : Fits n p) {f : α → ClientProg γ} (hf : ∀ m r, Fits m (f r)) :
    Fits n (p >>= f) := by
  induction p generalizing n with
  | ret r => exact hf n r
  | op o k ih =>
    cases o with
    | setUint64 p v => exact ⟨h.1, fun a => ih a (h.2 a)⟩
    | reserve p size => exact ⟨h.1, ih true h.2.1, ih false h.2.2⟩
    | write p offset src => exact ⟨h.1, h.2.1, ih () h.2.2⟩
    | lock => exact fun a => ih a (h a)
    | unlock => exact fun a => ih a (h a)
    | exec proc => exact fun a => ih a (h a)
    | getUint32 p => exact fun a => ih a (h a)
    | getData p => exact fun a => ih a (h a)

theorem Fits.perform {n : ℕ} {o : ClientOp} {k : o.Ans → ClientProg α} {t t' : Transport} {a : o.Ans}
    (h : Fits n (.op o k)) (ht : ∀ region, t.request.getData .data = some region → n ≤ region.length)
    (he : t.perform o = .ok (a, t')) :
    ∃ m, Fits m (k a) ∧ ∀ region, t'.request.getData .data = some region → m ≤ region.length := by
  cases o with
  | setUint64 p v =>
    cases he
    refine ⟨n, h.2 true, fun region hr => ht region ?_⟩
    rwa [URpcData.getData_set_of_ne h.1.symm] at hr
  | reserve p size =>
    cases he
    obtain ⟨rfl, h1, -⟩ := h
    refine ⟨size.toNat, h1, ?_⟩
    intro region hr
    rw [URpcData.getData_set_self] at hr
    obtain rfl := Option.some.inj hr
    rw [URpc.length_reserve]
  | write p offset src =>
    obtain ⟨rfl, hle, h1⟩ := h
    cases hd : t.request.getData .data with
    | none => simp [Transport.perform, hd] at he
    | some region =>
      have hlen := ht region hd
      rw [Transport.perform_write hd (by omega)] at he
      cases he
      refine ⟨n, h1, ?_⟩
      intro region' hr
      rw [URpcData.getData_set_self] at hr
      obtain rfl := Option.some.inj hr
      simp only [List.length_append, List.length_take, List.length_drop]
      omega
  | lock => cases he; exact ⟨n, h true, ht⟩
  | unlock => cases he; exact ⟨n, h (), ht⟩
  | exec proc => cases he; exact ⟨n, h true, ht⟩
  | getUint32 p => cases he; exact ⟨n, h _, ht⟩
  | getData p => cases he; exact ⟨n, h _, ht⟩

omit [URpc] in
theorem Fits.refuse {n : ℕ} {o : ClientOp} {k : o.Ans → ClientProg α} {a : o.Ans} (h : Fits n (.op o k))
    (he : o.refusal = some a) : Fits n (k a) := by
  cases o with
  | setUint64 p v => exact h.2 a
  | reserve p size =>
    cases he
    exact h.2.2
  | write => cases he
  | lock => exact h a
  | unlock => exact h a
  | exec proc => exact h a
  | getUint32 p => exact h a
  | getData p => exact h a

theorem Fits.not_overruns {n : ℕ} {p : ClientProg α} {t : Transport} (h : Fits n p)
    (ht : ∀ region, t.request.getData .data = some region → n ≤ region.length) : ¬ Overruns p t := by
  intro ho
  induction ho generalizing n with
  | @here o k t he =>
    cases o with
    | write p offset src =>
      obtain ⟨rfl, hle, -⟩ := h
      cases hd : t.request.getData .data with
      | none => simp [Transport.perform, hd] at he
      | some region =>
        have := ht region hd
        rw [Transport.perform_write hd (by omega)] at he
        cases he
    | _ => cases he
  | perform he hk ih =>
    obtain ⟨m, h', ht'⟩ := h.perform ht he
    exact ih h' ht'
  | refuse he hk ih => exact ih (h.refuse he) ht
  | reply reply hk ih => exact ih (h true) ht

theorem Overruns.bind {p : ClientProg α} {t : Transport} (h : Overruns p t) (f : α → ClientProg γ) :
    Overruns (p >>= f) t := by
  induction h with
  | here he => exact .here he
  | perform he _ ih => exact .perform he ih
  | refuse he _ ih => exact .refuse he ih
  | reply reply _ ih => exact .reply reply ih

theorem overruns_copyParts {data1 data2 region : Bytes} {t : Transport}
    (ht : t.request.getData .data = some region) (h1 : data1.length < 2 ^ 32)
    (hlt : region.length < data1.length) : Overruns (copyParts data1 data2) t := by
  have c1 : guint32Size data1 > 0 := (guint32Size_pos h1).2 (List.ne_nil_of_length_pos (Nat.zero_lt_of_lt hlt))
  unfold copyParts
  rw [if_pos c1]
  exact .here (Transport.perform_write_overrun ht (by simp; omega))

omit [URpc] in
theorem Fits.copyParts {n : ℕ} {f : Unit → ClientProg α} {data1 data2 : Bytes} (h : Fits n (f ()))
    (h1 : data1.length < 2 ^ 32) (hle : data1.length + data2.length ≤ n) :
    Fits n (copyParts data1 data2 >>= f) := by
  have hw : Fits n (Prog.op (ClientOp.write .data (guint32Size data1) data2) f) :=
    ⟨rfl, by rw [toNat_guint32Size h1]; exact hle, h⟩
  have h0 : (0 : UInt32).toNat + data1.length ≤ n := by simp; omega
  unfold Remote.copyParts
  by_cases c1 : guint32Size data1 > 0 <;> by_cases c2 : guint32Size data2 > 0
  · simpa [c1, c2] using ⟨rfl, h0, hw⟩
  · simpa [c1, c2] using ⟨rfl, h0, h⟩
  · simpa [c1, c2] using hw
  · simpa [c1, c2] using h

end Programs

omit [URpc] in
theorem fits_clientSetLocked (hlt : c.payload.length < 2 ^ 32) : Fits 0 (clientSetLocked c) := by
  have hlen : (givenBytes c.buffer1).length + (givenBytes c.buffer2).length = c.payload.length :=
    List.length_append.symm
  have hsum : (guint32Size (givenBytes c.buffer1) + guint32Size (givenBytes c.buffer2)).toNat = c.payload.length :=
    (toNat_callSize c).trans (Nat.mod_eq_of_lt hlt)
  refine ⟨nofun, ?_⟩
  intro a
  cases a with
  | false => trivial
  | true =>
    refine ⟨nofun, ?_⟩
    intro a
    cases a with
    | false => trivial
    | true =>
      refine ⟨rfl, Fits.copyParts ?_ (length_givenBytes_lt _) (by omega), trivial⟩
      intro a
      cases a with
      | false => trivial
      | true =>
        intro a
        cases a <;> trivial

theorem callSize_gt_maxPayload : callSize c > maxPayload ↔ maxPayload.toNat < c.size := by
  rw [gt_iff_lt, UInt32.lt_iff_toNat_lt, toNat_callSize]

/-- A payload whose true size is too large, and whose size in 32 bits is not, is copied outside. -/
theorem overruns_clientSet (hbig : 2 ^ 32 ≤ c.payload.length) (hle : ¬ maxPayload.toNat < c.size) (t : Transport) :
    Overruns (clientSet true c) t := by
  have hlen : c.payload.length = (givenBytes c.buffer1).length + (givenBytes c.buffer2).length :=
    List.length_append
  have h1 := length_givenBytes_lt c.buffer1
  have h2 := length_givenBytes_lt c.buffer2
  have hsize : (callSize c).toNat = c.payload.length % 2 ^ 32 := toNat_callSize c
  rw [clientSet_eq]
  refine (if_neg (mt callSize_gt_maxPayload.1 hle)).symm ▸ ?_
  -- the lock, the key, the detail and the memory
  refine .perform (a := true) rfl (.perform (a := true) rfl ?_)
  refine .perform (a := true) rfl (.perform (a := true) rfl ?_)
  refine Overruns.bind (Overruns.bind (overruns_copyParts (URpcData.getData_set_self _) h1 ?_) _) _
  rw [URpc.length_reserve]
  exact hsize.trans_lt (by omega)

/-- The client makes no copy outside, whatever is refused, and rejects what exceeds its limit. -/
def ClientCopiesInside (c : SetCall β) : Prop :=
  (∀ t, ¬ Overruns (clientSet true c) t) ∧ (maxPayload.toNat < c.payload.length → clientSet true c = .ret false)

theorem clientSet_reject (h : maxPayload.toNat < c.size) : clientSet true c = .ret false := by
  rw [clientSet_eq]
  exact if_pos (callSize_gt_maxPayload.2 h)

/-- **The copies of the client stay inside**, and what exceeds the limit is rejected, exactly when the sum of the
sizes does not wrap around or is too large all the same. -/
theorem clientCopiesInside_iff :
    ClientCopiesInside c ↔ c.payload.length < 2 ^ 32 ∨ maxPayload.toNat < c.size := by
  constructor
  · intro h
    by_contra hn
    rw [not_or, not_lt] at hn
    exact h.1 ⟨fun _ => none, fun _ => none⟩ (overruns_clientSet hn.1 hn.2 _)
  intro h
  by_cases hrej : maxPayload.toNat < c.size
  · rw [ClientCopiesInside, clientSet_reject hrej]
    exact ⟨fun t ho => (by cases ho), fun _ => rfl⟩
  · have hlt := h.resolve_right hrej
    constructor
    · intro t
      rw [clientSet_eq]
      refine (if_neg (mt callSize_gt_maxPayload.1 hrej)).symm ▸ ?_
      refine Fits.not_overruns (n := 0) ?_ fun _ _ => Nat.zero_le _
      intro a
      cases a with
      | false => exact fun _ => trivial
      | true => exact (fits_clientSetLocked hlt).bind fun _ _ _ => trivial
    · intro hgt
      rw [SetCall.size, Nat.mod_eq_of_lt hlt] at hrej
      exact absurd hgt hrej

/-! ### Both sides -/

/-- **When the copies stay inside**, from every reachable cache and for every two buffers. -/
theorem copies_inside (hr : (cached β).Reachable priv) (hb : callSet block priv c ≠ .error .allocator) :
    (CopiesInside block priv c ↔ c.payload.length < 2 ^ 32 ∨ priv.cacheSize.toNat / 10 < c.size) ∧
    (ClientCopiesInside c ↔ c.payload.length < 2 ^ 32 ∨ maxPayload.toNat < c.size) := by
  obtain ⟨s, hA⟩ := Reachable.abs hr
  exact ⟨copiesInside_iff hA hb, clientCopiesInside_iff⟩

end Client

section Sample

local instance copiesURpc : URpc := plainURpc

/-- A payload of three bytes. -/
theorem copies_inside_sample : CopiesInside ⟨0, fun _ => 0⟩ (new 64) (sampleSet 7) ∧
    ClientCopiesInside (sampleSet 7) := by
  have hb : callSet ⟨0, fun _ => 0⟩ (new 64) (sampleSet 7) ≠ .error .allocator := nofun
  have h := copies_inside reachable_new hb
  have hlt : (sampleSet 7).payload.length < 2 ^ 32 := by decide
  exact ⟨h.1.2 (.inl hlt), h.2.2 (.inl hlt)⟩

/-- Parts of 2³² − 1 bytes and of `n` bytes. -/
def wideSet (n : ℕ) (hn : n < 2 ^ 32) : SetCall PlainBuffer where
  key := 0
  detail := 0
  buffer1 := some (.own (List.replicate (2 ^ 32 - 1) 0) (by rw [List.length_replicate]; decide))
  buffer2 := some (.own (List.replicate n 0) (by rwa [List.length_replicate]))

theorem length_wideSet (n : ℕ) (hn : n < 2 ^ 32) : (wideSet n hn).payload.length = 2 ^ 32 - 1 + n := by
  have hp : (wideSet n hn).payload = List.replicate (2 ^ 32 - 1) 0 ++ List.replicate n 0 := rfl
  rw [hp, List.length_append, List.length_replicate, List.length_replicate]

/-- **Copies go outside** for parts of 2³² − 1 bytes and two bytes, in a fresh cache of 64 MiB and in its client;
and with one byte instead of two, the cache takes the payload for an empty one. -/
theorem copies_overrun :
    (callSet ⟨0, fun _ => 0⟩ (new 64) (wideSet 2 (by decide)) = .error .overrun ∧
      ∀ t, Overruns (clientSet true (wideSet 2 (by decide))) t) ∧
    ((wideSet 1 (by decide)).payload.length = 2 ^ 32 ∧
      ∃ priv, callSet ⟨0, fun _ => 0⟩ (new 64) (wideSet 1 (by decide)) = .ok (true, priv)) := by
  obtain ⟨s, -, hlim, hA⟩ := abs_new (show MIN_CACHE_SIZE ≤ 64 by decide) (by decide)
  have h1 := length_wideSet 1 (by decide)
  have h2 := length_wideSet 2 (by decide)
  have hs1 : (wideSet 1 (by decide)).size = 0 := by rw [SetCall.size, h1]; rfl
  have hs2 : (wideSet 2 (by decide)).size = 1 := by rw [SetCall.size, h2]; rfl
  refine ⟨⟨?_, fun t => overruns_clientSet (by omega) (by rw [hs2]; decide) t⟩, by omega, ?_⟩
  · rcases set_spec ⟨0, fun _ => 0⟩ hA (wideSet 2 (by decide)) with
      ⟨status, priv', s', -, hs, -⟩ | ⟨he, -⟩ | ⟨-, hl⟩
    · cases hs with
      | reject h => rw [hlim, hs2] at h; exact absurd h (by decide)
      | delete h => omega
      | @put _ p hp h =>
        have := p.lt
        rw [hp] at this
        omega
    · exact he
    · exact absurd rfl hl
  · obtain ⟨l, hl, -⟩ := hA
    obtain ⟨priv', he, -⟩ := set_delete ⟨0, fun _ => 0⟩ hl hs1
    exact ⟨priv', he⟩

end Sample

end Remote

end HyScanCache
