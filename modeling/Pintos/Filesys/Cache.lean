import Pintos.Devices.Block
import Pintos.Lib.WriteBack
import Pintos.Lib.Trace

/-!
The buffer cache of `filesys/inode.c`: `get_cached_sector`, the four copy functions
`cache_{read,write}[_with_size_and_offset]` and `write_all_dirty_sectors`.

The model is the sequential one: each call runs with no other thread inside the cache, so
the re-check after `lock_acquire (&cs->sector_lock)` always succeeds and no eviction
waits on a busy sector. The pointer `get_cached_sector` returns is the entry's position
in `buffer_cache`.

`WriteBack.view` of the cache over the device is what the rest of the file system reads.

* `cacheReadWithSizeAndOffset_eq_ok`: a read returns the bytes of the view and keeps it;
* `cacheWriteWithSizeAndOffset_eq_ok`: a write updates the view at its sector, over the
  sector's bytes on a hit but over zeros on a miss;
* `writeAllDirtySectors_eq_ok`: a flush leaves the view on the device;
* `cache_refines_overlay`: with whole-sector writes, every run of calls behaves as the
  overlay of the written bytes, and keeps the cache's invariant `Store.Valid`.

A partial write on a miss starts from a zero-filled slot instead of the sector's contents,
and the bytes it does not write are lost.
-/

namespace Pintos.Filesys

open WriteBack

/-- `struct cached_sector`: `sector_idx` is the line's key, `data` its value and `dirty`
its dirty bit; `elem` and `sector_lock` are its place in `buffer_cache`. -/
abbrev CachedSector := Line Nat Sector

/-- What the cache functions act on: `fs_device` and `buffer_cache`, front first. -/
structure Store where
  device : Block
  bufferCache : List CachedSector

/-- The bound of `list_size (&buffer_cache) < 64`. -/
def cacheCapacity : Nat := 64

/-- The sectors as the file system sees them through the cache. -/
def Store.view (st : Store) : Nat → Sector := WriteBack.view st.bufferCache st.device.sectors

/-- An entry's trip to the device: `block_write` when it is dirty. -/
def writeBackEntry (device : Block) (cs : CachedSector) : Except Fault Block :=
  if cs.dirty then blockWrite device cs.key cs.val else pure device

/-- The slot a miss fills: a new entry while the cache holds fewer than 64, else the back
entry, unlinked and written back first. -/
def freeSlot (st : Store) : Except Fault (List CachedSector × Block) :=
  if st.bufferCache.length < cacheCapacity then pure (st.bufferCache, st.device)
  else match st.bufferCache.getLast? with
    | none => throw (.assert .listNonEmpty)
    | some victim => do
      let device ← writeBackEntry st.device victim
      pure (st.bufferCache.dropLast, device)

/-- What a miss puts in the slot: zeros (`memset`) when `is_write`, else `block_read`. -/
def fillSlot (device : Block) (sectorIdx : Nat) (isWrite : Bool) : Except Fault Sector :=
  if isWrite then pure Sector.zero else blockRead device sectorIdx

/-- `get_cached_sector (sector_idx, is_write)`. On a miss the slot is zero-filled when
`is_write` is set and read from the device otherwise, then pushed to the front. -/
def getCachedSector (st : Store) (sectorIdx : Nat) (isWrite : Bool) :
    Except Fault (Store × Nat × CachedSector) :=
  match locate st.bufferCache sectorIdx with
  | some (pos, cs) => pure (st, pos, cs)
  | none => do
    let (rest, device) ← freeSlot st
    let data ← fillSlot device sectorIdx isWrite
    let cs : CachedSector := ⟨sectorIdx, data, false⟩
    pure (⟨device, cs :: rest⟩, 0, cs)

/-- The copy loop of `cache_write_with_size_and_offset` and `cs->dirty = 1`. -/
def writeEntry (buffer : Nat → UInt8) (size sectorOfs : Nat) (cs : CachedSector) : CachedSector :=
  { cs with val := cs.val.write sectorOfs size buffer, dirty := true }

/-- `cache_write_with_size_and_offset (sector_idx, buffer, size, sector_ofs)`. -/
def cacheWriteWithSizeAndOffset (st : Store) (sectorIdx : Nat) (buffer : Nat → UInt8)
    (size sectorOfs : Nat) : Except Fault Store :=
  if sectorOfs + size ≤ BLOCK_SECTOR_SIZE then do
    let (st, pos, _) ← getCachedSector st sectorIdx true
    pure { st with bufferCache := st.bufferCache.modify pos (writeEntry buffer size sectorOfs) }
  else throw (.assert .sectorBounds)

/-- `cache_write (sector_idx, buffer)` with a sector-sized buffer. -/
def cacheWrite (st : Store) (sectorIdx : Nat) (buffer : Sector) : Except Fault Store :=
  cacheWriteWithSizeAndOffset st sectorIdx buffer.read BLOCK_SECTOR_SIZE 0

/-- `cache_read_with_size_and_offset (sector_idx, buffer, size, sector_ofs)`: the caller's
buffer after the copy. -/
def cacheReadWithSizeAndOffset (st : Store) (sectorIdx : Nat) (buffer : Nat → UInt8)
    (size sectorOfs : Nat) : Except Fault (Store × (Nat → UInt8)) :=
  if sectorOfs + size ≤ BLOCK_SECTOR_SIZE then do
    let (st, _, cs) ← getCachedSector st sectorIdx false
    pure (st, fun i => if i < size then cs.val.read (i + sectorOfs) else buffer i)
  else throw (.assert .sectorBounds)

/-- `cache_read (sector_idx, buffer)` into a sector-sized structure. -/
def cacheRead (st : Store) (sectorIdx : Nat) : Except Fault (Store × Sector) := do
  let (st, buf) ← cacheReadWithSizeAndOffset st sectorIdx (fun _ => 0) BLOCK_SECTOR_SIZE 0
  pure (st, fun k => buf k.val)

/-- The loop of `write_all_dirty_sectors` from `list_front` to the end. -/
def writeBackAll : List CachedSector → Block → Except Fault (List CachedSector × Block)
  | [], device => pure ([], device)
  | cs :: rest, device => do
    let device ← writeBackEntry device cs
    let (rest, device) ← writeBackAll rest device
    -- `cs->dirty = 0` for a dirty entry; a clean one already has it
    pure ({ cs with dirty := false } :: rest, device)

/-- `write_all_dirty_sectors`; `list_front` asserts that the cache is not empty. -/
def writeAllDirtySectors (st : Store) : Except Fault Store :=
  if st.bufferCache = [] then throw (.assert .listNonEmpty)
  else do
    let (cache, device) ← writeBackAll st.bufferCache st.device
    pure ⟨device, cache⟩

/-- The cache invariant: at most 64 entries, distinct `sector_idx`, and every clean entry
equal to its sector on the device. -/
def Store.Valid (st : Store) : Prop := WriteBack.Valid cacheCapacity st.bufferCache st.device.sectors

/-! ## What each call does -/

theorem writeBackEntry_eq_ok {device device' : Block} {cs : CachedSector}
    (h : writeBackEntry device cs = .ok device') :
    device'.size = device.size ∧ device'.sectors = flush device.sectors cs := by
  unfold writeBackEntry at h
  unfold flush
  split at h
  · obtain ⟨-, rfl⟩ := blockWrite_eq_ok h
    simp [*]
  · cases h
    simp [*]

theorem freeSlot_eq_ok {st : Store} {rest : List CachedSector} {d : Block}
    (h : freeSlot st = .ok (rest, d)) :
    (st.bufferCache.length < cacheCapacity ∧ rest = st.bufferCache ∧ d = st.device) ∨
      (cacheCapacity ≤ st.bufferCache.length ∧ ∃ hne : st.bufferCache ≠ [],
        rest = st.bufferCache.dropLast ∧ d.size = st.device.size ∧
        d.sectors = flush st.device.sectors (st.bufferCache.getLast hne)) := by
  unfold freeSlot at h
  split at h
  · simp only [Trace.pure_eq_ok, Prod.mk.injEq] at h
    exact .inl ⟨‹_›, h.1.symm, h.2.symm⟩
  · refine .inr ⟨by omega, ?_⟩
    split at h
    · cases h
    · next victim hlast =>
      have hne : st.bufferCache ≠ [] := fun he => by simp [he] at hlast
      have hv : victim = st.bufferCache.getLast hne := by
        rw [List.getLast?_eq_some_getLast hne] at hlast
        exact (Option.some.inj hlast).symm
      subst hv
      obtain ⟨d', hd', h⟩ := Trace.bind_eq_ok h
      simp only [Trace.pure_eq_ok, Prod.mk.injEq] at h
      obtain ⟨rfl, rfl⟩ := h
      exact ⟨hne, rfl, writeBackEntry_eq_ok hd'⟩

/-- A miss keeps what the rest of the cache shows, and its invariant, in the lines it
leaves. -/
theorem freeSlot_valid {st : Store} {rest : List CachedSector} {d : Block} (hv : st.Valid)
    (h : freeSlot st = .ok (rest, d)) :
    rest.length < cacheCapacity ∧ (keys rest).Nodup ∧ Clean rest d.sectors ∧
      WriteBack.view rest d.sectors = st.view ∧ d.size = st.device.size ∧
      ∀ k ∉ keys st.bufferCache, k ∉ keys rest ∧ d.sectors k = st.device.sectors k := by
  rcases freeSlot_eq_ok h with ⟨hlen, rfl, rfl⟩ | ⟨hfull, hne, rfl, hsize, hsec⟩
  · exact ⟨hlen, hv.nodup, hv.clean, rfl, rfl, fun k hk => ⟨hk, rfl⟩⟩
  · obtain ⟨hlt, hnd, hc, hk⟩ := valid_dropLast_flush hv hne
    have hlen := hv.length_le
    refine ⟨by omega, hnd, hsec ▸ hc, hsec ▸ view_dropLast_flush _ hv.clean hne, hsize, ?_⟩
    intro k hk'
    refine ⟨hk k hk', ?_⟩
    rw [hsec]
    apply flush_of_ne
    intro he
    exact hk' (he ▸ List.mem_map_of_mem (List.getLast_mem hne))

theorem getCachedSector_eq_ok {st st' : Store} {k pos : Nat} {w : Bool} {cs : CachedSector}
    (h : getCachedSector st k w = .ok (st', pos, cs)) :
    (locate st.bufferCache k = some (pos, cs) ∧ st' = st) ∨
      (locate st.bufferCache k = none ∧ pos = 0 ∧ cs.key = k ∧ cs.dirty = false ∧
        cs.val = (if w then Sector.zero else st'.device.sectors k) ∧
        ∃ rest, freeSlot st = .ok (rest, st'.device) ∧ st'.bufferCache = cs :: rest) := by
  unfold getCachedSector at h
  split at h
  · next pos' cs' hl =>
    simp only [Trace.pure_eq_ok, Prod.mk.injEq] at h
    obtain ⟨rfl, rfl, rfl⟩ := h
    exact .inl ⟨hl, rfl⟩
  · next hl =>
    obtain ⟨⟨rest, d⟩, hfree, h⟩ := Trace.bind_eq_ok h
    obtain ⟨data, hdata, h⟩ := Trace.bind_eq_ok h
    simp only [Trace.pure_eq_ok, Prod.mk.injEq] at h
    obtain ⟨rfl, rfl, rfl⟩ := h
    refine .inr ⟨hl, rfl, rfl, rfl, ?_, rest, hfree, rfl⟩
    unfold fillSlot at hdata
    cases w
    · exact (blockRead_eq_ok hdata).2
    · exact (Trace.pure_eq_ok.mp hdata).symm

/-- A read miss puts the device's sector, unchanged, in front of the lines `freeSlot` left. -/
theorem valid_of_miss {st : Store} {rest : List CachedSector} {d : Block} {cs : CachedSector}
    (hv : st.Valid) (hfree : freeSlot st = .ok (rest, d))
    (hk : cs.key ∉ keys st.bufferCache) (hcs : cs.dirty = false → cs.val = d.sectors cs.key) :
    Store.Valid ⟨d, cs :: rest⟩ := by
  obtain ⟨hlen, hnd, hc, -, -, hrest⟩ := freeSlot_valid hv hfree
  exact valid_cons hlen hnd hc (hrest _ hk).1 hcs

theorem cacheReadWithSizeAndOffset_eq_ok {st st' : Store} {k size ofs : Nat}
    {buf buf' : Nat → UInt8} (hv : st.Valid)
    (h : cacheReadWithSizeAndOffset st k buf size ofs = .ok (st', buf')) :
    st'.Valid ∧ st'.view = st.view ∧ st'.device.size = st.device.size ∧
      buf' = fun i => if i < size then (st.view k).read (i + ofs) else buf i := by
  unfold cacheReadWithSizeAndOffset at h
  split at h
  · obtain ⟨⟨st1, pos, cs⟩, hget, h⟩ := Trace.bind_eq_ok h
    simp only [Trace.pure_eq_ok, Prod.mk.injEq] at h
    obtain ⟨rfl, rfl⟩ := h
    rcases getCachedSector_eq_ok hget with ⟨hl, rfl⟩ | ⟨hl, -, hkey, hd, hval, rest, hfree, hcache⟩
    · exact ⟨hv, rfl, rfl, by rw [Store.view, view_of_locate _ hl]⟩
    · simp only [Bool.false_eq_true, if_false] at hval
      have hk := locate_eq_none_iff.mp hl
      obtain ⟨-, -, -, hview, hsize, hrest⟩ := freeSlot_valid hv hfree
      have hst : st1 = ⟨st1.device, cs :: rest⟩ := by rw [← hcache]
      have hcs : cs = ⟨k, st1.device.sectors k, false⟩ := by
        obtain ⟨key, val, dirty⟩ := cs
        simp only at hkey hd hval
        rw [hkey, hd, hval]
      refine ⟨hst ▸ valid_of_miss hv hfree (hkey ▸ hk) (fun _ => hkey ▸ hval), ?_, hsize, ?_⟩
      · rw [Store.view, hcache, hcs, view_cons_of_not_mem _ _ (hrest k hk).1, hview]
      · rw [hval, (hrest k hk).2, Store.view, view_of_not_mem _ hk]
  · cases h

/-- A write changes the view at its sector only. What it writes into is the cached
sector on a hit but a zero-filled slot on a miss. -/
theorem cacheWriteWithSizeAndOffset_eq_ok {st st' : Store} {k size ofs : Nat}
    {buf : Nat → UInt8} (hv : st.Valid)
    (h : cacheWriteWithSizeAndOffset st k buf size ofs = .ok st') :
    st'.Valid ∧ st'.device.size = st.device.size ∧ ofs + size ≤ BLOCK_SECTOR_SIZE ∧
      st'.view = Function.update st.view k
        ((if k ∈ keys st.bufferCache then st.view k else Sector.zero).write ofs size buf) := by
  unfold cacheWriteWithSizeAndOffset at h
  split at h
  · next hb =>
    obtain ⟨⟨st1, pos, cs⟩, hget, h⟩ := Trace.bind_eq_ok h
    simp only [Trace.pure_eq_ok] at h
    subst h
    rcases getCachedSector_eq_ok hget with ⟨hl, rfl⟩ | ⟨hl, rfl, hkey, -, hval, rest, hfree, hcache⟩
    · -- a hit: the entry is changed in place
      refine ⟨⟨?_, ?_, clean_modify_dirty hv.clean pos fun v => v.write ofs size buf⟩, rfl, hb, ?_⟩
      · simpa using hv.length_le
      · show (keys (st1.bufferCache.modify pos (writeEntry buf size ofs))).Nodup
        rw [keys_modify _ _ (writeEntry buf size ofs) fun _ => rfl]
        exact hv.nodup
      · rw [if_pos (locate_mem_keys hl), Store.view, view_modify (writeEntry buf size ofs)
          (fun _ => rfl) hl, Store.view, view_of_locate _ hl]
        rfl
    · -- a miss: the zero-filled slot in front, then written
      simp only [if_true] at hval
      have hk := locate_eq_none_iff.mp hl
      obtain ⟨hlen, hnd, hc, hview, hsize, hrest⟩ := freeSlot_valid hv hfree
      rw [hcache, List.modify_zero_cons]
      refine ⟨valid_cons hlen hnd hc (hkey ▸ (hrest k hk).1) (by simp [writeEntry]), hsize, hb, ?_⟩
      rw [if_neg hk, Store.view, view_cons_eq_update, hview]
      simp [writeEntry, hkey, hval]
  · cases h

theorem writeBackAll_eq_ok {ls ls' : List CachedSector} {d d' : Block}
    (hc : Clean ls d.sectors) (hnd : (keys ls).Nodup) (h : writeBackAll ls d = .ok (ls', d')) :
    d'.size = d.size ∧ d'.sectors = WriteBack.view ls d.sectors ∧
      ls' = ls.map fun cs => { cs with dirty := false } := by
  induction ls generalizing d ls' d' with
  | nil =>
    simp only [writeBackAll, Trace.pure_eq_ok, Prod.mk.injEq] at h
    obtain ⟨rfl, rfl⟩ := h
    exact ⟨rfl, rfl, rfl⟩
  | cons l ls ih =>
    simp only [keys_cons, List.nodup_cons] at hnd
    obtain ⟨d1, h1, h⟩ := Trace.bind_eq_ok h
    obtain ⟨⟨ls2, d2⟩, h2, h⟩ := Trace.bind_eq_ok h
    simp only [Trace.pure_eq_ok, Prod.mk.injEq] at h
    obtain ⟨rfl, rfl⟩ := h
    obtain ⟨hsize1, hsec1⟩ := writeBackEntry_eq_ok h1
    have hc1 : Clean ls d1.sectors := by
      intro m hm hd
      have hne : m.key ≠ l.key := fun he => hnd.1 (he ▸ List.mem_map_of_mem hm)
      rw [hc m (List.mem_cons_of_mem l hm) hd, hsec1, flush_of_ne _ hne]
    obtain ⟨hsize2, hsec2, rfl⟩ := ih hc1 hnd.2 h2
    refine ⟨hsize2.trans hsize1, ?_, rfl⟩
    rw [hsec2, hsec1, view_flush_cons _ hnd.1 (hc l List.mem_cons_self)]

/-- After `write_all_dirty_sectors` the device holds what the cache showed, and every
entry is clean. -/
theorem writeAllDirtySectors_eq_ok {st st' : Store} (hv : st.Valid)
    (h : writeAllDirtySectors st = .ok st') :
    st'.Valid ∧ st'.view = st.view ∧ st'.device.size = st.device.size ∧
      st'.device.sectors = st.view := by
  unfold writeAllDirtySectors at h
  split at h
  · cases h
  · obtain ⟨⟨ls, d⟩, hw, h⟩ := Trace.bind_eq_ok h
    simp only [Trace.pure_eq_ok] at h
    subst h
    obtain ⟨hsize, hsec, rfl⟩ := writeBackAll_eq_ok hv.clean hv.nodup hw
    have hkeys : keys (st.bufferCache.map fun cs => { cs with dirty := false }) =
        keys st.bufferCache := by
      simp [keys, List.map_map, Function.comp_def]
    refine ⟨⟨by simpa using hv.length_le, hkeys ▸ hv.nodup, ?_⟩, ?_, hsize, hsec⟩
    · intro l hl _
      obtain ⟨m, hm, rfl⟩ := List.mem_map.mp hl
      rw [hsec]
      exact (view_of_mem _ hv.nodup hm).symm
    · rw [Store.view, hsec, view_map_clean, view_view]
      rfl

/-! ## Runs of cache calls against the overlay they implement -/

/-- The calls a client of the cache makes. -/
inductive CacheCall where
  | read (sector size ofs : Nat)
  | write (sector : Nat) (buffer : Nat → UInt8) (size ofs : Nat)
  | writeAllDirty

/-- One call; a read's output is the `size` bytes it copies out. -/
def cacheStep (st : Store) : CacheCall → Except Fault (Store × List UInt8)
  | .read k size ofs => do
    let (st, buf) ← cacheReadWithSizeAndOffset st k (fun _ => 0) size ofs
    pure (st, (List.range size).map buf)
  | .write k buf size ofs => do
    let st ← cacheWriteWithSizeAndOffset st k buf size ofs
    pure (st, [])
  | .writeAllDirty => do
    let st ← writeAllDirtySectors st
    pure (st, [])

/-- What the cache is for: each sector shows the last bytes written to it, over the
device's initial contents. -/
def overlayStep (ov : Nat → Sector) : CacheCall → (Nat → Sector) × List UInt8
  | .read k size ofs => (ov, (List.range size).map fun i => (ov k).read (i + ofs))
  | .write k buf size ofs => (Function.update ov k ((ov k).write ofs size buf), [])
  | .writeAllDirty => (ov, [])

/-- A write of a whole sector, as `cache_write` issues it. -/
def CacheCall.WholeSector : CacheCall → Prop
  | .write _ _ size ofs => ofs = 0 ∧ size = BLOCK_SECTOR_SIZE
  | _ => True

theorem cacheStep_valid {st st' : Store} {c : CacheCall} {out : List UInt8} (hv : st.Valid)
    (h : cacheStep st c = .ok (st', out)) : st'.Valid := by
  cases c with
  | read k size ofs =>
    obtain ⟨⟨st1, buf⟩, h1, h⟩ := Trace.bind_eq_ok h
    simp only [Trace.pure_eq_ok, Prod.mk.injEq] at h
    exact h.1 ▸ (cacheReadWithSizeAndOffset_eq_ok hv h1).1
  | write k buf size ofs =>
    obtain ⟨st1, h1, h⟩ := Trace.bind_eq_ok h
    simp only [Trace.pure_eq_ok, Prod.mk.injEq] at h
    exact h.1 ▸ (cacheWriteWithSizeAndOffset_eq_ok hv h1).1
  | writeAllDirty =>
    obtain ⟨st1, h1, h⟩ := Trace.bind_eq_ok h
    simp only [Trace.pure_eq_ok, Prod.mk.injEq] at h
    exact h.1 ▸ (writeAllDirtySectors_eq_ok hv h1).1

theorem cacheStep_refines {st st' : Store} {c : CacheCall} {out : List UInt8} (hv : st.Valid)
    (hc : c.WholeSector) (h : cacheStep st c = .ok (st', out)) :
    overlayStep st.view c = (st'.view, out) := by
  cases c with
  | read k size ofs =>
    obtain ⟨⟨st1, buf⟩, h1, h⟩ := Trace.bind_eq_ok h
    simp only [Trace.pure_eq_ok, Prod.mk.injEq] at h
    obtain ⟨rfl, rfl⟩ := h
    obtain ⟨-, hview, -, rfl⟩ := cacheReadWithSizeAndOffset_eq_ok hv h1
    simp only [overlayStep, hview, Prod.mk.injEq, true_and]
    exact List.map_congr_left fun i hi => by rw [if_pos (List.mem_range.mp hi)]
  | write k buf size ofs =>
    obtain ⟨st1, h1, h⟩ := Trace.bind_eq_ok h
    simp only [Trace.pure_eq_ok, Prod.mk.injEq] at h
    obtain ⟨rfl, rfl⟩ := h
    obtain ⟨rfl, rfl⟩ := hc
    obtain ⟨-, -, -, hview⟩ := cacheWriteWithSizeAndOffset_eq_ok hv h1
    rw [overlayStep, hview, Sector.write_whole (st.view k)]
  | writeAllDirty =>
    obtain ⟨st1, h1, h⟩ := Trace.bind_eq_ok h
    simp only [Trace.pure_eq_ok, Prod.mk.injEq] at h
    obtain ⟨rfl, rfl⟩ := h
    rw [overlayStep, (writeAllDirtySectors_eq_ok hv h1).2.1]

/-- The buffer cache refines the disk when every write covers its whole sector: from a
valid cache, every run of reads, whole-sector writes and `write_all_dirty_sectors` returns
what the overlay returns, keeps the cache valid, and a final `write_all_dirty_sectors`
leaves the overlay on the device. -/
theorem cache_refines_overlay (calls : List CacheCall) {st st' : Store} {outs : List (List UInt8)}
    (hv : st.Valid) (hw : ∀ c ∈ calls, c.WholeSector)
    (h : Trace.run cacheStep st calls = .ok (st', outs)) :
    Trace.runSpec overlayStep st.view calls = (st'.view, outs) ∧ st'.Valid ∧
      ∀ st'', writeAllDirtySectors st' = .ok st'' →
        st''.device.sectors = (Trace.runSpec overlayStep st.view calls).1 := by
  have hsim := Trace.run_simulation Store.view overlayStep Store.Valid CacheCall.WholeSector
    (fun _ _ _ _ hs _ hstep => cacheStep_valid hs hstep)
    (fun _ _ _ _ hs hc hstep => cacheStep_refines hs hc hstep) calls st st' outs hv hw h
  have hv' := Trace.run_invariant Store.Valid (fun _ _ _ _ hs hstep => cacheStep_valid hs hstep)
    calls st st' outs hv h
  refine ⟨hsim, hv', fun st'' hflush => ?_⟩
  rw [hsim]
  exact (writeAllDirtySectors_eq_ok hv' hflush).2.2.2

theorem cache_refines_overlay_whole_write :
    let st : Store := ⟨⟨1, fun _ _ => 0xff⟩, []⟩
    let calls : List CacheCall := [.write 0 (fun _ => 7) BLOCK_SECTOR_SIZE 0, .read 0 1 0]
    st.Valid ∧ (∀ c ∈ calls, c.WholeSector) ∧ ∃ st' outs,
      Trace.run cacheStep st calls = .ok (st', outs) ∧
        Trace.runSpec overlayStep st.view calls = (st'.view, outs) := by
  intro st calls
  have hv : st.Valid := valid_nil _ _
  have hw : ∀ c ∈ calls, c.WholeSector := by
    intro c hc
    rcases List.mem_cons.mp hc with rfl | hc
    · exact ⟨rfl, rfl⟩
    · rw [List.mem_singleton.mp hc]
      trivial
  have hout : (Trace.run cacheStep st calls).map Prod.snd = .ok [[], [7]] := by decide
  obtain ⟨⟨st', outs⟩, h, -⟩ := Trace.map_eq_ok hout
  exact ⟨hv, hw, st', outs, h, (cache_refines_overlay calls hv hw h).1⟩

/-- A one-sector device whose bytes are all `0xff`, behind an empty cache. -/
def onesStore : Store := ⟨⟨1, fun _ _ => 0xff⟩, []⟩

/-- Write byte 1 of sector 0, then read byte 0 back. -/
def partialWriteCalls : List CacheCall := [.write 0 (fun _ => 7) 1 1, .read 0 1 0]

/-- The write misses, so its slot is zero-filled, and byte 0 reads back as `0` where the
overlay, and the device, hold `0xff`. -/
theorem partial_write_miss_loses_bytes :
    (Trace.run cacheStep onesStore partialWriteCalls).map Prod.snd = .ok [[], [0]] ∧
      (Trace.runSpec overlayStep onesStore.view partialWriteCalls).2 = [[], [0xff]] :=
  ⟨rfl, rfl⟩

end Pintos.Filesys
