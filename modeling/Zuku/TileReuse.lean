import Zuku.ArrayTile
import Zuku.Library.ListLookup
import Zuku.Library.StepRuns

/-!
# Reused tiles

Tiles are created and freed on the processors of a program, and their caches are
cleared.  An instance is always held by one tile at most, in use or cached, and a
cached tile is handed out with the event it was freed after.  Its bounds are
those of the array it was created for.
-/

namespace Zuku

open Event StepRuns

inductive TileAction (ε : Type) where
  | create (shape : TileShape) (p : Processor) (first second : Allocation ε)
  | freeTile (i : ℕ) (free : Event ε) (p : Processor)
  | clearTiles (p : Processor)

/-- `live` are the tiles that were handed out and have not been freed. -/
structure TileUse (ε : Type) where
  memory : TileMemory ε := {}
  live : List ArrayTile := []

variable {ε : Type}

/-- What has happened to an instance, the latest event first. -/
def eventsOf (history : List (ℕ × InstanceEvent ε)) (instance_ : ℕ) : List (InstanceEvent ε) :=
  (history.filter fun e ↦ decide (e.1 = instance_)).map Prod.snd

/-- The event after which the owner before the current one freed an instance. -/
def TileMemory.previousFree (memory : TileMemory ε) (instance_ : ℕ) : Option (Event ε) :=
  match eventsOf memory.history instance_ with
  | .acquired :: .freed free :: _ => some free
  | _ => none

/-- A tile fits a request, with the memory as it is afterwards. -/
structure Fits (live : List ArrayTile) (shape : TileShape) (event : Event ε) (tile : ArrayTile)
    (memory : TileMemory ε) : Prop where
  shape_eq : tile.shape = shape
  notLive : ∀ other ∈ live, other.instance_ ≠ tile.instance_
  notCached : ∀ entry ∈ memory.cache, entry.tile.instance_ ≠ tile.instance_
  afterFree : ∀ free ∈ memory.previousFree tile.instance_, free ⊆ event

namespace TileUse

variable [TileCacheBuild] (use : TileUse ε)

def step : TileAction ε → TileUse ε
  | .create shape p first second =>
      match ArrayTile.create shape p first second use.memory with
      | (.ok (_, tile), memory) => ⟨memory, use.live ++ [tile]⟩
      | (.error _, memory) => ⟨memory, use.live⟩
  | .freeTile i free p =>
      match use.live[i]? with
      | some tile => ⟨use.memory.freeTile tile free p, use.live.eraseIdx i⟩
      | none => use
  | .clearTiles p => ⟨use.memory.clearTiles p, use.live⟩

def Fitting : TileAction ε → Prop
  | .create shape p first second => ∀ event tile memory,
      ArrayTile.create shape p first second use.memory = (.ok (event, tile), memory) →
        Fits use.live shape event tile memory
  | .freeTile _ _ _ | .clearTiles _ => True

omit [TileCacheBuild] in
/-- The first tile in the queue for a requested shape has its bounds. -/
def Matching : TileAction ε → Prop
  | .create shape p _ _ =>
      ∀ entry ∈ use.memory.cache.find? (CachedTile.queuedFor shape p),
        entry.tile.shape.bounds = shape.bounds
  | .freeTile _ _ _ | .clearTiles _ => True

/-! ## Who holds the instances -/

omit [TileCacheBuild] in
/-- The instances of the tiles in use and of those in the cache. -/
def held : List ℕ := (use.live ++ use.memory.cache.map CachedTile.tile).map ArrayTile.instance_

structure TileInv (use : TileUse ε) : Prop where
  nodup : use.held.Nodup
  existing : ∀ i ∈ use.held, i ∈ use.memory.existing
  freed : ∀ entry ∈ use.memory.cache,
    (eventsOf use.memory.history entry.tile.instance_).head? = some (.freed entry.free)
  gone : ∀ i ∉ use.memory.existing, ∀ free,
    (eventsOf use.memory.history i).head? ≠ some (.freed free)
  cache_nil : TileCacheBuild.useTileCache = false → use.memory.cache = []

section Instances

variable {memory : TileMemory ε} {i j : ℕ}

omit [TileCacheBuild] in
theorem eventsOf_cons (event : InstanceEvent ε) (history : List (ℕ × InstanceEvent ε)) :
    eventsOf ((i, event) :: history) j =
      if i = j then event :: eventsOf history j else eventsOf history j := by
  rw [eventsOf, List.filter_cons]
  by_cases hij : i = j
  · rw [if_pos hij, if_pos (decide_eq_true hij), List.map_cons]
    rfl
  · rw [if_neg hij, if_neg (by simpa using hij)]
    rfl

abbrev deleteAll (memory : TileMemory ε) (cleared : List (CachedTile ε)) : TileMemory ε :=
  cleared.foldl (fun memory entry ↦ memory.deferredDeleteInstances entry.tile entry.free) memory

omit [TileCacheBuild] in
theorem mem_existing_deleteAll {cleared : List (CachedTile ε)} :
    i ∈ (deleteAll memory cleared).existing ↔
      i ∈ memory.existing ∧ ∀ entry ∈ cleared, entry.tile.instance_ ≠ i := by
  induction cleared generalizing memory with
  | nil => simp
  | cons entry cleared ih =>
      rw [deleteAll, List.foldl_cons, ih, TileMemory.deferredDeleteInstances, Finset.mem_erase,
        List.forall_mem_cons, and_assoc, and_left_comm, ne_comm]

omit [TileCacheBuild] in
/-- The latest event of an instance that is deleted is its destruction. -/
theorem eventsOf_deleteAll (memory : TileMemory ε) (i : ℕ) (cleared : List (CachedTile ε)) :
    ((∀ entry ∈ cleared, entry.tile.instance_ ≠ i) ∧
      eventsOf (deleteAll memory cleared).history i = eventsOf memory.history i) ∨
    ((∃ entry ∈ cleared, entry.tile.instance_ = i) ∧
      ∃ ev, (eventsOf (deleteAll memory cleared).history i).head? = some (.destroyed ev)) := by
  induction cleared generalizing memory with
  | nil => exact Or.inl ⟨by simp, rfl⟩
  | cons entry cleared ih =>
      rw [deleteAll, List.foldl_cons]
      rcases ih (memory.deferredDeleteInstances entry.tile entry.free) with
        ⟨hother, hsame⟩ | ⟨⟨other, hother, rfl⟩, hevent⟩
      · rw [hsame, TileMemory.deferredDeleteInstances, eventsOf_cons]
        by_cases hi : entry.tile.instance_ = i
        · rw [if_pos hi]
          exact Or.inr ⟨⟨entry, List.mem_cons_self, hi⟩, entry.free, rfl⟩
        · exact Or.inl ⟨List.forall_mem_cons.mpr ⟨hi, hother⟩, if_neg hi⟩
      · exact Or.inr ⟨⟨other, List.mem_cons_of_mem _ hother, rfl⟩, hevent⟩

omit [TileCacheBuild] in
theorem eventsOf_cons_of_ne (event : InstanceEvent ε) (history : List (ℕ × InstanceEvent ε))
    (h : i ≠ j) : eventsOf ((i, event) :: history) j = eventsOf history j := by
  rw [eventsOf_cons, if_neg h]

omit [TileCacheBuild] in
theorem eventsOf_cons_self (event : InstanceEvent ε) (history : List (ℕ × InstanceEvent ε)) :
    eventsOf ((i, event) :: history) i = event :: eventsOf history i := by
  rw [eventsOf_cons, if_pos rfl]

end Instances

section Steps

variable {use : TileUse ε}

omit [TileCacheBuild] in
theorem instance_mem_held {entry : CachedTile ε} (h : entry ∈ use.memory.cache) :
    entry.tile.instance_ ∈ use.held :=
  List.mem_map_of_mem (List.mem_append_right _ (List.mem_map_of_mem h))

omit [TileCacheBuild] in
theorem live_mem_held {tile : ArrayTile} (h : tile ∈ use.live) : tile.instance_ ∈ use.held :=
  List.mem_map_of_mem (List.mem_append_left _ h)

omit [TileCacheBuild] in
/-- The tile that was handed out last has its instance alone. -/
theorem separate_of_nodup {memory : TileMemory ε} {live : List ArrayTile} {tile : ArrayTile}
    (h : (⟨memory, live ++ [tile]⟩ : TileUse ε).held.Nodup) :
    (∀ other ∈ live, other.instance_ ≠ tile.instance_) ∧
      ∀ entry ∈ memory.cache, entry.tile.instance_ ≠ tile.instance_ := by
  rw [held, List.map_append, List.map_append] at h
  obtain ⟨hlive, -, hcache⟩ := List.nodup_append.mp h
  obtain ⟨-, -, hlast⟩ := List.nodup_append.mp hlive
  refine ⟨fun other hother ↦ ?_, fun entry hentry ↦ ?_⟩
  · exact hlast _ (List.mem_map_of_mem hother) _ (by simp)
  · refine (hcache _ (List.mem_append_right _ (by simp)) _ ?_).symm
    exact List.mem_map_of_mem (List.mem_map_of_mem hentry)

theorem TileInv.clear (h : TileInv use) (p : Processor) :
    TileInv ⟨use.memory.clearTiles p, use.live⟩ := by
  cases huse : TileCacheBuild.useTileCache with
  | false =>
      rw [TileMemory.clearTiles, huse]
      exact h
  | true =>
      set cleared := use.memory.cache.filter fun entry ↦ decide (entry.processor = p.key)
        with hcleared
      have hclear : use.memory.clearTiles p =
          { deleteAll use.memory cleared with
            cache := use.memory.cache.filter fun entry ↦ !decide (entry.processor = p.key) } := by
        rw [TileMemory.clearTiles, huse]
        rfl
      set after : TileUse ε := ⟨use.memory.clearTiles p, use.live⟩ with hafter
      have hperm : (after.held ++ (cleared.map CachedTile.tile).map ArrayTile.instance_).Perm
          use.held := by
        rw [held, hafter, hclear, ← List.map_append, List.append_assoc, ← List.map_append]
        refine List.Perm.map _ (List.Perm.append_left _ (List.Perm.map _ ?_))
        exact List.perm_append_comm.trans (List.filter_append_perm _ _)
      obtain ⟨hnodup, -, hdisjoint⟩ := List.nodup_append.mp (hperm.nodup_iff.mpr h.nodup)
      have hother {i : ℕ} (hi : i ∈ after.held) : ∀ entry ∈ cleared, entry.tile.instance_ ≠ i :=
        fun entry hentry ↦
          (hdisjoint i hi _ (List.mem_map_of_mem (List.mem_map_of_mem hentry))).symm
      refine ⟨hnodup, ?_, ?_, ?_, fun hfalse ↦ absurd hfalse (by simp [huse])⟩
      · intro i hi
        rw [hafter, hclear]
        refine mem_existing_deleteAll.mpr ⟨h.existing i ?_, hother hi⟩
        exact hperm.subset (List.mem_append_left _ hi)
      · intro entry hentry
        have hheld := instance_mem_held hentry
        rw [hafter, hclear] at hentry ⊢
        rcases eventsOf_deleteAll use.memory entry.tile.instance_ cleared with
          ⟨-, hsame⟩ | ⟨⟨other, hcleared, heq⟩, -⟩
        · rw [hsame]
          exact h.freed entry (List.mem_filter.mp hentry).1
        · exact absurd heq (hother hheld other hcleared)
      · intro i hi free
        rw [hafter, hclear] at hi ⊢
        rcases eventsOf_deleteAll use.memory i cleared with
          ⟨hnot, hsame⟩ | ⟨-, ev, hevent⟩
        · rw [hsame]
          exact h.gone i (fun hmem ↦ hi (mem_existing_deleteAll.mpr ⟨hmem, hnot⟩)) free
        · rw [hevent]
          simp

theorem TileInv.acquire (h : TileInv use) (tile : ArrayTile)
    (hnew : tile.instance_ ∉ use.memory.existing) :
    TileInv ⟨use.memory.acquire tile.instance_, use.live ++ [tile]⟩ := by
  set after : TileUse ε := ⟨use.memory.acquire tile.instance_, use.live ++ [tile]⟩ with hafter
  have hperm : after.held.Perm (tile.instance_ :: use.held) := by
    rw [held, hafter, List.append_assoc]
    exact List.Perm.map _ List.perm_middle
  have hne {i : ℕ} (hi : i ∈ use.held) : tile.instance_ ≠ i := by
    rintro rfl
    exact hnew (h.existing _ hi)
  refine ⟨?_, ?_, ?_, ?_, h.cache_nil⟩
  · rw [hperm.nodup_iff, List.nodup_cons]
    exact ⟨fun hmem ↦ hne hmem rfl, h.nodup⟩
  · intro i hi
    rcases List.mem_cons.mp (hperm.subset hi) with rfl | hi
    · exact Finset.mem_insert_self _ _
    · exact Finset.mem_insert_of_mem (h.existing i hi)
  · intro entry hentry
    rw [hafter, TileMemory.acquire, eventsOf_cons_of_ne _ _ (hne (instance_mem_held hentry))]
    exact h.freed entry hentry
  · intro i hi free
    obtain ⟨hi, hmem⟩ := not_or.mp (mt Finset.mem_insert.mpr hi)
    rw [hafter, TileMemory.acquire, eventsOf_cons_of_ne _ _ (Ne.symm hi)]
    exact h.gone i hmem free

/-- The first tile of a queue is handed out. -/
theorem TileInv.reuse (h : TileInv use) {queued : CachedTile ε → Bool} {entry : CachedTile ε}
    (hfind : use.memory.cache.find? queued = some entry) :
    TileInv ⟨{ use.memory with
      cache := use.memory.cache.eraseP queued
      history := (entry.tile.instance_, .acquired) :: use.memory.history },
      use.live ++ [entry.tile]⟩ := by
  set after : TileUse ε := ⟨{ use.memory with
      cache := use.memory.cache.eraseP queued
      history := (entry.tile.instance_, .acquired) :: use.memory.history },
      use.live ++ [entry.tile]⟩ with hafter
  have hcache := ListLookup.perm_cons_eraseP hfind
  have hperm : after.held.Perm use.held := by
    rw [held, hafter, List.append_assoc]
    refine List.Perm.map _ (List.Perm.append_left _ ?_)
    exact (hcache.map CachedTile.tile).symm
  have hnodup := hperm.nodup_iff.mpr h.nodup
  refine ⟨hnodup, fun i hi ↦ h.existing i (hperm.subset hi), ?_, ?_, ?_⟩
  · intro other hother
    have hne := ((separate_of_nodup hnodup).2 other hother).symm
    rw [hafter, eventsOf_cons_of_ne _ _ hne]
    exact h.freed other (List.mem_of_mem_eraseP hother)
  · intro i hi free
    have hne : entry.tile.instance_ ≠ i := by
      rintro rfl
      exact hi (h.existing _ (instance_mem_held (List.mem_of_find?_eq_some hfind)))
    rw [hafter, eventsOf_cons_of_ne _ _ hne]
    exact h.gone i hi free
  · intro huse
    rw [h.cache_nil huse] at hfind
    cases hfind

omit [TileCacheBuild] in
theorem perm_held_eraseIdx {i : ℕ} {tile : ArrayTile} (hlive : use.live[i]? = some tile) :
    use.held.Perm
      (tile.instance_ :: (⟨use.memory, use.live.eraseIdx i⟩ : TileUse ε).held) := by
  obtain ⟨hi, rfl⟩ := List.getElem?_eq_some_iff.mp hlive
  rw [held, held, ← List.map_cons, ← List.cons_append]
  refine List.Perm.map _ (List.Perm.append_right _ ?_)
  exact (List.getElem_cons_eraseIdx_perm hi).symm

theorem TileInv.enqueue (h : TileInv use) (huse : TileCacheBuild.useTileCache = true) {i : ℕ}
    {tile : ArrayTile} (hlive : use.live[i]? = some tile) (free : Event ε) (p : Processor) :
    TileInv ⟨{ use.memory with
      cache := use.memory.cache ++ [⟨p.key, free, tile⟩]
      history := (tile.instance_, .freed free) :: use.memory.history },
      use.live.eraseIdx i⟩ := by
  set after : TileUse ε := ⟨{ use.memory with
      cache := use.memory.cache ++ [⟨p.key, free, tile⟩]
      history := (tile.instance_, .freed free) :: use.memory.history },
      use.live.eraseIdx i⟩ with hafter
  have hsplit := perm_held_eraseIdx hlive
  have hlast : after.held =
      (⟨use.memory, use.live.eraseIdx i⟩ : TileUse ε).held ++ [tile.instance_] := by
    simp [held, hafter]
  have hperm : after.held.Perm use.held := by
    rw [hlast]
    exact (List.perm_append_singleton _ _).trans hsplit.symm
  have hnew := (List.nodup_cons.mp (hsplit.nodup_iff.mp h.nodup)).1
  refine ⟨hperm.nodup_iff.mpr h.nodup, fun j hj ↦ h.existing j (hperm.subset hj), ?_, ?_, ?_⟩
  · intro entry hentry
    rcases List.mem_append.mp hentry with hentry | hentry
    · have hne : tile.instance_ ≠ entry.tile.instance_ := by
        intro heq
        apply hnew
        rw [heq]
        exact @instance_mem_held ε ⟨use.memory, use.live.eraseIdx i⟩ entry hentry
      rw [hafter, eventsOf_cons_of_ne _ _ hne]
      exact h.freed entry hentry
    · obtain rfl := List.mem_singleton.mp hentry
      rw [hafter, eventsOf_cons_self]
      rfl
  · intro j hj free'
    have hne : tile.instance_ ≠ j := by
      rintro rfl
      exact hj (h.existing _ (live_mem_held (List.mem_of_getElem? hlive)))
    rw [hafter, eventsOf_cons_of_ne _ _ hne]
    exact h.gone j hj free'
  · exact fun hfalse ↦ absurd hfalse (by simp [huse])

/-- Without a cache a tile in use is deleted. -/
theorem TileInv.delete (h : TileInv use) (huse : TileCacheBuild.useTileCache = false) {i : ℕ}
    {tile : ArrayTile} (hlive : use.live[i]? = some tile) (free : Event ε) :
    TileInv ⟨{ use.memory with
      existing := use.memory.existing.erase tile.instance_
      history := (tile.instance_, .destroyed free) ::
        (tile.instance_, .freed free) :: use.memory.history },
      use.live.eraseIdx i⟩ := by
  have hsplit := perm_held_eraseIdx hlive
  obtain ⟨hnew, hnodup⟩ := List.nodup_cons.mp (hsplit.nodup_iff.mp h.nodup)
  refine ⟨hnodup, ?_, ?_, ?_, h.cache_nil⟩
  · intro j hj
    have hexisting := h.existing j (hsplit.symm.subset (List.mem_cons_of_mem _ hj))
    exact Finset.mem_erase.mpr ⟨fun heq ↦ hnew (heq ▸ hj), hexisting⟩
  · intro entry hentry
    have hentry : entry ∈ use.memory.cache := hentry
    rw [h.cache_nil huse] at hentry
    cases hentry
  · intro j hj free'
    by_cases heq : tile.instance_ = j
    · subst heq
      rw [eventsOf_cons_self]
      simp
    · rw [eventsOf_cons_of_ne _ _ heq, eventsOf_cons_of_ne _ _ heq]
      exact h.gone j (fun hin ↦ hj (Finset.mem_erase.mpr ⟨Ne.symm heq, hin⟩)) free'

theorem TileInv.free (h : TileInv use) {i : ℕ} {tile : ArrayTile}
    (hlive : use.live[i]? = some tile) (free : Event ε) (p : Processor) :
    TileInv ⟨use.memory.freeTile tile free p, use.live.eraseIdx i⟩ := by
  cases huse : TileCacheBuild.useTileCache with
  | true =>
      rw [TileMemory.freeTile, huse]
      exact h.enqueue huse hlive free p
  | false =>
      rw [TileMemory.freeTile, huse]
      exact h.delete huse hlive free

theorem TileInv.step (h : TileInv use) (action : TileAction ε) : TileInv (use.step action) := by
  cases action with
  | create shape p first second =>
      rw [TileUse.step]
      have hcreated := ArrayTile.createdBy shape p use.memory first second
      generalize ArrayTile.create shape p first second use.memory = result at hcreated ⊢
      cases hcreated with
      | cached hfind => exact h.reuse hfind
      | allocated hmemory =>
          rename_i memory allocation type
          have hinv : TileInv ⟨memory, use.live⟩ := by
            rcases hmemory with rfl | rfl
            · exact h
            · exact h.clear p
          exact hinv.acquire ⟨_, shape, type⟩ (allocation.name_notMem _)
      | failed hmemory =>
          rcases hmemory with rfl | rfl
          · exact h
          · exact h.clear p
  | freeTile i free p =>
      rw [TileUse.step]
      cases hlive : use.live[i]? with
      | none => exact h
      | some tile => exact h.free hlive free p
  | clearTiles p => exact h.clear p

theorem tileInv_empty : TileInv ({} : TileUse ε) where
  nodup := List.nodup_nil
  existing := by simp [held]
  freed := by simp
  gone := by simp [eventsOf]
  cache_nil _ := rfl

/-! ## Fitting tiles -/

theorem TileInv.fits_cached (h : TileInv use) {shape : TileShape} {p : Processor}
    {entry : CachedTile ε}
    (hfind : use.memory.cache.find? (CachedTile.queuedFor shape p) = some entry)
    (hbounds : entry.tile.shape.bounds = shape.bounds) :
    Fits use.live shape entry.free entry.tile { use.memory with
      cache := use.memory.cache.eraseP (CachedTile.queuedFor shape p)
      history := (entry.tile.instance_, .acquired) :: use.memory.history } := by
  obtain ⟨hlive, hcached⟩ := separate_of_nodup (h.reuse hfind).nodup
  refine ⟨?_, hlive, hcached, ?_⟩
  · have hqueued := List.find?_some hfind
    rw [CachedTile.queuedFor, Bool.and_eq_true, decide_eq_true_eq, decide_eq_true_eq] at hqueued
    obtain ⟨htype, hdims⟩ := TileKey.mk.inj hqueued.2
    cases hshape : entry.tile.shape with
    | mk type dims bounds =>
        rw [hshape] at htype hdims hbounds
        cases shape
        simp_all
  · intro free hfree
    have hhead := h.freed entry (List.mem_of_find?_eq_some hfind)
    obtain ⟨events, hevents⟩ := List.head?_eq_some_iff.mp hhead
    rw [TileMemory.previousFree, eventsOf_cons_self, hevents] at hfree
    obtain rfl := Option.some.inj hfree
    exact Finset.Subset.refl _

/-- A tile that was allocated has no previous owner. -/
theorem TileInv.fits_allocated {memory : TileMemory ε} {live : List ArrayTile}
    (h : TileInv ⟨memory, live⟩) (event : Event ε) (tile : ArrayTile)
    (hnew : tile.instance_ ∉ memory.existing) :
    Fits live tile.shape event tile (memory.acquire tile.instance_) := by
  obtain ⟨hlive, hcached⟩ := separate_of_nodup (h.acquire tile hnew).nodup
  refine ⟨rfl, hlive, hcached, fun free hfree ↦ ?_⟩
  exfalso
  rw [TileMemory.previousFree, TileMemory.acquire, eventsOf_cons_self] at hfree
  split at hfree
  case h_1 heq =>
    apply h.gone _ hnew
    rw [(List.cons_eq_cons.mp heq).2]
    rfl
  case h_2 => cases hfree

theorem TileInv.fitting_iff (h : TileInv use) (action : TileAction ε) :
    use.Fitting action ↔ use.Matching action := by
  cases action with
  | freeTile i free p => exact Iff.rfl
  | clearTiles p => exact Iff.rfl
  | create shape p first second =>
      constructor
      · intro hfit entry hfind
        cases huse : TileCacheBuild.useTileCache with
        | false =>
            rw [h.cache_nil huse] at hfind
            cases hfind
        | true =>
            have hcreate := ArrayTile.create_of_queued first second huse hfind
            rw [(hfit _ _ _ hcreate).shape_eq]
      · intro hmatch event tile memory hcreate
        have hcreated := ArrayTile.createdBy shape p use.memory first second
        rw [hcreate] at hcreated
        cases hcreated with
        | cached hfind => exact h.fits_cached hfind (hmatch _ hfind)
        | allocated hmemory =>
            rename_i memory allocation type
            have hinv : TileInv ⟨memory, use.live⟩ := by
              rcases hmemory with rfl | rfl
              · exact h
              · exact h.clear p
            exact hinv.fits_allocated _ ⟨_, shape, type⟩ (allocation.name_notMem _)

end Steps

/-- In a run every tile that is created fits its request if and only if, at every
creation, the first tile in the queue for the shape has the requested bounds. -/
theorem fitting_run_iff (actions : List (TileAction ε)) :
    Along step Fitting ({} : TileUse ε) actions ↔
      Along step Matching ({} : TileUse ε) actions :=
  along_congr (P := Fitting) (Q := Matching) (s := {})
    (fun _ action h ↦ TileInv.fitting_iff h action)
    (fun _ action h _ ↦ TileInv.step h action) tileInv_empty actions

omit [TileCacheBuild] in
/-- The second half of an array of eight elements gets the tile of the first half. -/
theorem not_fitting_other_bounds :
    ¬ ∀ (_ : TileCacheBuild) (actions : List (TileAction ℕ)),
      TileCacheBuild.useTileCache = true → Along step Fitting ({} : TileUse ℕ) actions := by
  intro h
  obtain ⟨-, -, hfit, -⟩ := h .withCache
    [.create ⟨.f32, [4], ⟨1, [(0, 3)]⟩⟩ ⟨.cpu, 0, 0⟩ (.next ∅ true) (.next ∅ true),
      .freeTile 0 {7} ⟨.cpu, 0, 0⟩,
      .create ⟨.f32, [4], ⟨1, [(4, 7)]⟩⟩ ⟨.cpu, 0, 0⟩ (.next ∅ true) (.next ∅ true)] rfl
  have hshape := (hfit {7} ⟨1, ⟨.f32, [4], ⟨1, [(0, 3)]⟩⟩, .int32⟩ _ rfl).shape_eq
  exact absurd hshape (by decide)

end TileUse

end Zuku
