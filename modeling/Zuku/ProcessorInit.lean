import Zuku.Shape
import Zuku.Library.BlockTable

/-!
# Numbering the processors

The process of every address space asks the machine for the processors of each
kind, sorts those of an address space by their ids and numbers them one address
space after the other.  Its own processors get the same numbers from the sorted
set of the local processors.
-/

namespace Zuku

open Checked BlockTable

inductive RealmKind where
  | noKind | tocProc | locProc | utilProc | otherProc
  deriving DecidableEq, Repr

structure RealmProcessor where
  id : ℕ
  addressSpace : ℕ
  kind : RealmKind
  deriving DecidableEq, Repr

structure RealmMachine where
  addressSpaceCount : ℕ
  processors : List RealmProcessor
  nodup : (processors.map RealmProcessor.id).Nodup
  addressSpace_lt : ∀ proc ∈ processors, proc.addressSpace < addressSpaceCount
  exists_locProc : ∀ space < addressSpaceCount,
    ∃ proc ∈ processors, proc.kind = .locProc ∧ proc.addressSpace = space

def RealmMachine.ofKind (machine : RealmMachine) (kind : RealmKind) : List RealmProcessor :=
  machine.processors.filter fun proc ↦ decide (proc.kind = kind)

/-- What the process of an address space sees of the machine: a query finds the
processors in any order, and the local processors are a set ordered by the ids. -/
structure MachineView (machine : RealmMachine) (space : ℕ) where
  query : RealmKind → List RealmProcessor
  query_perm : ∀ kind, (query kind).Perm (machine.ofKind kind)
  localProcessors : RealmKind → List RealmProcessor
  pairwise_localProcessors : ∀ kind, (localProcessors kind).Pairwise fun p q ↦ p.id < q.id
  mem_localProcessors : ∀ kind proc,
    proc ∈ localProcessors kind ↔ proc ∈ machine.ofKind kind ∧ proc.addressSpace = space

structure RemoteProcessors where
  globalDeviceIdStart : ℕ := 0
  globalDeviceIdStop : ℕ := 0
  processors : List RealmProcessor := []
  deriving DecidableEq, Repr

/-- A processor of the process, with the processor of the machine behind it. -/
structure LocalProcessor extends Processor where
  realmProc : RealmProcessor
  deriving DecidableEq, Repr

structure ProcessorTables where
  defaultType : ProcessorType := .cpu
  localProcs : ProcessorType → List LocalProcessor := fun _ ↦ []
  allProcs : ProcessorType → List RealmProcessor := fun _ ↦ []
  allProcsByAddressSpace : ProcessorType → List RemoteProcessors := fun _ ↦ []

def ProcessorType.toRealmKind : ProcessorType → RealmKind
  | .cpu => .locProc
  | .gpu => .tocProc
  | .util => .utilProc
  | .test => .noKind

def RemoteProcessors.pushBack (procs : RemoteProcessors) (proc : RealmProcessor) :
    RemoteProcessors :=
  { procs with processors := procs.processors ++ [proc] }

def resize {α : Type} (xs : List α) (n : ℕ) (a : α) : List α :=
  xs.take n ++ List.replicate (n - xs.length) a

def sortById (procs : List RealmProcessor) : List RealmProcessor :=
  procs.insertionSort fun p q ↦ p.id ≤ q.id

/-- The running offset, the processors numbered so far and the address spaces
they are in. -/
structure Numbered where
  globalOffset : ℕ := 0
  allProcs : List RealmProcessor
  spaces : List RemoteProcessors := []

def Numbered.addSpace (numbered : Numbered) (space : RemoteProcessors) : Numbered :=
  let processors := sortById space.processors
  let stop := numbered.globalOffset + processors.length
  { globalOffset := stop
    allProcs := numbered.allProcs ++ processors
    spaces := numbered.spaces ++ [⟨numbered.globalOffset, stop, processors⟩] }

def numberLocal (type : ProcessorType) (globalId : ℕ) (procs : List RealmProcessor) :
    List LocalProcessor :=
  procs.mapIdx fun localId proc ↦ ⟨⟨type, localId, globalId + localId⟩, proc⟩

namespace ProcessorTables

variable {machine : RealmMachine} {space : ℕ}

def initType (view : MachineView machine space) (tables : ProcessorTables)
    (type : ProcessorType) : Exec ProcessorTables := do
  let kind := type.toRealmKind
  let spaces := resize (tables.allProcsByAddressSpace type) machine.addressSpaceCount {}
  let spaces ← (view.query kind).foldlM
    (fun spaces proc ↦ modifyAt spaces proc.addressSpace (·.pushBack proc)) spaces
  let numbered := spaces.foldl Numbered.addSpace { allProcs := tables.allProcs type }
  let newProcs ← whenSome (view.localProcessors kind).head? [] fun first ↦ do
    let space ← vectorAt numbered.spaces first.addressSpace
    pure (numberLocal type space.globalDeviceIdStart (view.localProcessors kind))
  let localProcs := tables.localProcs type ++ newProcs
  pure
    { defaultType := if localProcs.isEmpty then tables.defaultType else type
      localProcs := Function.update tables.localProcs type localProcs
      allProcs := Function.update tables.allProcs type numbered.allProcs
      allProcsByAddressSpace :=
        Function.update tables.allProcsByAddressSpace type numbered.spaces }

def initTypes : List ProcessorType := [.util, .cpu, .gpu]

def init (view : MachineView machine space) : Exec ProcessorTables :=
  initTypes.foldlM (initType view) {}

def remoteProc (tables : ProcessorTables) (globalDeviceId : ℕ) (type : Option ProcessorType) :
    Exec RealmProcessor :=
  vectorAt (tables.allProcs (type.getD tables.defaultType)) globalDeviceId

def getAttachedHost (tables : ProcessorTables) (globalDeviceId : ℕ)
    (type : Option ProcessorType) : Exec RealmProcessor := do
  let deviceProc ← tables.remoteProc globalDeviceId type
  if deviceProc.kind = .locProc then
    pure deviceProc
  else do
    let hostsOnRemote ← vectorAt (tables.allProcsByAddressSpace .cpu) deviceProc.addressSpace
    if hostsOnRemote.globalDeviceIdStart ≤ globalDeviceId ∧
        globalDeviceId < hostsOnRemote.globalDeviceIdStop then
      vectorAt hostsOnRemote.processors (globalDeviceId - hostsOnRemote.globalDeviceIdStart)
    else
      vectorAt hostsOnRemote.processors 0

/-- The host of a shard of an array whose processor has the type. -/
def hostForShard (tables : ProcessorTables) (devices : DeviceList) (type : ProcessorType)
    (shardId : ℕ) : Exec RealmProcessor :=
  tables.getAttachedHost (shardId + devices.start) (some type)

end ProcessorTables

/-! ## The numbering of the machine -/

namespace RealmMachine

variable (machine : RealmMachine)

/-- The processors of a kind in an address space, in the order of their ids. -/
def block (kind : RealmKind) (space : ℕ) : List RealmProcessor :=
  sortById ((machine.ofKind kind).filter fun proc ↦ decide (proc.addressSpace = space))

def remoteProcessors (kind : RealmKind) (space : ℕ) : RemoteProcessors :=
  ⟨start (machine.block kind) space, start (machine.block kind) (space + 1),
    machine.block kind space⟩

def spaceTable (kind : RealmKind) : List RemoteProcessors :=
  (List.range machine.addressSpaceCount).map (machine.remoteProcessors kind)

def processorTable (kind : RealmKind) : List RealmProcessor :=
  table (machine.block kind) machine.addressSpaceCount

def localTable (space : ℕ) (type : ProcessorType) : List LocalProcessor :=
  numberLocal type (start (machine.block type.toRealmKind) space)
    (machine.block type.toRealmKind space)

variable {machine} {kind : RealmKind} {space : ℕ} {proc : RealmProcessor}

theorem mem_ofKind : proc ∈ machine.ofKind kind ↔ proc ∈ machine.processors ∧ proc.kind = kind := by
  rw [ofKind, List.mem_filter, decide_eq_true_eq]

theorem mem_block : proc ∈ machine.block kind space ↔
    proc ∈ machine.ofKind kind ∧ proc.addressSpace = space := by
  rw [block, sortById, List.mem_insertionSort, List.mem_filter, decide_eq_true_eq]

theorem eq_of_id_eq {p q : RealmProcessor} (hp : p ∈ machine.ofKind kind)
    (hq : q ∈ machine.ofKind kind) (h : p.id = q.id) : p = q :=
  List.inj_on_of_nodup_map machine.nodup (mem_ofKind.mp hp).1 (mem_ofKind.mp hq).1 h

theorem nodup_ofKind (machine : RealmMachine) (kind : RealmKind) : (machine.ofKind kind).Nodup :=
  machine.nodup.of_map.filter _

theorem perm_sortById (procs : List RealmProcessor) : (sortById procs).Perm procs :=
  List.perm_insertionSort _ procs

theorem nodup_block (machine : RealmMachine) (kind : RealmKind) (space : ℕ) :
    (machine.block kind space).Nodup :=
  (perm_sortById _).nodup_iff.mpr ((nodup_ofKind machine kind).filter _)

/-- Two lists of the same processors that are sorted by their ids are the same. -/
theorem eq_of_perm_of_sorted {ps qs : List RealmProcessor} (hperm : ps.Perm qs)
    (hmem : ∀ p ∈ ps, p ∈ machine.ofKind kind) (hps : ps.Pairwise fun p q ↦ p.id ≤ q.id)
    (hqs : qs.Pairwise fun p q ↦ p.id ≤ q.id) : ps = qs :=
  hperm.eq_of_pairwise
    (fun p q hp hq hle hge ↦ eq_of_id_eq (hmem p hp) (hmem q (hperm.mem_iff.mpr hq))
      (le_antisymm hle hge)) hps hqs

theorem pairwise_sortById (procs : List RealmProcessor) :
    (sortById procs).Pairwise fun p q ↦ p.id ≤ q.id :=
  have : Std.Total fun p q : RealmProcessor ↦ p.id ≤ q.id := ⟨fun p q ↦ le_total p.id q.id⟩
  have : IsTrans RealmProcessor fun p q ↦ p.id ≤ q.id := ⟨fun _ _ _ ↦ le_trans⟩
  List.pairwise_insertionSort _ procs

theorem block_eq_sortById {procs : List RealmProcessor} (h : procs.Perm (machine.ofKind kind)) :
    sortById (procs.filter fun proc ↦ decide (proc.addressSpace = space)) =
      machine.block kind space := by
  have hperm := h.filter fun proc ↦ decide (proc.addressSpace = space)
  have hmem : ∀ p ∈ sortById (procs.filter fun proc ↦ decide (proc.addressSpace = space)),
      p ∈ machine.ofKind kind := fun p hp ↦
    h.mem_iff.mp (List.mem_of_mem_filter ((List.mem_insertionSort _).mp hp))
  exact eq_of_perm_of_sorted (((perm_sortById _).trans hperm).trans (perm_sortById _).symm)
    hmem (pairwise_sortById _) (pairwise_sortById _)

end RealmMachine

open RealmMachine ProcessorTables

variable {machine : RealmMachine} {space : ℕ}

/-- The set of the local processors lists the block of the address space. -/
theorem MachineView.localProcessors_eq (view : MachineView machine space) (kind : RealmKind) :
    view.localProcessors kind = machine.block kind space := by
  have hnodup : (view.localProcessors kind).Nodup :=
    (view.pairwise_localProcessors kind).imp fun h heq ↦ h.ne (congrArg _ heq)
  refine eq_of_perm_of_sorted
    ((List.perm_ext_iff_of_nodup hnodup (nodup_block machine kind space)).mpr fun proc ↦ ?_)
    (fun p hp ↦ ((view.mem_localProcessors kind p).mp hp).1)
    ((view.pairwise_localProcessors kind).imp le_of_lt) (pairwise_sortById _)
  rw [view.mem_localProcessors, mem_block]

/-! ## The loops of the initialization -/

theorem foldl_pushBack (procs : List RealmProcessor) (remote : RemoteProcessors) :
    procs.foldl RemoteProcessors.pushBack remote =
      { remote with processors := remote.processors ++ procs } := by
  induction procs generalizing remote with
  | nil => simp
  | cons proc procs ih => simp [ih, RemoteProcessors.pushBack]

def MachineView.queried (view : MachineView machine space) (kind : RealmKind) (b : ℕ) :
    RemoteProcessors :=
  { processors := (view.query kind).filter fun proc ↦ decide (proc.addressSpace = b) }

theorem foldlM_query (view : MachineView machine space) (kind : RealmKind) :
    (view.query kind).foldlM
        (fun spaces proc ↦ modifyAt spaces proc.addressSpace (fun procs ↦ procs.pushBack proc))
        (resize ([] : List RemoteProcessors) machine.addressSpaceCount {}) =
      .ok ((List.range machine.addressSpaceCount).map (view.queried kind)) := by
  have hresize : resize ([] : List RemoteProcessors) machine.addressSpaceCount {} =
      (List.range machine.addressSpaceCount).map fun _ ↦ {} := by
    simp [resize]
  have hlt : ∀ proc ∈ view.query kind, proc.addressSpace < machine.addressSpaceCount :=
    fun proc hproc ↦ machine.addressSpace_lt proc
      (mem_ofKind.mp ((view.query_perm kind).mem_iff.mp hproc)).1
  rw [hresize]
  refine (foldlM_modifyAt hlt fun _ ↦ ({} : RemoteProcessors)).trans ?_
  simp only [foldl_pushBack, List.nil_append]
  rfl

/-- Every address space is numbered from where the one before it ends. -/
theorem foldl_addSpace (view : MachineView machine space) (kind : RealmKind) (n : ℕ) :
    ((List.range n).map (view.queried kind)).foldl Numbered.addSpace { allProcs := [] } =
      { globalOffset := start (machine.block kind) n
        allProcs := table (machine.block kind) n
        spaces := (List.range n).map (machine.remoteProcessors kind) } := by
  induction n with
  | zero => rfl
  | succ n ih =>
      have hblock : sortById (view.queried kind n).processors = machine.block kind n :=
        block_eq_sortById (view.query_perm kind)
      rw [List.range_succ, List.map_append, List.foldl_append, ih, List.map_singleton,
        List.foldl_cons, List.foldl_nil, Numbered.addSpace, hblock, List.map_append,
        List.map_singleton, table_succ]
      simp only [remoteProcessors, start_succ]

theorem vectorAt_spaceTable {kind : RealmKind} {b : ℕ} (h : b < machine.addressSpaceCount) :
    vectorAt (machine.spaceTable kind) b = .ok (machine.remoteProcessors kind b) := by
  rw [vectorAt_eq_ok_iff, spaceTable, List.getElem?_map, List.getElem?_range h, Option.map_some]

/-- The numbers of the local processors start where their address space does. -/
theorem newProcs_eq (view : MachineView machine space) (type : ProcessorType) :
    whenSome (view.localProcessors type.toRealmKind).head? [] (fun first ↦ do
        let space ← vectorAt (machine.spaceTable type.toRealmKind) first.addressSpace
        pure (numberLocal type space.globalDeviceIdStart
          (view.localProcessors type.toRealmKind))) =
      .ok (machine.localTable space type) := by
  rw [view.localProcessors_eq]
  cases h : machine.block type.toRealmKind space with
  | nil =>
      rw [List.head?_nil, whenSome_none, localTable, h]
      rfl
  | cons first rest =>
      obtain ⟨hkind, hspace⟩ := mem_block.mp (h ▸ List.mem_cons_self :
        first ∈ machine.block type.toRealmKind space)
      have hlt := machine.addressSpace_lt first (mem_ofKind.mp hkind).1
      rw [List.head?_cons, whenSome_some, vectorAt_spaceTable hlt, ok_bind, pure_eq_ok,
        localTable, h, hspace]
      rfl

theorem initType_eq (view : MachineView machine space) {tables : ProcessorTables}
    {type : ProcessorType} (hlocal : tables.localProcs type = [])
    (hall : tables.allProcs type = []) (hspaces : tables.allProcsByAddressSpace type = []) :
    initType view tables type = .ok
      { defaultType :=
          if (machine.localTable space type).isEmpty then tables.defaultType else type
        localProcs := Function.update tables.localProcs type (machine.localTable space type)
        allProcs :=
          Function.update tables.allProcs type (machine.processorTable type.toRealmKind)
        allProcsByAddressSpace := Function.update tables.allProcsByAddressSpace type
          (machine.spaceTable type.toRealmKind) } := by
  simp only [initType, hlocal, hall, hspaces, foldlM_query, ok_bind, foldl_addSpace,
    List.nil_append]
  rw [← spaceTable, newProcs_eq, ok_bind, pure_eq_ok, processorTable]

end Zuku
