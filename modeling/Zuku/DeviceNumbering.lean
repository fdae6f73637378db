import Zuku.ProcessorInit

/-!
# The numbers of the devices

The processes number the processors of a kind alike.  A global id is the
position of a processor in the table that every process builds, and the process
of its own address space gives it the same number.
-/

namespace Zuku

open Checked BlockTable

namespace RealmMachine

variable (machine : RealmMachine)

/-- The tables of an address space.  Its default processors are GPUs if it has any. -/
def tables (space : ℕ) : ProcessorTables where
  defaultType := if (machine.localTable space .gpu).isEmpty then .cpu else .gpu
  localProcs type := if type = .test then [] else machine.localTable space type
  allProcs type := if type = .test then [] else machine.processorTable type.toRealmKind
  allProcsByAddressSpace type := if type = .test then [] else machine.spaceTable type.toRealmKind

variable {machine} {space owner : ℕ} {type : ProcessorType} {kind : RealmKind}

theorem block_locProc_ne_nil (h : space < machine.addressSpaceCount) :
    machine.block .locProc space ≠ [] := by
  obtain ⟨proc, hproc, hkind, hspace⟩ := machine.exists_locProc space h
  exact List.ne_nil_of_mem (mem_block.mpr ⟨mem_ofKind.mpr ⟨hproc, hkind⟩, hspace⟩)

theorem localTable_cpu_isEmpty (h : space < machine.addressSpaceCount) :
    (machine.localTable space .cpu).isEmpty = false := by
  rw [List.isEmpty_eq_false_iff, localTable, numberLocal, ← List.length_pos_iff,
    List.length_mapIdx, List.length_pos_iff]
  exact block_locProc_ne_nil h

theorem init_eq (view : MachineView machine space) (h : space < machine.addressSpaceCount) :
    ProcessorTables.init view = .ok (machine.tables space) := by
  have hcpu := localTable_cpu_isEmpty h
  rw [ProcessorTables.init, ProcessorTables.initTypes, List.foldlM_cons,
    initType_eq view rfl rfl rfl, ok_bind, List.foldlM_cons, initType_eq view rfl rfl rfl,
    ok_bind, List.foldlM_cons, initType_eq view rfl rfl rfl, ok_bind, List.foldlM_nil,
    pure_eq_ok, tables]
  simp only [hcpu, Bool.false_eq_true, if_false]
  congr 2
  all_goals
    funext type
    cases type <;> rfl

theorem tables_allProcs (h : type ≠ .test) :
    (machine.tables space).allProcs type = machine.processorTable type.toRealmKind := if_neg h

theorem tables_localProcs (h : type ≠ .test) :
    (machine.tables space).localProcs type = machine.localTable space type := if_neg h

/-! ## Numbers as positions -/

theorem perm_processorTable (machine : RealmMachine) (kind : RealmKind) :
    (machine.processorTable kind).Perm (machine.ofKind kind) :=
  (List.Perm.flatMap_left _ fun _ _ ↦ perm_sortById _).trans <|
    perm_table_filter fun proc hproc ↦ machine.addressSpace_lt proc (mem_ofKind.mp hproc).1

theorem start_eq_length (machine : RealmMachine) (kind : RealmKind) :
    start (machine.block kind) machine.addressSpaceCount = (machine.ofKind kind).length :=
  (perm_processorTable machine kind).length_eq

theorem mem_localTable {p : LocalProcessor} : p ∈ machine.localTable owner type ↔
    ∃ i proc, (machine.block type.toRealmKind owner)[i]? = some proc ∧
      p = ⟨⟨type, i, start (machine.block type.toRealmKind) owner + i⟩, proc⟩ := by
  rw [localTable, numberLocal, List.mem_mapIdx]
  constructor
  · rintro ⟨i, hi, rfl⟩
    exact ⟨i, _, List.getElem?_eq_getElem hi, rfl⟩
  · rintro ⟨i, proc, hproc, rfl⟩
    obtain ⟨hi, rfl⟩ := List.getElem?_eq_some_iff.mp hproc
    exact ⟨i, hi, rfl⟩

theorem map_globalId_localTable (machine : RealmMachine) (owner : ℕ) (type : ProcessorType) :
    ((machine.localTable owner type).map fun p ↦ p.globalId) =
      List.range' (start (machine.block type.toRealmKind) owner)
        (machine.block type.toRealmKind owner).length := by
  apply List.ext_getElem
  · simp [localTable, numberLocal]
  · intro i _ _
    simp [localTable, numberLocal]

theorem map_realmProc_localTable (machine : RealmMachine) (owner : ℕ) (type : ProcessorType) :
    (machine.localTable owner type).map LocalProcessor.realmProc =
      machine.block type.toRealmKind owner := by
  apply List.ext_getElem
  · simp [localTable, numberLocal]
  · intro i _ _
    simp [localTable, numberLocal]

theorem vectorAt_processorTable {i : ℕ} {proc : RealmProcessor}
    (howner : owner < machine.addressSpaceCount)
    (hproc : (machine.block kind owner)[i]? = some proc) :
    vectorAt (machine.processorTable kind) (start (machine.block kind) owner + i) = .ok proc := by
  rw [vectorAt_eq_ok_iff, ← hproc]
  exact getElem?_table howner (List.getElem?_eq_some_iff.mp hproc).1

/-! ## Hosts -/

/-- A CPU of the same address space, the one with the same number if there is one. -/
theorem exists_getAttachedHost {i : ℕ} {proc : RealmProcessor} (htype : type ≠ .test)
    (howner : owner < machine.addressSpaceCount)
    (hproc : (machine.block type.toRealmKind owner)[i]? = some proc) :
    ∃ host ∈ machine.block .locProc owner, (machine.tables space).getAttachedHost
      (start (machine.block type.toRealmKind) owner + i) (some type) = .ok host := by
  have hremote : (machine.tables space).remoteProc
      (start (machine.block type.toRealmKind) owner + i) (some type) = .ok proc := by
    rw [ProcessorTables.remoteProc, Option.getD_some, tables_allProcs htype]
    exact vectorAt_processorTable howner hproc
  obtain ⟨hkind, hspace⟩ := mem_block.mp (List.mem_of_getElem? hproc)
  rw [ProcessorTables.getAttachedHost, hremote, ok_bind]
  split_ifs with hcpu
  · exact ⟨proc, mem_block.mpr ⟨mem_ofKind.mpr ⟨(mem_ofKind.mp hkind).1, hcpu⟩, hspace⟩, rfl⟩
  · have hhosts : vectorAt ((machine.tables space).allProcsByAddressSpace .cpu)
        proc.addressSpace = .ok (machine.remoteProcessors .locProc owner) := by
      rw [hspace]
      exact vectorAt_spaceTable howner
    have hblock {j : ℕ} (hj : j < (machine.block .locProc owner).length) :
        ∃ host ∈ machine.block .locProc owner,
          vectorAt (machine.block .locProc owner) j = .ok host :=
      ⟨_, List.getElem_mem hj, vectorAt_of_getElem? (List.getElem?_eq_getElem hj)⟩
    rw [hhosts, ok_bind]
    split_ifs with haligned
    · have hstop : (machine.remoteProcessors .locProc owner).globalDeviceIdStop =
          (machine.remoteProcessors .locProc owner).globalDeviceIdStart +
            (machine.block .locProc owner).length := start_succ _ _
      exact hblock (by omega)
    · exact hblock (List.length_pos_iff.mpr (block_locProc_ne_nil howner))

end RealmMachine

/-- The address spaces agree on the numbers of the processors of a type. -/
structure ConsistentNumbering (machine : RealmMachine) (tables : ℕ → ProcessorTables)
    (type : ProcessorType) : Prop where
  /-- One address space after the other numbers its own processors. -/
  globalIds : ((List.range machine.addressSpaceCount).flatMap fun space ↦
      ((tables space).localProcs type).map fun p ↦ p.globalId) =
    List.range (machine.ofKind type.toRealmKind).length
  mem_localProcs : ∀ space < machine.addressSpaceCount, ∀ proc,
    proc ∈ ((tables space).localProcs type).map LocalProcessor.realmProc ↔
      proc ∈ machine.ofKind type.toRealmKind ∧ proc.addressSpace = space
  allProcs_eq : ∀ space < machine.addressSpaceCount, ∀ other < machine.addressSpaceCount,
    (tables space).allProcs type = (tables other).allProcs type
  allProcsByAddressSpace_eq : ∀ space < machine.addressSpaceCount,
    ∀ other < machine.addressSpaceCount,
      (tables space).allProcsByAddressSpace type = (tables other).allProcsByAddressSpace type
  /-- A processor is found by the number that its own address space gave it. -/
  remoteProc : ∀ space < machine.addressSpaceCount, ∀ owner < machine.addressSpaceCount,
    ∀ p ∈ (tables owner).localProcs type, ∀ requested : Option ProcessorType,
      requested.getD (tables space).defaultType = type →
        (tables space).remoteProc p.globalId requested = .ok p.realmProc
  hostForShard : ∀ space < machine.addressSpaceCount, ∀ devices : DeviceList,
    devices.stop ≤ (machine.ofKind type.toRealmKind).length → ∀ shard < devices.size,
      ∃ owner < machine.addressSpaceCount, ∃ p ∈ (tables owner).localProcs type,
        p.globalId = devices.start + shard ∧ ∃ host ∈ machine.processors,
          (tables space).hostForShard devices type shard = .ok host ∧
            host.kind = .locProc ∧ host.addressSpace = owner

open RealmMachine

theorem RealmMachine.consistentNumbering_tables (machine : RealmMachine) {type : ProcessorType}
    (htype : type ≠ .test) : ConsistentNumbering machine machine.tables type where
  globalIds := by
    simp only [tables_localProcs htype, map_globalId_localTable]
    rw [flatMap_positions, start_eq_length]
  mem_localProcs space _ proc := by
    rw [tables_localProcs htype, map_realmProc_localTable, mem_block]
  allProcs_eq _ _ _ _ := rfl
  allProcsByAddressSpace_eq _ _ _ _ := rfl
  remoteProc space _ owner howner p hp requested hrequested := by
    rw [tables_localProcs htype] at hp
    obtain ⟨i, proc, hproc, rfl⟩ := mem_localTable.mp hp
    rw [ProcessorTables.remoteProc, hrequested, tables_allProcs htype]
    exact vectorAt_processorTable howner hproc
  hostForShard space _ devices hdevices shard hshard := by
    have hlt : shard + devices.start <
        start (machine.block type.toRealmKind) machine.addressSpaceCount := by
      rw [start_eq_length]
      refine lt_of_lt_of_le ?_ hdevices
      rw [DeviceList.stop]
      rw [DeviceList.size] at hshard
      omega
    obtain ⟨owner, howner, i, hi, heq⟩ := exists_block hlt
    have hproc := List.getElem?_eq_getElem hi
    obtain ⟨host, hhost, hok⟩ :=
      @exists_getAttachedHost machine space owner type i _ htype howner hproc
    obtain ⟨hkind, hspace⟩ := mem_block.mp hhost
    obtain ⟨hmem, hcpu⟩ := mem_ofKind.mp hkind
    have hnumber : start (machine.block type.toRealmKind) owner + i = devices.start + shard := by
      rw [← heq, Nat.add_comm]
    have hlocal := mem_localTable.mpr ⟨i, _, hproc, rfl⟩
    rw [← tables_localProcs htype] at hlocal
    refine ⟨owner, howner, _, hlocal, hnumber, host, hmem, ?_, hcpu, hspace⟩
    rw [ProcessorTables.hostForShard, heq]
    exact hok

/-- After every process has numbered the processors, the numbers are consistent. -/
theorem RealmMachine.init_consistentNumbering (machine : RealmMachine)
    (view : ∀ space, MachineView machine space) :
    ∃ tables : ℕ → ProcessorTables,
      (∀ space < machine.addressSpaceCount,
        ProcessorTables.init (view space) = .ok (tables space)) ∧
        ∀ type ∈ ProcessorTables.initTypes, ConsistentNumbering machine tables type := by
  refine ⟨machine.tables, fun space h ↦ init_eq (view space) h, fun type htype ↦ ?_⟩
  apply consistentNumbering_tables
  rintro rfl
  simp [ProcessorTables.initTypes] at htype

/-- A machine answers with the processors in the order of its own list. -/
def RealmMachine.view (machine : RealmMachine) (space : ℕ) : MachineView machine space where
  query := machine.ofKind
  query_perm _ := .rfl
  localProcessors kind := machine.block kind space
  pairwise_localProcessors kind := by
    refine ((pairwise_sortById _).and (nodup_block machine kind space)).imp_of_mem
      fun hp hq h ↦ ?_
    exact lt_of_le_of_ne h.1
      fun heq ↦ h.2 (eq_of_id_eq (mem_block.mp hp).1 (mem_block.mp hq).1 heq)
  mem_localProcessors _ _ := mem_block

/-- The second address space has more CPUs than the first and no GPU. -/
def unevenMachine : RealmMachine where
  addressSpaceCount := 2
  processors := [⟨4, 1, .locProc⟩, ⟨1, 0, .tocProc⟩, ⟨3, 1, .locProc⟩, ⟨2, 0, .locProc⟩,
    ⟨0, 0, .tocProc⟩]
  nodup := by decide
  addressSpace_lt := by decide
  exists_locProc := by decide

theorem RealmMachine.init_consistentNumbering_uneven :
    ∃ tables : ℕ → ProcessorTables,
      (∀ space < 2, ProcessorTables.init (unevenMachine.view space) = .ok (tables space)) ∧
        ConsistentNumbering unevenMachine tables .gpu := by
  obtain ⟨tables, hinit, hconsistent⟩ :=
    RealmMachine.init_consistentNumbering unevenMachine unevenMachine.view
  exact ⟨tables, hinit, hconsistent .gpu (by decide)⟩

end Zuku
