import Ucore.Fs.VfsDevList
import Ucore.Fs.VfsFile
import Ucore.Library.Sections
import Mathlib.Data.Finset.Card

/-!
# The list of devices as a table

For its users the list of devices is a table from names to devices, and `kmalloc` is in it
only where an addition may fail. The list in memory behaves like the table in every run: no
name is in it twice, every entry owns its block and the block of its name, and a call that
fails gives back what it took.
-/

namespace Ucore.DevList

open CircularList EmbeddedList Sections

variable {N S : Type}

/-! ## The table -/

/-- A device without its name. -/
structure Device (N S : Type) where
  devnode : Option N
  fs : Option S
  mountable : Bool

/-- The devices by their names. -/
abbrev Table (N S : Type) := Name → Option (Device N S)

/-- What a call returns. -/
inductive Answer (N S : Type) where
  | ret (ret : Int)
  | root (root : Except Int (Root N S))
  | devname (name : Option Name)

/-- The calls, with what `kmalloc`, `mountfunc` and the operations of a file system return in them. -/
inductive DevCall (N S : Type) where
  | addFs (devname : Name) (fs : S) (first second : Option Nat)
  | addDev (devname : Name) (devnode : N) (mountable : Bool) (first second : Option Nat)
  | mount (devname : Name) (result : Int) (stored : Option S)
  | unmount (devname : Name) (synced unmounted : Int)
  | unmountAll (results : S → Int × Int)
  | getRoot (devname : Name)
  | getDevname (fs : S)

def Table.add (table : Table N S) (devname : Name) (device : Device N S) (room : Bool) : Answer N S × Table N S :=
  if devname.length > fsMaxDnameLen then (.ret (-eTooBig), table)
  else if room = false then (.ret (-eNoMem), table)
  else if (table devname).isSome then (.ret (-eExists), table)
  else (.ret 0, Function.update table devname (some device))

def Table.mount (table : Table N S) (devname : Name) (result : Int) (stored : Option S) : Answer N S × Table N S :=
  match table devname with
  | none => (.ret (-eNoDev), table)
  | some device =>
      if device.mountable = false then (.ret (-eNoDev), table)
      else if device.fs.isSome then (.ret (-eBusy), table)
      else (.ret result, Function.update table devname (some { device with fs := stored }))

def Table.unmount (table : Table N S) (devname : Name) (synced unmounted : Int) : Answer N S × Table N S :=
  match table devname with
  | none => (.ret (-eNoDev), table)
  | some device =>
      if device.mountable = false then (.ret (-eNoDev), table)
      else if device.fs.isNone then (.ret (-eInval), table)
      else if synced ≠ 0 then (.ret synced, table)
      else if unmounted ≠ 0 then (.ret unmounted, table)
      else (.ret 0, Function.update table devname (some { device with fs := none }))

/-- A device behind `vfs_unmount_all`. -/
def Device.settle (results : S → Int × Int) (device : Device N S) : Device N S :=
  match device.fs with
  | none => device
  | some fs =>
      if device.mountable = false ∨ (results fs).1 ≠ 0 ∨ (results fs).2 ≠ 0 then device else { device with fs := none }

/-- The root of a device. -/
def Device.root (device : Device N S) : Except Int (Root N S) :=
  match device.fs, device.devnode with
  | some fs, _ => .ok (.fs fs)
  | none, some node => if device.mountable then .error (-eNaDev) else .ok (.devnode node)
  | none, none => .error (-eNaDev)

/-- What a call does for its users. -/
def TableEffect (call : DevCall N S) (table : Table N S) (answer : Answer N S) (after : Table N S) : Prop :=
  match call with
  | .addFs devname fs first second =>
      (answer, after) = table.add devname ⟨none, some fs, false⟩ (first.isSome && second.isSome)
  | .addDev devname devnode mountable first second =>
      (answer, after) = table.add devname ⟨some devnode, none, mountable⟩ (first.isSome && second.isSome)
  | .mount devname result stored => (answer, after) = table.mount devname result stored
  | .unmount devname synced unmounted => (answer, after) = table.unmount devname synced unmounted
  | .unmountAll results => answer = .ret 0 ∧ after = fun name => (table name).map (Device.settle results)
  | .getRoot devname => after = table ∧ answer = .root (((table devname).map Device.root).getD (.error (-eNoDev)))
  | .getDevname fs => after = table ∧ ∃ found, answer = .devname found ∧
      match found with
      | some name => ∃ device, table name = some device ∧ device.fs = some fs
      | none => ∀ name device, table name = some device → device.fs ≠ some fs

/-! ## The calls on the list -/

/-- More rounds than there are entries in the blocks that are held. -/
def DevMemory.rounds (memory : DevMemory N S) : Nat := memory.held.card + 1

variable [DecidableEq S]

/-- A call on the list in memory. -/
def devStep (memory : DevMemory N S) : DevCall N S → Option (Answer N S × DevMemory N S)
  | .addFs devname fs first second =>
      (vfsAddFs (memory.rounds + 2) memory devname fs first second).map fun (ret, after) => (.ret ret, after)
  | .addDev devname devnode mountable first second =>
      (vfsAddDev (memory.rounds + 2) memory devname devnode mountable first second).map fun (ret, after) =>
        (.ret ret, after)
  | .mount devname result stored =>
      (vfsMount memory.rounds memory devname result stored).map fun (ret, after) => (.ret ret, after)
  | .unmount devname synced unmounted =>
      (vfsUnmount memory.rounds memory devname synced unmounted).map fun (ret, after) => (.ret ret, after)
  | .unmountAll results =>
      (vfsUnmountAll memory.rounds memory results).map fun (ret, after) => (.ret ret, after)
  | .getRoot devname => (vfsGetRoot memory.rounds memory devname).map fun root => (.root root, memory)
  | .getDevname fs => (vfsGetDevname memory.rounds memory fs).map fun found => (.devname found, memory)

/-- `kmalloc` returns two blocks that are not held, and `mountfunc` stores a file system when it succeeds. -/
def DevLegal (memory : DevMemory N S) : DevCall N S → Prop
  | .addFs _ _ first second | .addDev _ _ _ first second =>
      (∀ block, first = some block ∨ second = some block → block ∉ memory.held) ∧ (first.isSome → first ≠ second)
  | .mount _ result stored => result = 0 ↔ stored.isSome
  | _ => True

/-- What a call does to the memory. -/
def DevEffect (call : DevCall N S) (memory : DevMemory N S) (answer : Answer N S) (after : DevMemory N S) : Prop :=
  DevLegal memory call ∧ devStep memory call = some (answer, after)

/-! ## The list in memory -/

omit [DecidableEq S]

/-- The name of an entry in memory. -/
def DevMemory.nameOf (memory : DevMemory N S) (vdev : Nat) : Name := memory.text (memory.vdev vdev).devname

/-- The device of an entry in memory. -/
def DevMemory.device (memory : DevMemory N S) (vdev : Nat) : Device N S :=
  ⟨(memory.vdev vdev).devnode, (memory.vdev vdev).fs, (memory.vdev vdev).mountable⟩

/-- The blocks of entries and of their names. -/
def DevMemory.blocks (memory : DevMemory N S) (vdevs : List Nat) : List Nat :=
  vdevs ++ vdevs.map fun vdev => (memory.vdev vdev).devname

/-- The list holds these entries. All have blocks of their own, beside the blocks that are
held elsewhere, and no name is there twice; only a device can be mounted on. -/
structure Lists (elsewhere : Finset Nat) (memory : DevMemory N S) (vdevs : List Nat) : Prop where
  ring : Ring memory.links .head (vdevs.map Entry.link)
  distinct : (memory.blocks vdevs).Nodup
  held : ∀ block, block ∈ memory.held ↔ block ∈ elsewhere ∨ block ∈ memory.blocks vdevs
  apart : ∀ block ∈ elsewhere, block ∉ memory.blocks vdevs
  unique : (vdevs.map memory.nameOf).Nodup
  sound : ∀ vdev ∈ vdevs, (memory.vdev vdev).devnode.isSome ∨
    (memory.vdev vdev).mountable = false ∧ (memory.vdev vdev).fs.isSome

variable {elsewhere : Finset Nat} {memory after : DevMemory N S} {vdevs : List Nat} {vdev fuel : Nat} {devname : Name}

namespace Lists

theorem entry_held (lists : Lists elsewhere memory vdevs) (member : vdev ∈ vdevs) : vdev ∈ memory.held :=
  (lists.held vdev).mpr (Or.inr (List.mem_append_left _ member))

theorem name_held (lists : Lists elsewhere memory vdevs) (member : vdev ∈ vdevs) :
    (memory.vdev vdev).devname ∈ memory.held :=
  (lists.held _).mpr (Or.inr (List.mem_append_right _ (List.mem_map_of_mem member)))

theorem readVdev_exact (lists : Lists elsewhere memory vdevs) (member : vdev ∈ vdevs) :
    readVdev memory vdev = some (memory.vdev vdev) := if_pos (lists.entry_held member)

theorem readName_exact (lists : Lists elsewhere memory vdevs) (member : vdev ∈ vdevs) :
    readName memory (memory.vdev vdev) = some (memory.nameOf vdev) := if_pos (lists.name_held member)

/-- There are fewer entries than blocks that are held. -/
theorem short (lists : Lists elsewhere memory vdevs) : vdevs.length < memory.rounds := by
  have distinct : vdevs.Nodup := (List.nodup_append.mp lists.distinct).1
  have inside : vdevs.toFinset ⊆ memory.held := by
    intro vdev member
    exact lists.entry_held (List.mem_toFinset.mp member)
  have fewer := Finset.card_le_card inside
  rw [List.toFinset_card_of_nodup distinct] at fewer
  exact Nat.lt_succ_of_le fewer

/-- The walk behind a front part of the list. -/
theorem findVdev_rear (test : VfsDev N S → Option Bool) (passes : Nat → Bool) (rest : List Nat) {front : List Nat}
    (lists : Lists elsewhere memory (front ++ rest)) (tests : ∀ vdev ∈ rest, test (memory.vdev vdev) = some (passes vdev))
    (enough : rest.length < fuel) :
    findVdev memory test fuel ((rest.map Entry.link).headD .head) = some (rest.find? passes) := by
  induction rest generalizing front fuel with
  | nil =>
    obtain ⟨rounds, rfl⟩ := Nat.exists_eq_succ_of_ne_zero (Nat.ne_zero_of_lt enough)
    rfl
  | cons vdev rest ih =>
    obtain ⟨rounds, rfl⟩ := Nat.exists_eq_succ_of_ne_zero (Nat.ne_zero_of_lt enough)
    have ring := lists.ring
    rw [List.map_append, List.map_cons] at ring
    have next : listNext memory.links (.link vdev) = (rest.map Entry.link).headD .head := ring.next_node
    have reads := lists.readVdev_exact (List.mem_append_right front (List.mem_cons_self ..))
    have later : Lists elsewhere memory ((front ++ [vdev]) ++ rest) := by simpa using lists
    have goesOn := ih later (fun other member => tests other (List.mem_cons_of_mem _ member)) (Nat.lt_of_succ_lt_succ enough)
    simp only [List.map_cons, List.headD_cons, findVdev, reads, Option.bind_eq_bind, Option.bind_some,
      tests vdev (List.mem_cons_self ..), next, goesOn, List.find?_cons]
    cases passes vdev <;> rfl

/-- A walk over the list finds its first entry that passes the test. -/
theorem findVdev_exact (lists : Lists elsewhere memory vdevs) {test : VfsDev N S → Option Bool} {passes : Nat → Bool}
    (tests : ∀ vdev ∈ vdevs, test (memory.vdev vdev) = some (passes vdev)) (enough : vdevs.length < fuel) :
    findVdev memory test fuel (listNext memory.links .head) = some (vdevs.find? passes) := by
  have first : listNext memory.links .head = (vdevs.map Entry.link).headD .head := lists.ring.next_head
  rw [first]
  have here : Lists elsewhere memory ([] ++ vdevs) := lists
  exact findVdev_rear test passes vdevs here tests enough

theorem isNamed_exact (lists : Lists elsewhere memory vdevs) (devname : Name) :
    ∀ vdev ∈ vdevs, isNamed memory devname (memory.vdev vdev) = some (decide (memory.nameOf vdev = devname)) := by
  intro vdev member
  rw [isNamed, lists.readName_exact member]
  rfl

end Lists

/-- The list in memory holds the devices of the table. -/
structure Holds (elsewhere : Finset Nat) (memory : DevMemory N S) (table : Table N S) (vdevs : List Nat) : Prop where
  lists : Lists elsewhere memory vdevs
  devices : ∀ name device, table name = some device ↔
    ∃ vdev ∈ vdevs, memory.nameOf vdev = name ∧ memory.device vdev = device

variable {table : Table N S} {device : Device N S}

namespace Holds

/-- A name of the table is that of one entry. -/
theorem found (holds : Holds elsewhere memory table vdevs) (isDevice : table devname = some device) :
    ∃ vdev ∈ vdevs, memory.nameOf vdev = devname ∧ memory.device vdev = device ∧
      ∀ passes : Nat → Bool, (∀ other ∈ vdevs, passes other = true → memory.nameOf other = devname) →
        vdevs.find? passes = if passes vdev then some vdev else none := by
  obtain ⟨vdev, member, isName, isSame⟩ := (holds.devices devname device).mp isDevice
  refine ⟨vdev, member, isName, isSame, fun passes named => ?_⟩
  have only : ∀ other ∈ vdevs, passes other = true → other = vdev := by
    intro other listed passed
    exact List.inj_on_of_nodup_map holds.lists.unique listed member ((named other listed passed).trans isName.symm)
  split
  · rename_i passed
    cases search : vdevs.find? passes with
    | none => exact absurd passed (List.find?_eq_none.mp search vdev member)
    | some other =>
      exact congrArg some (only other (List.mem_of_find?_eq_some search) (List.find?_some search))
  · rename_i fails
    refine List.find?_eq_none.mpr fun other listed passed => ?_
    rw [only other listed passed] at passed
    exact fails passed

/-- A name that is not in the table is that of no entry. -/
theorem absent (holds : Holds elsewhere memory table vdevs) (isFree : table devname = none) :
    ∀ vdev ∈ vdevs, memory.nameOf vdev ≠ devname := by
  intro vdev member isName
  have isDevice := (holds.devices devname (memory.device vdev)).mpr ⟨vdev, member, isName, rfl⟩
  rw [isFree] at isDevice
  cases isDevice

/-- The search by name. -/
theorem findNamed (holds : Holds elsewhere memory table vdevs) (devname : Name) (enough : vdevs.length < fuel) :
    ∃ found, findVdev memory (isNamed memory devname) fuel (listNext memory.links .head) = some found ∧
      (table devname = none ∧ found = none ∨
        ∃ vdev ∈ vdevs, found = some vdev ∧ memory.nameOf vdev = devname ∧ table devname = some (memory.device vdev)) := by
  refine ⟨_, holds.lists.findVdev_exact (holds.lists.isNamed_exact devname) enough, ?_⟩
  cases isDevice : table devname with
  | none =>
    left
    refine ⟨rfl, List.find?_eq_none.mpr fun vdev member => ?_⟩
    simpa using holds.absent isDevice vdev member
  | some device =>
    right
    obtain ⟨vdev, member, isName, isSame, search⟩ := holds.found isDevice
    refine ⟨vdev, member, ?_, isName, congrArg some isSame.symm⟩
    rw [search _ fun other _ passed => of_decide_eq_true passed, if_pos (decide_eq_true isName)]

theorem checkDevnameConflict_exact (holds : Holds elsewhere memory table vdevs) (devname : Name)
    (enough : vdevs.length < fuel) : checkDevnameConflict fuel memory devname = some (table devname).isNone := by
  obtain ⟨found, search, ⟨isFree, rfl⟩ | ⟨vdev, _, rfl, _, isDevice⟩⟩ := holds.findNamed devname enough
  · rw [checkDevnameConflict, search, isFree]
    rfl
  · rw [checkDevnameConflict, search, isDevice]
    rfl

/-- `find_mount` finds the device that is to mount on. -/
theorem findMount_exact (holds : Holds elsewhere memory table vdevs) (devname : Name) (enough : vdevs.length < fuel) :
    ((∀ device, table devname = some device → device.mountable = false) ∧
      findMount fuel memory devname = some (.error (-eNoDev))) ∨
    ∃ vdev ∈ vdevs, memory.nameOf vdev = devname ∧ table devname = some (memory.device vdev) ∧
      (memory.vdev vdev).mountable = true ∧ findMount fuel memory devname = some (.ok vdev) := by
  let passes : Nat → Bool := fun vdev => (memory.vdev vdev).mountable && decide (memory.nameOf vdev = devname)
  have tests : ∀ vdev ∈ vdevs, (if (memory.vdev vdev).mountable then isNamed memory devname (memory.vdev vdev)
      else some false) = some (passes vdev) := by
    intro vdev member
    simp only [passes]
    cases (memory.vdev vdev).mountable with
    | true => simpa using holds.lists.isNamed_exact devname vdev member
    | false => rfl
  have search : findVdev memory (fun fields => if fields.mountable then isNamed memory devname fields else some false)
      fuel (listNext memory.links .head) = some (vdevs.find? passes) := holds.lists.findVdev_exact tests enough
  have named : ∀ other ∈ vdevs, passes other = true → memory.nameOf other = devname := by
    intro other _ passed
    exact of_decide_eq_true (Bool.and_eq_true_iff.mp passed).2
  have unnamed : vdevs.find? passes = none → findMount fuel memory devname = some (.error (-eNoDev)) := by
    intro nothing
    simp only [findMount, search, nothing, Option.bind_eq_bind, Option.bind_some]
  cases isDevice : table devname with
  | none =>
    left
    refine ⟨fun _ isSome => (by cases isSome), unnamed (List.find?_eq_none.mpr fun vdev member passed => ?_)⟩
    exact holds.absent isDevice vdev member (named vdev member passed)
  | some device =>
    obtain ⟨vdev, member, isName, rfl, only⟩ := holds.found isDevice
    have result := only passes named
    cases mounts : (memory.vdev vdev).mountable with
    | true =>
      right
      refine ⟨vdev, member, isName, rfl, mounts, ?_⟩
      rw [if_pos (by simp only [passes, mounts, isName, decide_true, Bool.and_self])] at result
      simp only [findMount, search, result, Option.bind_eq_bind, Option.bind_some]
    | false =>
      left
      refine ⟨fun other isSame => Option.some.inj isSame ▸ mounts, unnamed (result.trans (if_neg ?_))⟩
      simp only [passes, mounts, Bool.false_and, Bool.false_eq_true, not_false_eq_true]

end Holds

/-! ## Changes of the list -/

/-- An entry with another file system. -/
def putFs (memory : DevMemory N S) (vdev : Nat) (fs : Option S) : DevMemory N S :=
  { memory with vdev := Function.update memory.vdev vdev { memory.vdev vdev with fs } }

theorem putFs_devname (memory : DevMemory N S) (vdev other : Nat) (fs : Option S) :
    ((putFs memory vdev fs).vdev other).devname = (memory.vdev other).devname := by
  by_cases same : other = vdev
  · subst same
    simp only [putFs, Function.update_self]
  · simp only [putFs, Function.update_of_ne same]

theorem putFs_nameOf (memory : DevMemory N S) (vdev other : Nat) (fs : Option S) :
    (putFs memory vdev fs).nameOf other = memory.nameOf other :=
  congrArg memory.text (putFs_devname memory vdev other fs)

theorem putFs_device (memory : DevMemory N S) (vdev other : Nat) (fs : Option S) :
    (putFs memory vdev fs).device other =
      if other = vdev then { memory.device vdev with fs } else memory.device other := by
  by_cases same : other = vdev
  · subst same
    simp only [DevMemory.device, putFs, Function.update_self, if_true]
  · simp only [DevMemory.device, putFs, Function.update_of_ne same, if_neg same]

theorem putFs_blocks (memory : DevMemory N S) (vdev : Nat) (fs : Option S) (vdevs : List Nat) :
    (putFs memory vdev fs).blocks vdevs = memory.blocks vdevs :=
  congrArg (vdevs ++ ·) (List.map_congr_left fun other _ => putFs_devname memory vdev other fs)

/-- A change of the file system of a device that can be mounted on changes the table at its name. -/
theorem Holds.putFs (holds : Holds elsewhere memory table vdevs) (member : vdev ∈ vdevs)
    (mounts : (memory.vdev vdev).mountable = true) (fs : Option S) :
    Holds elsewhere (putFs memory vdev fs)
      (Function.update table (memory.nameOf vdev) (some { memory.device vdev with fs })) vdevs where
  lists := by
    have lists := holds.lists
    refine ⟨lists.ring, ?_, ?_, ?_, ?_, ?_⟩
    · rw [putFs_blocks]
      exact lists.distinct
    · intro block
      rw [putFs_blocks]
      exact lists.held block
    · intro block
      rw [putFs_blocks]
      exact lists.apart block
    · rw [List.map_congr_left fun other _ => putFs_nameOf memory vdev other fs]
      exact lists.unique
    · intro other listed
      by_cases same : other = vdev
      · subst same
        left
        rcases lists.sound other listed with isDevice | ⟨raw, _⟩
        · simpa only [DevList.putFs, Function.update_self] using isDevice
        · rw [mounts] at raw
          cases raw
      · simpa only [DevList.putFs, Function.update_of_ne same] using lists.sound other listed
  devices := by
    intro name device
    have sameName : ∀ other ∈ vdevs, memory.nameOf other = memory.nameOf vdev → other = vdev :=
      fun other listed same => List.inj_on_of_nodup_map holds.lists.unique listed member same
    simp only [putFs_nameOf, putFs_device]
    by_cases same : name = memory.nameOf vdev
    · subst same
      rw [Function.update_self]
      constructor
      · intro isSame
        exact ⟨vdev, member, rfl, by rw [if_pos rfl]; exact Option.some.inj isSame⟩
      · rintro ⟨other, listed, isName, rfl⟩
        rw [if_pos (sameName other listed isName)]
    · have different : ∀ other, memory.nameOf other = name → other ≠ vdev := by
        rintro other isName rfl
        exact same isName.symm
      rw [Function.update_of_ne same, holds.devices name device]
      constructor
      · rintro ⟨other, listed, isName, isSame⟩
        exact ⟨other, listed, isName, (if_neg (different other isName)).trans isSame⟩
      · rintro ⟨other, listed, isName, isSame⟩
        exact ⟨other, listed, isName, (if_neg (different other isName)).symm.trans isSame⟩

/-- `vfs_mount` on the table. -/
theorem vfsMount_exact {result : Int} {stored : Option S} (holds : Holds elsewhere memory table vdevs)
    (stores : result = 0 ↔ stored.isSome) (enough : vdevs.length < fuel) :
    ∃ ret next after, vfsMount fuel memory devname result stored = some (ret, next) ∧
      (Answer.ret ret, after) = table.mount devname result stored ∧ Holds elsewhere next after vdevs := by
  rcases holds.findMount_exact devname enough with ⟨unmountable, search⟩ | ⟨vdev, member, rfl, isDevice, mounts, search⟩
  · refine ⟨-eNoDev, memory, table, ?_, ?_, holds⟩
    · simp only [vfsMount, search, Option.bind_eq_bind, Option.bind_some]
    · unfold Table.mount
      split
      · rfl
      · rename_i device isDevice
        rw [if_pos (unmountable device isDevice)]
  · have reads := holds.lists.readVdev_exact member
    have mountable : (memory.device vdev).mountable = true := mounts
    by_cases busy : (memory.vdev vdev).fs.isSome
    · refine ⟨-eBusy, memory, table, ?_, ?_, holds⟩
      · simp only [vfsMount, search, Option.bind_eq_bind, Option.bind_some, reads, if_pos busy]
      · have isBusy : (memory.device vdev).fs.isSome := busy
        simp only [Table.mount, isDevice, mountable, Bool.true_eq_false, if_false, if_pos isBusy]
    · have raw : ¬ ((memory.vdev vdev).mountable = false ∨ (memory.vdev vdev).devnode.isNone) := by
        rcases holds.lists.sound vdev member with isNode | ⟨isRaw, _⟩
        · simp only [mounts, Bool.true_eq_false, false_or, Option.isNone_iff_eq_none]
          exact Option.isSome_iff_ne_none.mp isNode
        · rw [mounts] at isRaw
          cases isRaw
      have writes : writeVdev memory vdev { memory.vdev vdev with fs := stored } = some (putFs memory vdev stored) :=
        if_pos (holds.lists.entry_held member)
      have asserted : ¬ (result = 0 ∧ stored.isNone) := by
        rintro ⟨succeeds, nothing⟩
        rw [Option.isNone_iff_eq_none] at nothing
        rw [nothing] at stores
        cases stores.mp succeeds
      refine ⟨result, putFs memory vdev stored, _, ?_, ?_, holds.putFs member mounts stored⟩
      · simp only [vfsMount, search, Option.bind_eq_bind, Option.bind_some, reads, if_neg busy, if_neg raw, writes,
          if_neg asserted]
      · have isFree : ¬ (memory.device vdev).fs.isSome := busy
        simp only [Table.mount, isDevice, mountable, Bool.true_eq_false, if_false, if_neg isFree]

/-- `vfs_unmount` on the table. -/
theorem vfsUnmount_exact {synced unmounted : Int} (holds : Holds elsewhere memory table vdevs)
    (enough : vdevs.length < fuel) :
    ∃ ret next after, vfsUnmount fuel memory devname synced unmounted = some (ret, next) ∧
      (Answer.ret ret, after) = table.unmount devname synced unmounted ∧ Holds elsewhere next after vdevs := by
  rcases holds.findMount_exact devname enough with ⟨unmountable, search⟩ | ⟨vdev, member, rfl, isDevice, mounts, search⟩
  · refine ⟨-eNoDev, memory, table, ?_, ?_, holds⟩
    · simp only [vfsUnmount, search, Option.bind_eq_bind, Option.bind_some]
    · unfold Table.unmount
      split
      · rfl
      · rename_i device isDevice
        rw [if_pos (unmountable device isDevice)]
  · have reads := holds.lists.readVdev_exact member
    have isMount : ¬ (memory.vdev vdev).mountable = false := by
      rw [mounts]
      decide
    have mountable : ¬ (memory.device vdev).mountable = false := isMount
    have sameFs : (memory.device vdev).fs = (memory.vdev vdev).fs := rfl
    have writes : writeVdev memory vdev { memory.vdev vdev with fs := none } = some (putFs memory vdev none) :=
      if_pos (holds.lists.entry_held member)
    simp only [vfsUnmount, search, Option.bind_eq_bind, Option.bind_some, reads, Table.unmount, isDevice,
      if_neg isMount, if_neg mountable, sameFs, writes]
    by_cases isFree : (memory.vdev vdev).fs.isNone
    · simp only [if_pos isFree]
      exact ⟨_, _, _, rfl, rfl, holds⟩
    · simp only [if_neg isFree]
      by_cases unsynced : synced ≠ 0
      · simp only [if_pos unsynced]
        exact ⟨_, _, _, rfl, rfl, holds⟩
      · simp only [if_neg unsynced]
        by_cases stays : unmounted ≠ 0
        · simp only [if_pos stays]
          exact ⟨_, _, _, rfl, rfl, holds⟩
        · simp only [if_neg stays]
          exact ⟨_, _, _, rfl, rfl, holds.putFs member mounts none⟩

/-! ## Additions -/

/-- Writes to blocks that the list does not own leave the list alone. -/
theorem Holds.frame {others : Finset Nat} (holds : Holds elsewhere memory table vdevs)
    (links : after.links = memory.links) (entries : ∀ vdev ∈ vdevs, after.vdev vdev = memory.vdev vdev)
    (names : ∀ vdev ∈ vdevs, after.text (memory.vdev vdev).devname = memory.text (memory.vdev vdev).devname)
    (held : ∀ block, block ∈ after.held ↔ block ∈ others ∨ block ∈ memory.blocks vdevs)
    (apart : ∀ block ∈ others, block ∉ memory.blocks vdevs) : Holds others after table vdevs := by
  have sameBlocks : after.blocks vdevs = memory.blocks vdevs :=
    congrArg (vdevs ++ ·) (List.map_congr_left fun vdev member => congrArg VfsDev.devname (entries vdev member))
  have sameName : ∀ vdev ∈ vdevs, after.nameOf vdev = memory.nameOf vdev := by
    intro vdev member
    rw [DevMemory.nameOf, entries vdev member]
    exact names vdev member
  have lists := holds.lists
  constructor
  · refine ⟨links ▸ lists.ring, sameBlocks ▸ lists.distinct, sameBlocks ▸ held, sameBlocks ▸ apart, ?_, ?_⟩
    · rw [List.map_congr_left sameName]
      exact lists.unique
    · intro vdev member
      rw [entries vdev member]
      exact lists.sound vdev member
  · intro name device
    rw [holds.devices name device]
    apply exists_congr
    intro vdev
    apply and_congr_right
    intro member
    rw [sameName vdev member, DevMemory.device, DevMemory.device, entries vdev member]

/-- The memory with two more blocks, one of them with a name. -/
def lent (memory : DevMemory N S) (devname : Name) (sDevname vdev : Nat) : DevMemory N S :=
  { memory with
    text := Function.update memory.text sDevname devname
    held := insert vdev (insert sDevname memory.held) }

/-- A block that is not held is none of the list. -/
theorem Lists.fresh (lists : Lists elsewhere memory vdevs) {block : Nat} (isFree : block ∉ memory.held) :
    block ∉ elsewhere ∧ block ∉ memory.blocks vdevs := by
  rw [lists.held block] at isFree
  exact not_or.mp isFree

theorem Lists.name_ne (lists : Lists elsewhere memory vdevs) {block : Nat} (isFree : block ∉ memory.held) :
    ∀ vdev ∈ vdevs, (memory.vdev vdev).devname ≠ block := by
  rintro vdev member rfl
  exact isFree (lists.name_held member)

theorem Holds.lent {sDevname : Nat} (holds : Holds elsewhere memory table vdevs) (isFree : sDevname ∉ memory.held)
    (isFreeToo : vdev ∉ memory.held) (devname : Name) :
    Holds (insert vdev (insert sDevname elsewhere)) (lent memory devname sDevname vdev) table vdevs := by
  have lists := holds.lists
  apply holds.frame
  case links => rfl
  case entries => exact fun _ _ => rfl
  case names => exact fun other member => Function.update_of_ne (lists.name_ne isFree other member) ..
  case held =>
    intro block
    simp only [DevList.lent, Finset.mem_insert, lists.held block]
    tauto
  case apart =>
    intro block member
    rcases Finset.mem_insert.mp member with rfl | member
    · exact (lists.fresh isFreeToo).2
    · rcases Finset.mem_insert.mp member with rfl | member
      · exact (lists.fresh isFree).2
      · exact lists.apart block member

/-- When both blocks are given back, only the bytes of the one have changed. -/
theorem Holds.returned {sDevname : Nat} (holds : Holds elsewhere memory table vdevs) (isFree : sDevname ∉ memory.held)
    (devname : Name) :
    Holds elsewhere { memory with text := Function.update memory.text sDevname devname } table vdevs := by
  have lists := holds.lists
  exact holds.frame rfl (fun _ _ => rfl)
    (fun other member => Function.update_of_ne (lists.name_ne isFree other member) ..) lists.held lists.apart

/-- The new entry in front of the others. -/
def added (memory : DevMemory N S) (devname : Name) (sDevname vdev : Nat) (device : Device N S) : DevMemory N S :=
  { links := listAdd memory.links .head (.link vdev)
    vdev := Function.update memory.vdev vdev ⟨sDevname, device.devnode, device.fs, device.mountable⟩
    text := Function.update memory.text sDevname devname
    held := insert vdev (insert sDevname memory.held) }

theorem added_entry (memory : DevMemory N S) (devname : Name) (sDevname vdev : Nat) (device : Device N S) :
    (added memory devname sDevname vdev device).vdev vdev =
      ⟨sDevname, device.devnode, device.fs, device.mountable⟩ := Function.update_self ..

theorem added_name (memory : DevMemory N S) (devname : Name) (sDevname vdev : Nat) (device : Device N S) :
    (added memory devname sDevname vdev device).nameOf vdev = devname := by
  rw [DevMemory.nameOf, added_entry]
  exact Function.update_self ..

/-- The other entries stay as they are. -/
theorem Lists.added_entries (lists : Lists elsewhere memory vdevs) (isFreeToo : vdev ∉ memory.held) (devname : Name)
    (sDevname : Nat) (device : Device N S) :
    ∀ other ∈ vdevs, (added memory devname sDevname vdev device).vdev other = memory.vdev other := by
  intro other member
  have ne : other ≠ vdev := by
    rintro rfl
    exact isFreeToo (lists.entry_held member)
  exact Function.update_of_ne ne ..

/-- So do their names. -/
theorem Lists.added_names {sDevname : Nat} (lists : Lists elsewhere memory vdevs) (isFree : sDevname ∉ memory.held)
    (isFreeToo : vdev ∉ memory.held) (devname : Name) (device : Device N S) :
    ∀ other ∈ vdevs, (added memory devname sDevname vdev device).nameOf other = memory.nameOf other := by
  intro other member
  rw [DevMemory.nameOf, lists.added_entries isFreeToo devname sDevname device other member]
  exact Function.update_of_ne (lists.name_ne isFree other member) ..

theorem Lists.added_blocks (lists : Lists elsewhere memory vdevs) (isFreeToo : vdev ∉ memory.held) (devname : Name)
    (sDevname : Nat) (device : Device N S) :
    (added memory devname sDevname vdev device).blocks (vdev :: vdevs) =
      vdev :: (vdevs ++ sDevname :: vdevs.map fun other => (memory.vdev other).devname) := by
  have sameNames : (vdevs.map fun other => ((added memory devname sDevname vdev device).vdev other).devname) =
      vdevs.map fun other => (memory.vdev other).devname :=
    List.map_congr_left fun other member =>
      congrArg VfsDev.devname (lists.added_entries isFreeToo devname sDevname device other member)
  simp only [DevMemory.blocks, List.map_cons, added_entry, sameNames, List.cons_append]

/-- The list with the new entry. -/
theorem Lists.added {sDevname : Nat} (lists : Lists elsewhere memory vdevs) (isFree : sDevname ∉ memory.held)
    (isFreeToo : vdev ∉ memory.held) (different : sDevname ≠ vdev) (isNew : ∀ other ∈ vdevs, memory.nameOf other ≠ devname)
    (sound : device.devnode.isSome ∨ device.mountable = false ∧ device.fs.isSome) :
    Lists elsewhere (added memory devname sDevname vdev device) (vdev :: vdevs) := by
  obtain ⟨notElsewhere, notBlock⟩ := lists.fresh isFree
  obtain ⟨notElsewhereToo, notBlockToo⟩ := lists.fresh isFreeToo
  simp only [DevMemory.blocks, List.mem_append, not_or] at notBlock notBlockToo
  have names := lists.added_names isFree isFreeToo devname device
  have blocks := lists.added_blocks isFreeToo devname sDevname device
  constructor
  case ring =>
    rw [List.map_cons]
    apply listAdd_first _ lists.ring
    simpa using notBlockToo.1
  case distinct =>
    have distinct := lists.distinct
    simp only [DevMemory.blocks] at distinct
    rw [blocks, List.nodup_cons, List.nodup_middle, List.nodup_cons]
    simp only [List.mem_append, List.mem_cons, not_or]
    exact ⟨⟨notBlockToo.1, different.symm, notBlockToo.2⟩, ⟨notBlock.1, notBlock.2⟩, distinct⟩
  case held =>
    intro block
    rw [blocks]
    simp only [DevList.added, Finset.mem_insert, lists.held block, DevMemory.blocks, List.mem_cons, List.mem_append]
    tauto
  case apart =>
    intro block member
    have apart := lists.apart block member
    simp only [DevMemory.blocks, List.mem_append, not_or] at apart
    rw [blocks]
    simp only [List.mem_cons, List.mem_append, not_or]
    refine ⟨?_, apart.1, ?_, apart.2⟩
    · rintro rfl
      exact notElsewhereToo member
    · rintro rfl
      exact notElsewhere member
  case unique =>
    rw [List.map_cons, added_name, List.map_congr_left names, List.nodup_cons]
    refine ⟨fun listed => ?_, lists.unique⟩
    obtain ⟨other, member, isName⟩ := List.mem_map.mp listed
    exact isNew other member isName
  case sound =>
    intro other listed
    rcases List.mem_cons.mp listed with rfl | member
    · rw [added_entry]
      exact sound
    · rw [lists.added_entries isFreeToo devname sDevname device other member]
      exact lists.sound other member

/-- It holds the table with the new device. -/
theorem Holds.added {sDevname : Nat} (holds : Holds elsewhere memory table vdevs) (isFree : sDevname ∉ memory.held)
    (isFreeToo : vdev ∉ memory.held) (different : sDevname ≠ vdev) (isNew : table devname = none)
    (sound : device.devnode.isSome ∨ device.mountable = false ∧ device.fs.isSome) :
    Holds elsewhere (added memory devname sDevname vdev device) (Function.update table devname (some device))
      (vdev :: vdevs) := by
  have lists := holds.lists
  have entries := lists.added_entries isFreeToo devname sDevname device
  have names := lists.added_names isFree isFreeToo devname device
  have absent := holds.absent isNew
  have isDevice : (DevList.added memory devname sDevname vdev device).device vdev = device := by
    rw [DevMemory.device, added_entry]
  refine ⟨lists.added isFree isFreeToo different absent sound, fun tested found => ?_⟩
  by_cases same : tested = devname
  · subst same
    rw [Function.update_self]
    constructor
    · intro isSame
      exact ⟨vdev, List.mem_cons_self .., added_name .., isDevice.trans (Option.some.inj isSame)⟩
    · rintro ⟨other, listed, isName, rfl⟩
      rcases List.mem_cons.mp listed with rfl | member
      · rw [isDevice]
      · exact absurd ((names other member).symm.trans isName) (absent other member)
  · rw [Function.update_of_ne same, holds.devices tested found]
    constructor
    · rintro ⟨other, member, isName, isSame⟩
      refine ⟨other, List.mem_cons_of_mem _ member, (names other member).trans isName, ?_⟩
      rw [DevMemory.device, entries other member]
      exact isSame
    · rintro ⟨other, listed, isName, isSame⟩
      rcases List.mem_cons.mp listed with rfl | member
      · exact absurd (isName.symm.trans (added_name ..)) same
      · rw [DevMemory.device, entries other member] at isSame
        exact ⟨other, member, (names other member).symm.trans isName, isSame⟩

/-- The blocks that are given back are held no longer. -/
theorem free_lent {sDevname : Nat} (isFree : sDevname ∉ memory.held) (isFreeToo : vdev ∉ memory.held)
    (different : sDevname ≠ vdev) (devname : Name) :
    ((kfree (lent memory devname sDevname vdev) vdev).bind fun memory => kfree memory sDevname) =
      some { memory with text := Function.update memory.text sDevname devname } := by
  have notThere : vdev ∉ insert sDevname memory.held := by simp [different.symm, isFreeToo]
  have first : kfree (lent memory devname sDevname vdev) vdev =
      some { lent memory devname sDevname vdev with held := insert sDevname memory.held } := by
    simp only [kfree, lent, Finset.mem_insert_self, if_true, Finset.erase_insert notThere]
  rw [first, Option.bind_some]
  simp only [kfree, lent, Finset.mem_insert_self, if_true, Finset.erase_insert isFree]

/-- `vfs_do_add` on the table. -/
theorem vfsDoAdd_exact {devnode : Option N} {fs : Option S} {mountable : Bool} {first second : Option Nat}
    (holds : Holds elsewhere memory table vdevs) (sound : devnode.isSome ∨ mountable = false ∧ fs.isSome)
    (isFree : ∀ block, first = some block ∨ second = some block → block ∉ memory.held)
    (different : first.isSome → first ≠ second) (enough : vdevs.length < fuel) :
    ∃ ret next after others, vfsDoAdd fuel memory devname devnode fs mountable first second = some (ret, next) ∧
      (Answer.ret ret, after) = table.add devname ⟨devnode, fs, mountable⟩ (first.isSome && second.isSome) ∧
      Holds elsewhere next after others := by
  have asserted : ¬ (devnode.isNone ∧ mountable) := by
    rintro ⟨nothing, mounts⟩
    rcases sound with isSome | ⟨raw, _⟩
    · rw [Option.isNone_iff_eq_none.mp nothing] at isSome
      cases isSome
    · rw [raw] at mounts
      cases mounts
  simp only [vfsDoAdd, if_neg asserted, Table.add]
  by_cases long : devname.length > fsMaxDnameLen
  · simp only [if_pos long]
    exact ⟨_, _, _, vdevs, rfl, rfl, holds⟩
  simp only [if_neg long]
  cases first with
  | none =>
    simp only [Option.isSome_none, Bool.false_and, if_true]
    exact ⟨_, _, _, vdevs, rfl, rfl, holds⟩
  | some sDevname =>
    have free := isFree sDevname (Or.inl rfl)
    have copies : strdup memory devname sDevname = some { memory with
        text := Function.update memory.text sDevname devname, held := insert sDevname memory.held } := by
      simp only [strdup, kmalloc, if_neg free, Option.map_some]
    simp only [copies, Option.bind_eq_bind, Option.bind_some, Option.isSome_some, Bool.true_and]
    cases second with
    | none =>
      simp only [kfree, Finset.mem_insert_self, if_true, Finset.erase_insert free, Option.bind_some, Option.isSome_none]
      exact ⟨_, _, _, vdevs, rfl, rfl, holds.returned free devname⟩
    | some vdev =>
      have freeToo := isFree vdev (Or.inr rfl)
      have apart : sDevname ≠ vdev := fun same => different rfl (congrArg some same)
      have notThere : vdev ∉ insert sDevname memory.held := by simp [apart.symm, freeToo]
      have lends := holds.lent free freeToo devname
      have checks := lends.checkDevnameConflict_exact devname enough
      have takes : kmalloc { memory with
          text := Function.update memory.text sDevname devname, held := insert sDevname memory.held } vdev =
          some (lent memory devname sDevname vdev) := if_neg notThere
      simp only [takes, checks, Option.bind_some, Option.isSome_some, Bool.true_eq_false, if_false]
      cases isDevice : table devname with
      | some device =>
        have gives := free_lent free freeToo apart devname
        obtain ⟨middle, gave, gives⟩ := Option.bind_eq_some_iff.mp gives
        simp only [Option.isNone_some, Bool.false_eq_true, if_false, gave, gives, Option.bind_some, Option.isSome_some, if_true]
        exact ⟨_, _, _, vdevs, rfl, rfl, holds.returned free devname⟩
      | none =>
        have there : vdev ∈ (lent memory devname sDevname vdev).held := Finset.mem_insert_self ..
        simp only [Option.isNone_none, if_true, writeVdev, if_pos there, Option.bind_some, Option.isSome_none,
          Bool.false_eq_true, if_false]
        have adds : Holds elsewhere (added memory devname sDevname vdev ⟨devnode, fs, mountable⟩)
            (Function.update table devname (some ⟨devnode, fs, mountable⟩)) (vdev :: vdevs) :=
          holds.added free freeToo apart isDevice sound
        exact ⟨_, _, _, vdev :: vdevs, rfl, rfl, adds⟩

/-! ## Unmounting all -/

/-- One round of `vfs_unmount_all` settles the device of its entry. -/
theorem unmountRound_exact (results : S → Int × Int) (holds : Holds elsewhere memory table vdevs) (member : vdev ∈ vdevs) :
    ∃ next after, (∀ rounds, unmountLoop results (rounds + 1) (.link vdev) memory =
        unmountLoop results rounds (listNext memory.links (.link vdev)) next) ∧ Holds elsewhere next after vdevs ∧
      next.links = memory.links ∧ next.nameOf = memory.nameOf ∧
      after = Function.update table (memory.nameOf vdev) (some ((memory.device vdev).settle results)) := by
  have reads := holds.lists.readVdev_exact member
  have isDevice : table (memory.nameOf vdev) = some (memory.device vdev) :=
    (holds.devices _ _).mpr ⟨vdev, member, rfl, rfl⟩
  have sameFs : (memory.device vdev).fs = (memory.vdev vdev).fs := rfl
  have sameMount : (memory.device vdev).mountable = (memory.vdev vdev).mountable := rfl
  have stays : (memory.device vdev).settle results = memory.device vdev →
      table = Function.update table (memory.nameOf vdev) (some ((memory.device vdev).settle results)) := by
    intro same
    rw [same, ← isDevice, Function.update_eq_self]
  cases hasFs : (memory.vdev vdev).fs with
  | none =>
    refine ⟨memory, table, fun rounds => ?_, holds, rfl, rfl, stays ?_⟩
    · simp only [unmountLoop, reads, Option.bind_eq_bind, Option.bind_some, hasFs]
    · simp only [Device.settle, sameFs, hasFs]
  | some fs =>
    by_cases keeps : (memory.vdev vdev).mountable = false ∨ (results fs).1 ≠ 0 ∨ (results fs).2 ≠ 0
    · refine ⟨memory, table, fun rounds => ?_, holds, rfl, rfl, stays ?_⟩
      · simp only [unmountLoop, reads, Option.bind_eq_bind, Option.bind_some, hasFs, if_pos keeps]
      · simp only [Device.settle, sameFs, hasFs, sameMount, if_pos keeps]
    · have mounts : (memory.vdev vdev).mountable = true := by
        rw [not_or, Bool.not_eq_false] at keeps
        exact keeps.1
      have writes : writeVdev memory vdev { memory.vdev vdev with fs := none } = some (putFs memory vdev none) :=
        if_pos (holds.lists.entry_held member)
      refine ⟨putFs memory vdev none, _, fun rounds => ?_, holds.putFs member mounts none, rfl, ?_, ?_⟩
      · simp only [unmountLoop, reads, Option.bind_eq_bind, Option.bind_some, hasFs, if_neg keeps, writes]
      · funext other
        exact putFs_nameOf memory vdev other none
      · simp only [Device.settle, sameFs, hasFs, sameMount, if_neg keeps]

/-- The loop settles the devices of the entries behind a front part of the list. -/
theorem unmountLoop_rear (results : S → Int × Int) (rest : List Nat) {front : List Nat}
    (holds : Holds elsewhere memory table (front ++ rest)) (enough : rest.length < fuel) :
    ∃ next after, unmountLoop results fuel ((rest.map Entry.link).headD .head) memory = some next ∧
      Holds elsewhere next after (front ++ rest) ∧
      (∀ vdev ∈ rest, after (memory.nameOf vdev) = (table (memory.nameOf vdev)).map (Device.settle results)) ∧
      ∀ name, (∀ vdev ∈ rest, memory.nameOf vdev ≠ name) → after name = table name := by
  induction rest generalizing front fuel memory table with
  | nil =>
    obtain ⟨rounds, rfl⟩ := Nat.exists_eq_succ_of_ne_zero (Nat.ne_zero_of_lt enough)
    exact ⟨memory, table, rfl, holds, fun _ member => absurd member List.not_mem_nil, fun _ _ => rfl⟩
  | cons vdev rest ih =>
    obtain ⟨rounds, rfl⟩ := Nat.exists_eq_succ_of_ne_zero (Nat.ne_zero_of_lt enough)
    have member : vdev ∈ front ++ vdev :: rest := List.mem_append_right _ (List.mem_cons_self ..)
    have ring := holds.lists.ring
    rw [List.map_append, List.map_cons] at ring
    have isNext : listNext memory.links (.link vdev) = (rest.map Entry.link).headD .head := ring.next_node
    have isDevice : table (memory.nameOf vdev) = some (memory.device vdev) :=
      (holds.devices _ _).mpr ⟨vdev, member, rfl, rfl⟩
    have unique := holds.lists.unique
    rw [List.map_append, List.map_cons] at unique
    have others : ∀ other ∈ rest, memory.nameOf other ≠ memory.nameOf vdev := by
      intro other listed same
      exact (List.nodup_cons.mp (List.nodup_append.mp unique).2.1).1 (same ▸ List.mem_map_of_mem listed)
    obtain ⟨middle, settled, round, still, links, names, isSettled⟩ := unmountRound_exact results holds member
    have later : Holds elsewhere middle settled ((front ++ [vdev]) ++ rest) := by
      simpa only [List.append_assoc, List.singleton_append] using still
    obtain ⟨next, after, loop, ends, changed, kept⟩ := ih later (Nat.lt_of_succ_lt_succ enough)
    rw [names] at changed kept
    refine ⟨next, after, ?_, by simpa only [List.append_assoc, List.singleton_append] using ends, ?_, ?_⟩
    · rw [List.map_cons, List.headD_cons, round, isNext, loop]
    · intro other listed
      rcases List.mem_cons.mp listed with rfl | listed
      · rw [kept _ others, isSettled, Function.update_self, isDevice, Option.map_some]
      · rw [changed other listed, isSettled, Function.update_of_ne (others other listed)]
    · intro name apart
      have ne : name ≠ memory.nameOf vdev := fun same => apart vdev (List.mem_cons_self ..) same.symm
      rw [kept name fun other listed => apart other (List.mem_cons_of_mem _ listed), isSettled, Function.update_of_ne ne]

/-- `vfs_unmount_all` on the table. -/
theorem vfsUnmountAll_exact (results : S → Int × Int) (holds : Holds elsewhere memory table vdevs)
    (enough : vdevs.length < fuel) :
    ∃ next, vfsUnmountAll fuel memory results = some (0, next) ∧
      Holds elsewhere next (fun name => (table name).map (Device.settle results)) vdevs := by
  have settles : ∀ after : Table N S,
      (∀ vdev ∈ vdevs, after (memory.nameOf vdev) = (table (memory.nameOf vdev)).map (Device.settle results)) →
      (∀ name, (∀ vdev ∈ vdevs, memory.nameOf vdev ≠ name) → after name = table name) →
      after = fun name => (table name).map (Device.settle results) := by
    intro after changed kept
    funext name
    cases isDevice : table name with
    | none => rw [kept name (holds.absent isDevice), isDevice, Option.map_none]
    | some device =>
      obtain ⟨vdev, member, isName, _⟩ := (holds.devices name device).mp isDevice
      rw [← isDevice, ← isName, changed vdev member]
  unfold vfsUnmountAll
  split
  · rename_i empty
    have nothing : vdevs = [] := by simpa using (listEmpty_iff holds.lists.ring).mp empty
    subst nothing
    have same := settles table (fun _ member => absurd member List.not_mem_nil) fun _ _ => rfl
    exact ⟨memory, rfl, same ▸ holds⟩
  · have here : Holds elsewhere memory table ([] ++ vdevs) := holds
    obtain ⟨next, after, loop, ends, changed, kept⟩ := unmountLoop_rear results vdevs here enough
    have first : listNext memory.links .head = (vdevs.map Entry.link).headD .head := holds.lists.ring.next_head
    rw [first, loop]
    exact ⟨next, rfl, settles after changed kept ▸ ends⟩

/-! ## Reading the table -/

/-- `vfs_get_root` on the table. -/
theorem vfsGetRoot_exact (holds : Holds elsewhere memory table vdevs) (devname : Name) (enough : vdevs.length < fuel) :
    vfsGetRoot fuel memory devname = some (((table devname).map Device.root).getD (.error (-eNoDev))) := by
  obtain ⟨found, search, outcome⟩ := holds.findNamed devname enough
  unfold vfsGetRoot
  split
  · rename_i empty
    have nothing : vdevs = [] := by simpa using (listEmpty_iff holds.lists.ring).mp empty
    rcases outcome with ⟨isFree, _⟩ | ⟨vdev, member, _⟩
    · rw [isFree]
      rfl
    · rw [nothing] at member
      cases member
  · rw [search]
    rcases outcome with ⟨isFree, rfl⟩ | ⟨vdev, member, rfl, isName, isDevice⟩
    · rw [isFree]
      rfl
    · have sound := holds.lists.sound vdev member
      simp only [Option.bind_eq_bind, Option.bind_some, holds.lists.readVdev_exact member, isDevice, Option.map_some,
        Option.getD_some, Device.root, DevMemory.device]
      cases hasFs : (memory.vdev vdev).fs with
      | some fs => rfl
      | none =>
        rw [hasFs] at sound
        obtain ⟨node, isNode⟩ : ∃ node, (memory.vdev vdev).devnode = some node := by
          rcases sound with isSome | ⟨_, impossible⟩
          · exact Option.isSome_iff_exists.mp isSome
          · cases impossible
        rw [isNode]
        cases (memory.vdev vdev).mountable <;> rfl

/-- The table of the list of devices that path names go through, with one file system. -/
def vdevTable (vdevList : List Vfs.VfsDev) : Table Nat Unit := fun name =>
  (vdevList.find? fun vdev => vdev.devname = name).map fun vdev =>
    ⟨vdev.devnode, if vdev.fs then some () else none, vdev.mountable⟩

/-- A path that starts with the name of a device goes where the list in memory sends it. -/
theorem vfsGetRoot_follows {F : Type} {memory : DevMemory Nat Unit} {vdevs : List Nat} (disk : Nat → Int)
    (room : Nat → Bool) (state : Vfs.VfsState F) (holds : Holds elsewhere memory (vdevTable state.vdevList) vdevs)
    (devname : Name) (enough : vdevs.length < fuel) :
    ∃ found, vfsGetRoot fuel memory devname = some found ∧
      Vfs.vfsGetRoot disk room state devname =
        match found with
        | .error ret => some (.error ret, state)
        | .ok (.fs _) => (Vfs.sfsGetRoot disk room state).map fun (node, state) => (.ok node, state)
        | .ok (.devnode index) =>
            (Vfs.vopRefInc state (.device index)).map fun state => (.ok (.device index), state) := by
  refine ⟨_, vfsGetRoot_exact holds devname enough, ?_⟩
  unfold Vfs.vfsGetRoot
  cases isVdev : state.vdevList.find? fun vdev => vdev.devname = devname with
  | none =>
    have isFree : vdevTable state.vdevList devname = none := by rw [vdevTable, isVdev, Option.map_none]
    rw [isFree]
    rfl
  | some vdev =>
    have isDevice : vdevTable state.vdevList devname =
        some ⟨vdev.devnode, if vdev.fs then some () else none, vdev.mountable⟩ := by
      rw [vdevTable, isVdev, Option.map_some]
    obtain ⟨entry, member, _, isSame⟩ := (holds.devices _ _).mp isDevice
    have sound := holds.lists.sound entry member
    obtain ⟨isNode, isFs, isMount⟩ := Device.mk.inj isSame
    rw [isNode, isFs, isMount] at sound
    rw [isDevice, Option.map_some, Option.getD_some]
    simp only [Vfs.getVdevRoot, Device.root]
    cases mounted : vdev.fs with
    | true => rfl
    | false =>
      simp only [mounted, Bool.false_eq_true, if_false, Option.isSome_none, and_false, or_false] at sound ⊢
      obtain ⟨index, isIndex⟩ := Option.isSome_iff_exists.mp sound
      rw [isIndex]
      cases vdev.mountable <;> rfl

/-- `vfs_get_devname` on the table. -/
theorem vfsGetDevname_exact [DecidableEq S] (holds : Holds elsewhere memory table vdevs) (fs : S)
    (enough : vdevs.length < fuel) : ∃ found, vfsGetDevname fuel memory fs = some found ∧
      match found with
      | some name => ∃ device, table name = some device ∧ device.fs = some fs
      | none => ∀ name device, table name = some device → device.fs ≠ some fs := by
  let passes : Nat → Bool := fun vdev => decide ((memory.vdev vdev).fs = some fs)
  have search : findVdev memory (fun fields => some (decide (fields.fs = some fs))) fuel (listNext memory.links .head) =
      some (vdevs.find? passes) := holds.lists.findVdev_exact (fun _ _ => rfl) enough
  simp only [vfsGetDevname, search, Option.bind_eq_bind, Option.bind_some]
  cases isFound : vdevs.find? passes with
  | none =>
    refine ⟨none, rfl, fun name device isDevice => ?_⟩
    obtain ⟨vdev, member, _, rfl⟩ := (holds.devices name device).mp isDevice
    have fails : ¬ decide ((memory.vdev vdev).fs = some fs) = true := List.find?_eq_none.mp isFound vdev member
    exact fun isFs => fails (decide_eq_true isFs)
  | some vdev =>
    have member := List.mem_of_find?_eq_some isFound
    have passed : passes vdev = true := List.find?_some isFound
    have mounted : (memory.vdev vdev).fs = some fs := of_decide_eq_true passed
    simp only [holds.lists.readVdev_exact member, holds.lists.readName_exact member, Option.bind_some, Option.map_some]
    exact ⟨some (memory.nameOf vdev), rfl, memory.device vdev,
      (holds.devices _ _).mpr ⟨vdev, member, rfl, rfl⟩, mounted⟩

/-! ## Whole runs -/

/-- The list holds a table, in blocks of its own. -/
def Stands (elsewhere : Finset Nat) (memory : DevMemory N S) (table : Table N S) : Prop :=
  ∃ vdevs, Holds elsewhere memory table vdevs

/-- `vfs_devlist_init` makes an empty table. -/
theorem vfsDevlistInit_stands (memory : DevMemory N S) :
    Stands memory.held (vfsDevlistInit memory) (fun _ => none) := by
  refine ⟨[], ⟨listInit_ring _ _, List.nodup_nil, fun block => ?_, fun _ _ => List.not_mem_nil, List.nodup_nil,
    fun _ member => absurd member List.not_mem_nil⟩, fun name device => ?_⟩
  · simp only [vfsDevlistInit, DevMemory.blocks, List.map_nil, List.append_nil, List.not_mem_nil, or_false]
  · simp only [reduceCtorEq, List.not_mem_nil, false_and, exists_false]

/-- A call on the list is accepted, and does to the table what its users expect. -/
theorem devStep_exact [DecidableEq S] {call : DevCall N S} (stands : Stands elsewhere memory table) (legal : DevLegal memory call) :
    ∃ answer next after, devStep memory call = some (answer, next) ∧ TableEffect call table answer after ∧
      Stands elsewhere next after := by
  obtain ⟨vdevs, holds⟩ := stands
  have enough := holds.lists.short
  have room : vdevs.length < memory.rounds + 2 := by omega
  cases call with
  | addFs devname fs first second =>
    obtain ⟨isFree, different⟩ := legal
    obtain ⟨ret, next, after, others, called, effect, still⟩ := @vfsDoAdd_exact N S elsewhere memory vdevs _ devname table
      none (some fs) false first second holds (Or.inr ⟨rfl, rfl⟩) isFree different room
    exact ⟨.ret ret, next, after, by simp only [devStep, vfsAddFs, called, Option.map_some], effect, others, still⟩
  | addDev devname devnode mountable first second =>
    obtain ⟨isFree, different⟩ := legal
    obtain ⟨ret, next, after, others, called, effect, still⟩ := @vfsDoAdd_exact N S elsewhere memory vdevs _ devname table
      (some devnode) none mountable first second holds (Or.inl rfl) isFree different room
    exact ⟨.ret ret, next, after, by simp only [devStep, vfsAddDev, called, Option.map_some], effect, others, still⟩
  | mount devname result stored =>
    obtain ⟨ret, next, after, called, effect, still⟩ := vfsMount_exact holds legal enough
    exact ⟨.ret ret, next, after, by simp only [devStep, called, Option.map_some], effect, vdevs, still⟩
  | unmount devname synced unmounted =>
    obtain ⟨ret, next, after, called, effect, still⟩ := vfsUnmount_exact holds enough
    exact ⟨.ret ret, next, after, by simp only [devStep, called, Option.map_some], effect, vdevs, still⟩
  | unmountAll results =>
    obtain ⟨next, called, still⟩ := vfsUnmountAll_exact results holds enough
    exact ⟨.ret 0, next, _, by simp only [devStep, called, Option.map_some], ⟨rfl, rfl⟩, vdevs, still⟩
  | getRoot devname =>
    have called := vfsGetRoot_exact holds devname enough
    exact ⟨_, memory, table, by simp only [devStep, called, Option.map_some], ⟨rfl, rfl⟩, vdevs, holds⟩
  | getDevname fs =>
    obtain ⟨found, called, effect⟩ := vfsGetDevname_exact holds fs enough
    exact ⟨.devname found, memory, table, by simp only [devStep, called, Option.map_some], ⟨rfl, found, rfl, effect⟩,
      vdevs, holds⟩

/-- In every run of additions, mounts, unmounts and searches, with `kmalloc` and the file systems
failing at any call, the list of devices answers as a table from names to devices does. It
holds what the table holds, in blocks of its own beside the ones held before the run, so no
block is lost or used when it is free; and the next call is accepted. -/
theorem vdev_list_exact [DecidableEq S] {last : DevMemory N S} {returned : List (DevCall N S × Answer N S)}
    (serial : Serial DevEffect (vfsDevlistInit memory) returned last) :
    ∃ table, Serial TableEffect (fun _ => none) returned table ∧ Stands memory.held last table ∧
      ∀ call, DevLegal last call → ∃ answer next, devStep last call = some (answer, next) := by
  obtain ⟨table, answers, stands⟩ := serial.simulates (vfsDevlistInit_stands memory)
    fun {call answer before after there} _ stands effect => by
      obtain ⟨legal, taken⟩ := effect
      obtain ⟨given, next, changed, called, does, still⟩ := devStep_exact stands legal
      obtain ⟨rfl, rfl⟩ := Prod.mk.inj (Option.some.inj (called.symm.trans taken))
      exact ⟨changed, does, still⟩
  refine ⟨table, answers, stands, fun call legal => ?_⟩
  obtain ⟨answer, next, _, called, _⟩ := devStep_exact stands legal
  exact ⟨answer, next, called⟩

/-- A memory without blocks. -/
def noBlocks : DevMemory Nat Nat where
  links := { prev := id, next := id }
  vdev := fun _ => ⟨0, none, none, false⟩
  text := fun _ => []
  held := ∅

/-- The name of a device. -/
def nameN : Name := [⟨110, by decide⟩]

/-- A file system is mounted on a device and found by its name, and the name is taken. -/
theorem vdev_list_exact_mounted : ∃ (returned : List (DevCall Nat Nat × Answer Nat Nat)) (last : DevMemory Nat Nat),
    Serial DevEffect (vfsDevlistInit noBlocks) returned last ∧
      returned.map Prod.snd = [.ret 0, .ret 0, .devname (some nameN), .ret (-eExists)] ∧
      ∃ table, Serial TableEffect (fun _ => none) returned table ∧ Stands ∅ last table ∧
        ∀ call, DevLegal last call → ∃ answer next, devStep last call = some (answer, next) := by
  let listed := added (vfsDevlistInit noBlocks) nameN 1 2 ⟨some 5, none, true⟩
  let mounted := putFs listed 2 (some 7)
  have adds : DevEffect (.addDev nameN 5 true (some 1) (some 2)) (vfsDevlistInit noBlocks) (.ret 0) listed := by
    refine ⟨⟨?_, by decide⟩, rfl⟩
    rintro block (same | same) <;> cases same <;> decide
  have mounts : DevEffect (.mount nameN 0 (some 7)) listed (.ret 0) mounted := by
    have stores : (0 : Int) = 0 ↔ (some 7).isSome := by decide
    exact ⟨stores, rfl⟩
  have finds : DevEffect (.getDevname 7) mounted (.devname (some nameN)) mounted := ⟨trivial, rfl⟩
  have isTaken : DevEffect (.addFs nameN 9 (some 3) (some 4)) mounted (.ret (-eExists))
      { mounted with text := Function.update mounted.text 3 nameN } := by
    refine ⟨⟨?_, by decide⟩, rfl⟩
    rintro block (same | same) <;> cases same <;> decide
  have serial := (((Serial.nil.snoc adds).snoc mounts).snoc finds).snoc isTaken
  exact ⟨_, _, serial, rfl, vdev_list_exact serial⟩

end Ucore.DevList
