import Ucore.Fs.Iobuf
import Ucore.Libs.Memory
import Ucore.Sfs.Directory
import Ucore.Fs.NodeCounts

/-!
# The path name of a directory

`sfs_namefile` of `kern/fs/sfs/sfs_inode.c` walks from a directory up to the root. It writes
the names it meets in front of each other at the end of a buffer, and moves them to its
start in the end. Whatever fails on the way, nothing outside the buffer is written and every
reference that was taken is given back.
-/

namespace Ucore.Vfs

open Volume

variable {F : Type}

/-- The name `..`. -/
def dotdot : Name := [dot, dot]

/-- What a turn of the loop of `sfs_namefile` comes to: an error, the root, or the parent
and its entry for the directory. -/
inductive Turn (F : Type) where
  | failed (ret : Int) (state : VfsState F)
  | root (state : VfsState F)
  | up (parent : Nat) (entry : DiskEntry) (state : VfsState F)

variable (disk : Nat → Int) (memory : Nat → Bool)

/-- The search in the parent for the number of the directory. -/
def entryTurn (state : VfsState F) (ino parent : Nat) : Option (Turn F) := do
  let sin ← state.volume.inodes parent
  if ino = sin.ino ∨ sin.din.type ≠ sfsTypeDir then none
  else do
    let (found, fs, sin) ← sfsDirentFindinoNolock disk state.volume.fs sin ino
    let searched := { state with volume := state.volume.put parent fs (some sin) }
    match found with
    | .error ret => (vopRefDec disk searched (.sfs parent)).map fun state => .failed ret state
    | .ok entry => some (.up parent entry searched)

/-- A turn of the loop of `sfs_namefile`, up to the writing of the name. -/
def namefileTurn (state : VfsState F) (node : Nat) : Option (Turn F) := do
  let (found, state) ← sfsLookupOnce disk memory state node dotdot
  match found with
  | .error ret => (vopRefDec disk state (.sfs node)).map fun state => .failed ret state
  | .ok (.device _) => none
  | .ok (.sfs parent) => do
      let sin ← state.volume.inodes node
      let state ← vopRefDec disk state (.sfs node)
      if node = parent then (vopRefDec disk state (.sfs node)).map fun state => .root state
      else entryTurn disk state sin.ino parent

/-- The memory with a name and a slash in front of an address. -/
def nameBefore (bytes : Bytes) (ptr alen : Nat) (entry : DiskEntry) : Bytes :=
  Function.update (memcpy bytes (ptr - alen) entry.name (alen - 1)) (ptr - alen + (alen - 1)) slash.val

/-- The loop of `sfs_namefile`, with the residual size and the address of the last name that
it ends with. -/
def namefileLoop : Nat → VfsState F → Nat → Nat → Nat → Bytes → Option (Except Int (Nat × Nat) × VfsState F × Bytes)
  | 0, _, _, _, _, _ => none
  | rounds + 1, state, node, resid, ptr, bytes => do
      match ← namefileTurn disk memory state node with
      | .failed ret state => some (.error ret, state, bytes)
      | .root state => some (.ok (resid, ptr), state, bytes)
      | .up parent entry state =>
          if resid < entry.string.length + 1 then
            (vopRefDec disk state (.sfs parent)).map fun state => (.error (-eNoMem), state, bytes)
          else
            namefileLoop rounds state parent (resid - (entry.string.length + 1)) (ptr - (entry.string.length + 1))
              (nameBefore bytes ptr (entry.string.length + 1) entry)

/-- The memory when the names have been moved behind a slash and ended. -/
def movedNames (bytes : Bytes) (base ptr alen : Nat) : Bytes :=
  Function.update (Function.update (memmove bytes (base + 1) ptr alen) base slash.val) (base + 1 + alen) 0

/-- `sfs_namefile`, with the rounds that its loop is given. -/
def sfsNamefile (rounds : Nat) (state : VfsState F) (node : Nat) (iob : Iobuf) (bytes : Bytes) :
    Option (Int × VfsState F × Iobuf × Bytes) :=
  if iob.ioResid ≤ 2 then some (-eNoMem, state, iob, bytes)
  else if memory state.allocs = false then
    some (-eNoMem, { state with allocs := state.allocs + 1 }, iob, bytes)
  else do
    let state ← vopRefInc { state with allocs := state.allocs + 1 } (.sfs node)
    let (walked, state, bytes) ← namefileLoop disk memory rounds state node (iob.ioResid - 2)
      (iob.ioBase + iob.ioResid) bytes
    match walked with
    | .error ret => some (ret, state, iob, bytes)
    | .ok (resid, ptr) => do
        let alen := iob.ioResid - resid - 2
        let skipped ← iobufSkip iob alen
        some (0, state, skipped, movedNames bytes iob.ioBase ptr alen)

variable {disk : Nat → Int} {memory : Nat → Bool} {state after : VfsState F} {node : Nat} {bytes last : Bytes}

/-! ## References -/

/-- A turn that ends the loop gives the reference back, and another one exchanges it for a
reference to the parent. -/
def Exchanges (state : VfsState F) : Turn F → Prop
  | .failed _ after | .root after => SameCounts state after
  | .up parent _ after => Bumps state after (.sfs parent) 1 0

theorem entryTurn_exchanges {middle : VfsState F} {ino parent : Nat} {turn : Turn F}
    (held : Bumps state middle (.sfs parent) 1 0) (called : entryTurn disk middle ino parent = some turn) :
    Exchanges state turn := by
  obtain ⟨sin, isIn, rest⟩ := Option.bind_eq_some_iff.mp called
  split at rest
  · cases rest
  obtain ⟨⟨found, fs, sinAfter⟩, _, rest⟩ := Option.bind_eq_some_iff.mp rest
  have same : SameCounts middle { middle with volume := middle.volume.put parent fs (some sinAfter) } := by
    apply counts_put
    · exact fun other different => Function.update_of_ne different _ _
    · simp [Mounted.put, isIn]
  have kept : Bumps state { middle with volume := middle.volume.put parent fs (some sinAfter) } (.sfs parent) 1 0 :=
    ⟨same.counts.trans held.counts, same.files.trans held.files⟩
  cases found with
  | error ret =>
    obtain ⟨after, lowered, rfl⟩ := Option.map_eq_some_iff.mp rest
    exact (kept.trans (vopRefDec_bumps lowered)).same
  | ok entry =>
    obtain rfl := Option.some.inj rest
    exact kept

theorem namefileTurn_exchanges {middle : VfsState F} {turn : Turn F} (held : Bumps state middle (.sfs node) 1 0)
    (called : namefileTurn disk memory middle node = some turn) : Exchanges state turn := by
  obtain ⟨⟨found, looked⟩, isFound, rest⟩ := Option.bind_eq_some_iff.mp called
  have hands := sfsLookupOnce_hands isFound
  cases found with
  | error ret =>
    obtain ⟨after, lowered, rfl⟩ := Option.map_eq_some_iff.mp rest
    exact held.hands (sfsLookupOnce_hands isFound) (vopRefDec_bumps lowered)
  | ok parent =>
    cases parent with
    | device index => cases rest
    | sfs parent =>
      obtain ⟨sin, _, rest⟩ := Option.bind_eq_some_iff.mp rest
      obtain ⟨next, lowered, rest⟩ := Option.bind_eq_some_iff.mp rest
      have exchanged : Bumps state next (.sfs parent) 1 0 := held.exchange hands (vopRefDec_bumps lowered)
      split at rest
      · rename_i same
        obtain ⟨after, loweredAgain, rfl⟩ := Option.map_eq_some_iff.mp rest
        rw [same] at loweredAgain
        exact (exchanged.trans (vopRefDec_bumps loweredAgain)).same
      · exact entryTurn_exchanges exchanged rest

/-- However the loop ends, the reference it has started with is given back. -/
theorem namefileLoop_same {rounds resid ptr : Nat} {middle : VfsState F} {walked : Except Int (Nat × Nat)}
    (held : Bumps state middle (.sfs node) 1 0)
    (called : namefileLoop disk memory rounds middle node resid ptr bytes = some (walked, after, last)) :
    SameCounts state after := by
  induction rounds generalizing middle node resid ptr bytes with
  | zero => cases called
  | succ rounds ih =>
    obtain ⟨turn, turned, rest⟩ := Option.bind_eq_some_iff.mp called
    have exchanges := namefileTurn_exchanges held turned
    cases turn with
    | failed ret next =>
      obtain ⟨rfl, rfl, rfl⟩ : _ ∧ next = after ∧ _ := by simpa using rest
      exact exchanges
    | root next =>
      obtain ⟨rfl, rfl, rfl⟩ : _ ∧ next = after ∧ _ := by simpa using rest
      exact exchanges
    | up parent entry next =>
      simp only at rest
      split at rest
      · obtain ⟨final, lowered, same⟩ := Option.map_eq_some_iff.mp rest
        obtain ⟨rfl, rfl, rfl⟩ : _ ∧ final = after ∧ _ := by simpa using same
        exact (Bumps.trans exchanges (vopRefDec_bumps lowered)).same
      · exact ih exchanges rest

/-! ## Writes -/

/-- A name is written in its place. -/
theorem nameBefore_outside {ptr alen address : Nat} {entry : DiskEntry} (positive : 0 < alen) (room : alen ≤ ptr)
    (outside : address < ptr - alen ∨ ptr ≤ address) : nameBefore bytes ptr alen entry address = bytes address := by
  unfold nameBefore
  rw [Function.update_of_ne (by omega), memcpy_exact, if_neg (by omega)]

/-- The loop writes between its residual size and the last name, and keeps the account of
what it has written. -/
theorem namefileLoop_inside {rounds resid ptr : Nat} {middle : VfsState F} {walked : Except Int (Nat × Nat)}
    (room : resid ≤ ptr)
    (called : namefileLoop disk memory rounds middle node resid ptr bytes = some (walked, after, last)) :
    (∀ address, address < ptr - resid ∨ ptr ≤ address → last address = bytes address) ∧
      ∀ left start, walked = .ok (left, start) → left ≤ resid ∧ start + resid = ptr + left := by
  induction rounds generalizing middle node resid ptr bytes with
  | zero => cases called
  | succ rounds ih =>
    obtain ⟨turn, turned, rest⟩ := Option.bind_eq_some_iff.mp called
    cases turn with
    | failed ret next =>
      obtain ⟨rfl, rfl, rfl⟩ : .error ret = walked ∧ _ ∧ bytes = last := by simpa using rest
      exact ⟨fun _ _ => rfl, fun _ _ isOk => by cases isOk⟩
    | root next =>
      obtain ⟨rfl, rfl, rfl⟩ : .ok (resid, ptr) = walked ∧ _ ∧ bytes = last := by simpa using rest
      refine ⟨fun _ _ => rfl, fun left start isOk => ?_⟩
      obtain ⟨rfl, rfl⟩ := Prod.mk.inj (Except.ok.inj isOk)
      exact ⟨Nat.le_refl _, rfl⟩
    | up parent entry next =>
      simp only at rest
      split at rest
      · obtain ⟨final, lowered, same⟩ := Option.map_eq_some_iff.mp rest
        obtain ⟨rfl, rfl, rfl⟩ : .error (-eNoMem) = walked ∧ _ ∧ bytes = last := by simpa using same
        exact ⟨fun _ _ => rfl, fun _ _ isOk => by cases isOk⟩
      · obtain ⟨inside, account⟩ := ih (by omega) rest
        refine ⟨fun address outside => ?_, fun left start isOk => ?_⟩
        · rw [inside address (by omega)]
          exact nameBefore_outside (Nat.succ_pos _) (by omega) (by omega)
        · have := account left start isOk
          omega

/-- The moved names and the bytes around them are in the buffer. -/
theorem movedNames_outside {base ptr alen resid address : Nat} (fits : alen + 2 ≤ resid)
    (outside : address < base ∨ base + resid ≤ address) : movedNames bytes base ptr alen address = bytes address := by
  unfold movedNames
  rw [Function.update_of_ne (by omega), Function.update_of_ne (by omega), memmove_exact, if_neg (by omega)]

/-- Whenever `sfs_namefile` returns, nothing outside the buffer has been written and the
counts of all inodes are what they were. -/
theorem sfsNamefile_frame {rounds : Nat} {iob left : Iobuf} {ret : Int}
    (called : sfsNamefile disk memory rounds state node iob bytes = some (ret, after, left, last)) :
    (∀ address, address < iob.ioBase ∨ iob.ioBase + iob.ioResid ≤ address → last address = bytes address) ∧
      SameCounts state after := by
  unfold sfsNamefile at called
  split at called
  · obtain ⟨_, rfl, _, rfl⟩ : _ ∧ state = after ∧ _ ∧ bytes = last := by simpa using called
    exact ⟨fun _ _ => rfl, SameCounts.refl _⟩
  split at called
  · obtain ⟨_, rfl, _, rfl⟩ : _ ∧ _ = after ∧ _ ∧ bytes = last := by simpa using called
    exact ⟨fun _ _ => rfl, rfl, rfl⟩
  obtain ⟨held, raised, rest⟩ := Option.bind_eq_some_iff.mp called
  obtain ⟨⟨walked, ended, written⟩, looped, rest⟩ := Option.bind_eq_some_iff.mp rest
  have entered : SameCounts state { state with allocs := state.allocs + 1 } := ⟨rfl, rfl⟩
  have same := namefileLoop_same (entered.bumps (vopRefInc_bumps raised)) looped
  obtain ⟨inside, account⟩ := namefileLoop_inside (by omega) looped
  cases walked with
  | error code =>
    obtain ⟨_, rfl, _, rfl⟩ : _ ∧ ended = after ∧ _ ∧ written = last := by simpa using rest
    exact ⟨fun address outside => inside address (by omega), same⟩
  | ok walked =>
    obtain ⟨resid, ptr⟩ := walked
    obtain ⟨skipped, isSkipped, rest⟩ := Option.bind_eq_some_iff.mp rest
    obtain ⟨_, rfl, _, rfl⟩ : _ ∧ ended = after ∧ _ ∧ movedNames written iob.ioBase ptr (iob.ioResid - resid - 2) = last := by
      simpa using rest
    have accounted := account resid ptr rfl
    refine ⟨fun address outside => ?_, same⟩
    rw [movedNames_outside (by omega : _ ≤ iob.ioResid) outside]
    exact inside address (by omega)

end Ucore.Vfs
