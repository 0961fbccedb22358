import GoQuant.Lib.Run
import GoQuant.Order
import Mathlib.Data.List.Perm.Basic
import Mathlib.Data.List.Range
import Mathlib.Data.List.Nodup

/-!
# The memory pool

`memory_pool.h` and `order_pool.h`: objects constructed in the slots of one vector, whose free
slots are kept on a stack. The vector owns one buffer at a time. Growing past the room of that
buffer moves the slots to a new one and releases the old one, while a handle keeps the address it
was made with. Calls and releases hold the pool's mutex, so a run is a sequence of them.

## Main definitions

* `MemoryPool.allocate`, `MemoryPool.release` — a call, and the deleter of its handle.
* `Held` — the pool with the handles not yet released, each with what it was made for.
* `MemoryPool.Outgrows` — the next `allocate` moves the slots to a new buffer.

## Main results

* `Held.slots_partition` — free slots and live handles share out the slots, none twice.
* `Held.sound_iff_never_outgrows` — the handles of a run stay good exactly if no call moves the
  slots.
-/

namespace GoQuant

/-- The address a handle is made with: a slot of a buffer. -/
structure Handle where
  buffer : ℕ
  slot : ℕ
  deriving DecidableEq

/-- `storage_`: the buffer the vector owns, its slots in use, each with the object that was
constructed there or raw bytes, and the number of slots the buffer has room for. -/
structure Storage (T : Type*) where
  buffer : ℕ
  slots : List (Option T)
  reserved : ℕ

namespace Storage

variable {T : Type*}

/-- `std::vector::resize`. What room a new buffer gets is left to the library: `grow` is given the
old size and the new one. -/
def resize (grow : ℕ → ℕ → ℕ) (storage : Storage T) (newSize : ℕ) : Storage T :=
  let size := storage.slots.length
  let slots := storage.slots.take newSize ++ List.replicate (newSize - size) none
  if newSize ≤ storage.reserved then { storage with slots := slots }
  else { buffer := storage.buffer + 1, slots := slots, reserved := grow size newSize }

/-- Placement `new`, or a destructor call, at an address. In a released buffer there is nothing
to write. -/
def write (storage : Storage T) (h : Handle) (object : Option T) : Storage T :=
  if h.buffer = storage.buffer then { storage with slots := storage.slots.set h.slot object }
  else storage

/-- The object at an address; no buffer but the current one is allocated. -/
def object (storage : Storage T) (h : Handle) : Option T :=
  if h.buffer = storage.buffer then (storage.slots[h.slot]?).join else none

end Storage

/-- `MemoryPool<T, BlockSize>`. The head of `freeList` is the back of `freeList_`. -/
structure MemoryPool (T : Type*) where
  storage : Storage T
  freeList : List ℕ

namespace MemoryPool

variable {T : Type*}

/-- The loop of `addBlock`, from the last new slot down to the first. -/
def pushSlots (oldSize : ℕ) : ℕ → List ℕ → List ℕ
  | 0, freeList => freeList
  | i + 1, freeList => pushSlots oldSize i ((oldSize + i) :: freeList)

def addBlock (grow : ℕ → ℕ → ℕ) (BlockSize : ℕ) (pool : MemoryPool T) : MemoryPool T :=
  let oldSize := pool.storage.slots.length
  { storage := pool.storage.resize grow (oldSize + BlockSize)
    freeList := pushSlots oldSize BlockSize pool.freeList }

/-- The constructor: the first block. -/
def create (grow : ℕ → ℕ → ℕ) (BlockSize : ℕ) : MemoryPool T :=
  addBlock grow BlockSize ⟨⟨0, [], 0⟩, []⟩

/-- The first half of `allocate`: all blocks full, add a new one. -/
def refill (grow : ℕ → ℕ → ℕ) (BlockSize : ℕ) (pool : MemoryPool T) : MemoryPool T :=
  if pool.freeList = [] then pool.addBlock grow BlockSize else pool

/-- `allocate`, with the object its arguments construct. A block of no slots leaves nothing to
take. -/
def allocate (grow : ℕ → ℕ → ℕ) (BlockSize : ℕ) (pool : MemoryPool T) (object : T) :
    Option (Handle × MemoryPool T) :=
  let pool := pool.refill grow BlockSize
  match pool.freeList with
  | [] => none
  | slotIndex :: freeList =>
    let h : Handle := ⟨pool.storage.buffer, slotIndex⟩
    some (h, { storage := pool.storage.write h (some object), freeList := freeList })

/-- The deleter `allocate` gives its handle. -/
def release (pool : MemoryPool T) (h : Handle) : MemoryPool T where
  storage := pool.storage.write h none
  freeList := h.slot :: pool.freeList

def capacity (pool : MemoryPool T) : ℕ := pool.storage.slots.length

def available (pool : MemoryPool T) : ℕ := pool.freeList.length

/-- The next `allocate` finds no free slot and no room for another block. -/
def Outgrows (BlockSize : ℕ) (pool : MemoryPool T) : Prop :=
  pool.freeList = [] ∧ pool.storage.reserved < pool.capacity + BlockSize

instance (BlockSize : ℕ) (pool : MemoryPool T) : Decidable (pool.Outgrows BlockSize) :=
  inferInstanceAs (Decidable (_ ∧ _))

end MemoryPool

/-- A pool and the handles that have not been released, each with the object its `allocate`
constructed. -/
structure Held (T : Type*) where
  pool : MemoryPool T
  live : List (Handle × T)

/-- What a user of the pool does. A release names its handle by its place among the live ones. -/
inductive PoolCall (T : Type*) where
  | allocate (object : T)
  | release (i : ℕ)

namespace Held

variable {T : Type*}

def create (grow : ℕ → ℕ → ℕ) (BlockSize : ℕ) : Held T := ⟨.create grow BlockSize, []⟩

/-- The slots of the live handles. -/
def slots (s : Held T) : List ℕ := s.live.map fun p => p.1.slot

def call (grow : ℕ → ℕ → ℕ) (BlockSize : ℕ) (s : Held T) : PoolCall T → Option (Held T)
  | .allocate object => (s.pool.allocate grow BlockSize object).map fun result =>
      ⟨result.2, (result.1, object) :: s.live⟩
  | .release i => s.live[i]?.map fun p => ⟨s.pool.release p.1, s.live.eraseIdx i⟩

def Step (grow : ℕ → ℕ → ℕ) (BlockSize : ℕ) (s : Held T) (c : PoolCall T) (t : Held T) : Prop :=
  s.call grow BlockSize c = some t

/-- Every live handle is a slot of the current buffer and denotes what it was made for. -/
def Sound (s : Held T) : Prop :=
  ∀ p ∈ s.live, p.1.buffer = s.pool.storage.buffer ∧ p.1.slot < s.pool.capacity ∧
    s.pool.storage.object p.1 = some p.2

/-- The slots are shared out between the free list and the live handles. -/
structure Partitioned (BlockSize : ℕ) (s : Held T) : Prop where
  perm : (s.pool.freeList ++ s.slots).Perm (List.range s.pool.capacity)
  blocks : ∃ n, 0 < n ∧ s.pool.capacity = n * BlockSize

end Held

/-! ## What a call does -/

section Calls

variable {T : Type*} {grow : ℕ → ℕ → ℕ} {BlockSize : ℕ} {storage : Storage T}
  {pool pool' : MemoryPool T} {h h' : Handle} {object : Option T}

@[simp] theorem Storage.length_resize {newSize : ℕ} (hle : storage.slots.length ≤ newSize) :
    (storage.resize grow newSize).slots.length = newSize := by
  unfold resize
  split_ifs <;> simp <;> omega

theorem Storage.resize_of_le {newSize : ℕ} (hle : storage.slots.length ≤ newSize)
    (hroom : newSize ≤ storage.reserved) :
    storage.resize grow newSize = { storage with
      slots := storage.slots ++ List.replicate (newSize - storage.slots.length) none } := by
  simp [resize, hroom, List.take_of_length_le hle]

@[simp] theorem Storage.write_buffer : (storage.write h object).buffer = storage.buffer := by
  unfold write
  split_ifs <;> rfl

@[simp] theorem Storage.write_length :
    (storage.write h object).slots.length = storage.slots.length := by
  unfold write
  split_ifs <;> simp

theorem Storage.write_reserved : (storage.write h object).reserved = storage.reserved := by
  unfold write
  split_ifs <;> rfl

theorem Storage.object_write_self (hb : h.buffer = storage.buffer)
    (hs : h.slot < storage.slots.length) : (storage.write h object).object h = object := by
  simp [Storage.object, write, hb, hs]

theorem Storage.object_write_of_ne (hne : h.slot ≠ h'.slot) :
    (storage.write h object).object h' = storage.object h' := by
  unfold Storage.object write
  split_ifs <;> simp_all

namespace MemoryPool

theorem pushSlots_eq (oldSize n : ℕ) (freeList : List ℕ) :
    pushSlots oldSize n freeList = List.range' oldSize n ++ freeList := by
  induction n generalizing freeList with
  | zero => rfl
  | succ n ih => rw [pushSlots, ih, List.range'_1_concat, List.append_assoc, List.singleton_append]

@[simp] theorem capacity_addBlock :
    (pool.addBlock grow BlockSize).capacity = pool.capacity + BlockSize :=
  Storage.length_resize (Nat.le_add_right _ _)

theorem freeList_addBlock : (pool.addBlock grow BlockSize).freeList =
    List.range' pool.capacity BlockSize ++ pool.freeList :=
  pushSlots_eq _ _ _

/-- A call takes the slot on top of the free list, after a new block if there was none. -/
theorem allocate_eq_some {object : T} {result : Handle × MemoryPool T} :
    pool.allocate grow BlockSize object = some result ↔
      ∃ slotIndex freeList, (pool.refill grow BlockSize).freeList = slotIndex :: freeList ∧
        result = (⟨(pool.refill grow BlockSize).storage.buffer, slotIndex⟩,
          ⟨(pool.refill grow BlockSize).storage.write
            ⟨(pool.refill grow BlockSize).storage.buffer, slotIndex⟩ (some object), freeList⟩) := by
  unfold allocate
  cases hfree : (pool.refill grow BlockSize).freeList with
  | nil => simp [hfree]
  | cons slotIndex freeList => simp [hfree, eq_comm]

end MemoryPool

end Calls

/-! ## Accounting for the slots -/

namespace Held

variable {T : Type*} {grow : ℕ → ℕ → ℕ} {BlockSize : ℕ} {s t : Held T}

theorem Partitioned.create : (create grow BlockSize : Held T).Partitioned BlockSize := by
  have hcap : (MemoryPool.create grow BlockSize : MemoryPool T).capacity = BlockSize := by
    rw [MemoryPool.create, MemoryPool.capacity_addBlock]
    exact Nat.zero_add _
  refine ⟨?_, 1, Nat.one_pos, ?_⟩
  · change ((MemoryPool.create grow BlockSize : MemoryPool T).freeList ++ []).Perm _
    rw [Held.create, hcap, MemoryPool.create, MemoryPool.freeList_addBlock, List.append_nil,
      List.append_nil, List.range_eq_range']
    exact List.Perm.refl _
  · rw [Held.create, hcap, Nat.one_mul]

theorem Partitioned.addBlock (h : s.Partitioned BlockSize) :
    Partitioned BlockSize ⟨s.pool.addBlock grow BlockSize, s.live⟩ := by
  obtain ⟨n, -, hn⟩ := h.blocks
  refine ⟨?_, n + 1, Nat.succ_pos n, ?_⟩
  · change ((s.pool.addBlock grow BlockSize).freeList ++ s.slots).Perm
      (List.range (s.pool.addBlock grow BlockSize).capacity)
    rw [MemoryPool.freeList_addBlock, MemoryPool.capacity_addBlock, List.range_add,
      List.append_assoc, ← List.range'_eq_map_range]
    exact (List.perm_append_comm).trans (h.perm.append_right _)
  · rw [MemoryPool.capacity_addBlock, hn, Nat.add_mul, Nat.one_mul]

theorem Partitioned.refill (h : s.Partitioned BlockSize) :
    Partitioned BlockSize ⟨s.pool.refill grow BlockSize, s.live⟩ := by
  unfold MemoryPool.refill
  split_ifs
  · exact h.addBlock
  · exact h

theorem Partitioned.of_perm (h : s.Partitioned BlockSize)
    (hperm : (t.pool.freeList ++ t.slots).Perm (s.pool.freeList ++ s.slots))
    (hcap : t.pool.capacity = s.pool.capacity) : t.Partitioned BlockSize :=
  ⟨hcap ▸ hperm.trans h.perm, hcap ▸ h.blocks⟩

/-- One call keeps the account: a slot goes from one side to the other. -/
theorem Partitioned.step {c : PoolCall T} (h : s.Partitioned BlockSize)
    (hstep : s.Step grow BlockSize c t) : t.Partitioned BlockSize := by
  cases c with
  | allocate object =>
    obtain ⟨result, hresult, rfl⟩ := Option.map_eq_some_iff.mp hstep
    obtain ⟨slotIndex, freeList, hfree, rfl⟩ := MemoryPool.allocate_eq_some.mp hresult
    have hrefill : Partitioned BlockSize ⟨s.pool.refill grow BlockSize, s.live⟩ := h.refill
    refine hrefill.of_perm ?_ Storage.write_length
    rw [hfree]
    exact List.perm_middle
  | release i =>
    obtain ⟨p, hp, rfl⟩ := Option.map_eq_some_iff.mp hstep
    obtain ⟨hi, rfl⟩ := List.getElem?_eq_some_iff.mp hp
    have hslots : (s.live[i].1.slot :: (s.live.eraseIdx i).map fun p => p.1.slot).Perm s.slots :=
      (List.getElem_cons_eraseIdx_perm hi).map fun p : Handle × T => p.1.slot
    refine h.of_perm ?_ Storage.write_length
    exact List.perm_middle.symm.trans (hslots.append_left _)

theorem partitioned_of_run {cs : List (PoolCall T)}
    (h : Run (Step grow BlockSize) (Held.create grow BlockSize) cs s) : s.Partitioned BlockSize :=
  h.invariant _ .create fun _ _ _ => Partitioned.step

theorem Partitioned.nodup (h : s.Partitioned BlockSize) : (s.pool.freeList ++ s.slots).Nodup :=
  h.perm.nodup_iff.mpr List.nodup_range

theorem Partitioned.lt_capacity (h : s.Partitioned BlockSize) {i : ℕ} :
    i < s.pool.capacity ↔ i ∈ s.pool.freeList ∨ i ∈ s.slots := by
  rw [← List.mem_range, ← h.perm.mem_iff, List.mem_append]

theorem Partitioned.capacity_pos (h : s.Partitioned BlockSize) (hB : 0 < BlockSize) :
    0 < s.pool.capacity := by
  obtain ⟨n, hn, hcap⟩ := h.blocks
  rw [hcap]
  exact Nat.mul_pos hn hB

theorem Partitioned.available_add (h : s.Partitioned BlockSize) :
    s.pool.available + s.live.length = s.pool.capacity := by
  have hsum := h.perm.length_eq
  rwa [List.length_append, List.length_range, Held.slots, List.length_map] at hsum

/-- With blocks of at least one slot an `allocate` always finds one. -/
theorem exists_step_allocate (grow : ℕ → ℕ → ℕ) (hB : 0 < BlockSize) (s : Held T) (object : T) :
    ∃ t, s.Step grow BlockSize (.allocate object) t := by
  have hfree : (s.pool.refill grow BlockSize).freeList ≠ [] := by
    unfold MemoryPool.refill
    split_ifs with hnil
    · rw [MemoryPool.freeList_addBlock]
      simp only [ne_eq, List.append_eq_nil_iff, List.range'_eq_nil_iff, not_and]
      exact fun hzero => absurd hzero hB.ne'
    · exact hnil
  obtain ⟨slotIndex, freeList, hfree⟩ := List.exists_cons_of_ne_nil hfree
  exact ⟨_, Option.map_eq_some_iff.mpr
    ⟨_, MemoryPool.allocate_eq_some.mpr ⟨slotIndex, freeList, hfree, rfl⟩, rfl⟩⟩

/-- A run is computed by its calls. -/
theorem run_of_exec {cs : List (PoolCall T)}
    (h : Run.exec (fun s c => (s.call grow BlockSize c).map (c, ·)) s cs = some (cs, t)) :
    Run (Step grow BlockSize) s cs t := by
  refine Run.of_exec ?_ h
  intro s c d u hcall
  obtain ⟨v, hv, heq⟩ := Option.map_eq_some_iff.mp hcall
  obtain ⟨rfl, rfl⟩ := Prod.mk.inj heq
  exact hv

/-- In every run the free list names no slot twice and none that is held, the two cover the
slots, and the pool has whole blocks of them; so no slot is held twice, and what is available is
what is not held. -/
theorem slots_partition (hB : 0 < BlockSize) {cs : List (PoolCall T)}
    (h : Run (Step grow BlockSize) (Held.create grow BlockSize) cs s) :
    s.pool.freeList.Nodup ∧ s.pool.freeList.Disjoint s.slots ∧
      (∀ i, i < s.pool.capacity ↔ i ∈ s.pool.freeList ∨ i ∈ s.slots) ∧
      (0 < s.pool.capacity ∧ BlockSize ∣ s.pool.capacity) ∧
      s.slots.Nodup ∧ s.live.length ≤ s.pool.capacity ∧
      s.pool.available = s.pool.capacity - s.live.length := by
  have hpart := partitioned_of_run h
  obtain ⟨hfree, hslots, hdisjoint⟩ := List.nodup_append'.mp hpart.nodup
  have hlength := hpart.available_add
  obtain ⟨n, -, hn⟩ := hpart.blocks
  exact ⟨hfree, hdisjoint, fun i => hpart.lt_capacity,
    ⟨hpart.capacity_pos hB, n, by rw [hn, Nat.mul_comm]⟩, hslots, by omega, by omega⟩

/-- A pool with blocks of two slots, grown once, with a slot that is used again. -/
theorem slots_partition_five_calls :
    let s : Held ℕ := ⟨⟨⟨2, [some 10, some 13, some 12, none], 6⟩, [3]⟩,
      [(⟨2, 1⟩, 13), (⟨2, 2⟩, 12), (⟨1, 0⟩, 10)]⟩
    Run (Step (· + ·) 2) (Held.create (· + ·) 2)
      [.allocate 10, .allocate 11, .allocate 12, .release 1, .allocate 13] s ∧
    s.pool.freeList.Nodup ∧ s.pool.freeList.Disjoint s.slots ∧
      (∀ i, i < s.pool.capacity ↔ i ∈ s.pool.freeList ∨ i ∈ s.slots) ∧
      (0 < s.pool.capacity ∧ 2 ∣ s.pool.capacity) ∧
      s.slots.Nodup ∧ s.live.length ≤ s.pool.capacity ∧
      s.pool.available = s.pool.capacity - s.live.length := by
  intro s
  have hrun : Run (Step (· + ·) 2) (Held.create (· + ·) 2)
      [.allocate 10, .allocate 11, .allocate 12, .release 1, .allocate 13] s :=
    run_of_exec rfl
  exact ⟨hrun, slots_partition (by decide) hrun⟩

end Held

/-! ## Handles and the buffer -/

namespace MemoryPool

variable {T : Type*} {grow : ℕ → ℕ → ℕ} {BlockSize : ℕ} {pool : MemoryPool T}

/-- Where the slots need not move, a refill leaves what is there in place. -/
theorem refill_of_room (grow : ℕ → ℕ → ℕ) (h : ¬ pool.Outgrows BlockSize) :
    (pool.refill grow BlockSize).storage.buffer = pool.storage.buffer ∧
      pool.capacity ≤ (pool.refill grow BlockSize).capacity ∧
      ∀ hd : Handle, hd.slot < pool.capacity →
        (pool.refill grow BlockSize).storage.object hd = pool.storage.object hd := by
  unfold refill
  split_ifs with hnil
  · have hroom : pool.capacity + BlockSize ≤ pool.storage.reserved :=
      not_lt.mp fun hlt => h ⟨hnil, hlt⟩
    have hstorage : (pool.addBlock grow BlockSize).storage = { pool.storage with
        slots := pool.storage.slots ++
          List.replicate (pool.capacity + BlockSize - pool.capacity) none } :=
      Storage.resize_of_le (Nat.le_add_right _ _) hroom
    refine ⟨by rw [hstorage], by rw [capacity_addBlock]; exact Nat.le_add_right _ _, ?_⟩
    intro hd hlt
    rw [hstorage]
    simp only [Storage.object, List.getElem?_append_left hlt]
  · exact ⟨rfl, le_rfl, fun _ _ => rfl⟩

/-- Where they move, it is to another buffer. -/
theorem refill_of_outgrows (h : pool.Outgrows BlockSize) :
    (pool.refill grow BlockSize).storage.buffer ≠ pool.storage.buffer := by
  have hroom : ¬ pool.storage.slots.length + BlockSize ≤ pool.storage.reserved := not_le.mpr h.2
  simp [refill, h.1, addBlock, Storage.resize, hroom]

end MemoryPool

namespace Held

variable {T : Type*} {grow : ℕ → ℕ → ℕ} {BlockSize : ℕ} {s t : Held T}

theorem Sound.refill (h : s.Sound) (hroom : ¬ s.pool.Outgrows BlockSize) :
    Sound ⟨s.pool.refill grow BlockSize, s.live⟩ := by
  obtain ⟨hbuffer, hcap, hobject⟩ := MemoryPool.refill_of_room grow hroom
  intro p hp
  obtain ⟨hb, hlt, ho⟩ := h p hp
  exact ⟨hb.trans hbuffer.symm, hlt.trans_le hcap, (hobject _ hlt).trans ho⟩

/-- A call that does not move the slots leaves the live handles good. -/
theorem Sound.step_allocate {object : T} (h : s.Sound) (hpart : s.Partitioned BlockSize)
    (hroom : ¬ s.pool.Outgrows BlockSize) (hstep : s.Step grow BlockSize (.allocate object) t) :
    t.Sound := by
  obtain ⟨result, hresult, rfl⟩ := Option.map_eq_some_iff.mp hstep
  obtain ⟨slotIndex, freeList, hfree, rfl⟩ := MemoryPool.allocate_eq_some.mp hresult
  have hsound : Sound ⟨s.pool.refill grow BlockSize, s.live⟩ := h.refill hroom
  have hpart : Partitioned BlockSize ⟨s.pool.refill grow BlockSize, s.live⟩ := hpart.refill
  have hnew : slotIndex < (s.pool.refill grow BlockSize).capacity :=
    hpart.lt_capacity.mpr (Or.inl (hfree ▸ List.mem_cons_self))
  intro p hp
  rcases List.mem_cons.mp hp with rfl | hlive
  · refine ⟨Storage.write_buffer.symm, ?_, Storage.object_write_self rfl hnew⟩
    exact hnew.trans_eq Storage.write_length.symm
  · obtain ⟨hb, hlt, ho⟩ := hsound p hlive
    refine ⟨hb.trans Storage.write_buffer.symm, hlt.trans_eq Storage.write_length.symm, ?_⟩
    refine (Storage.object_write_of_ne ?_).trans ho
    -- the slot was free, and this handle holds another
    rintro rfl
    have hnodup := hpart.nodup
    rw [hfree, List.cons_append] at hnodup
    exact (List.nodup_cons.mp hnodup).1
      (List.mem_append_right _ (List.mem_map.mpr ⟨p, hlive, rfl⟩))

/-- A call that moves the slots leaves a live handle behind. -/
theorem not_sound_of_outgrows {object : T} (hB : 0 < BlockSize) (h : s.Sound)
    (hpart : s.Partitioned BlockSize) (hout : s.pool.Outgrows BlockSize)
    (hstep : s.Step grow BlockSize (.allocate object) t) : ¬ t.Sound := by
  obtain ⟨result, hresult, rfl⟩ := Option.map_eq_some_iff.mp hstep
  obtain ⟨slotIndex, freeList, -, rfl⟩ := MemoryPool.allocate_eq_some.mp hresult
  -- nothing is free, so the first slot is held
  obtain ⟨p, hp, -⟩ : ∃ p ∈ s.live, p.1.slot = 0 := by
    have hheld := hpart.lt_capacity.mp (hpart.capacity_pos hB)
    rw [hout.1] at hheld
    exact List.mem_map.mp (hheld.resolve_left List.not_mem_nil)
  intro hsound
  have hnew := (hsound p (List.mem_cons_of_mem _ hp)).1
  rw [Storage.write_buffer, (h p hp).1] at hnew
  exact MemoryPool.refill_of_outgrows hout hnew.symm

theorem Sound.step_release {i : ℕ} (h : s.Sound) (hpart : s.Partitioned BlockSize)
    (hstep : s.Step grow BlockSize (.release i) t) : t.Sound := by
  obtain ⟨p, hp, rfl⟩ := Option.map_eq_some_iff.mp hstep
  obtain ⟨hi, rfl⟩ := List.getElem?_eq_some_iff.mp hp
  have hslots : (s.live[i].1.slot :: (s.live.eraseIdx i).map fun p => p.1.slot).Perm s.slots :=
    (List.getElem_cons_eraseIdx_perm hi).map fun p : Handle × T => p.1.slot
  have hnodup := hslots.nodup_iff.mpr (List.nodup_append'.mp hpart.nodup).2.1
  intro q hq
  obtain ⟨hb, hlt, ho⟩ := h q ((List.eraseIdx_sublist _ _).subset hq)
  refine ⟨hb.trans Storage.write_buffer.symm, hlt.trans_eq Storage.write_length.symm, ?_⟩
  refine (Storage.object_write_of_ne ?_).trans ho
  intro heq
  exact (List.nodup_cons.mp hnodup).1 (List.mem_map.mpr ⟨q, hq, heq.symm⟩)

/-- A run in which no call moves the slots keeps its handles good. -/
theorem sound_of_run {cs : List (PoolCall T)}
    (h : Run (Step grow BlockSize) (Held.create grow BlockSize) cs s)
    (hroom : ∀ before object t, before ++ [.allocate object] <+: cs →
      Run (Step grow BlockSize) (Held.create grow BlockSize) before t →
      ¬ t.pool.Outgrows BlockSize) : s.Sound := by
  induction h with
  | nil => exact fun p hp => absurd hp List.not_mem_nil
  | @snoc cs t u c hrun hstep ih =>
    have hsound := ih fun before object t hpre => hroom before object t
      (hpre.trans (List.prefix_append _ _))
    have hpart := partitioned_of_run hrun
    cases c with
    | allocate object =>
      exact hsound.step_allocate hpart (hroom cs object t List.prefix_rfl hrun) hstep
    | release i => exact hsound.step_release hpart hstep

theorem step_unique (s : Held T) (c : PoolCall T) (t u : Held T) (h : Step grow BlockSize s c t)
    (h' : Step grow BlockSize s c u) : u = t :=
  Option.some.inj (h'.symm.trans h)

/-- The handles of a run are good in every state it passes exactly if no `allocate` of the run
finds the free list empty and no room for another block. -/
theorem sound_iff_never_outgrows (hB : 0 < BlockSize) {cs : List (PoolCall T)}
    (h : Run (Step grow BlockSize) (Held.create grow BlockSize) cs s) :
    (∀ before t, before <+: cs →
        Run (Step grow BlockSize) (Held.create grow BlockSize) before t → t.Sound) ↔
      ∀ before object t, before ++ [.allocate object] <+: cs →
        Run (Step grow BlockSize) (Held.create grow BlockSize) before t →
        ¬ t.pool.Outgrows BlockSize := by
  constructor
  · intro hsound before object t hpre hrun hout
    obtain ⟨after, rfl⟩ := hpre
    obtain ⟨u, hu, -⟩ := Run.append_iff.mp h
    obtain ⟨t', ht', hstep⟩ := Run.snoc_iff.mp hu
    obtain rfl : t' = t := Run.unique step_unique hrun ht'
    have hbefore : before <+: before ++ [.allocate object] ++ after := by
      rw [List.append_assoc]
      exact List.prefix_append _ _
    exact not_sound_of_outgrows hB (hsound before t' hbefore hrun) (partitioned_of_run hrun) hout
      hstep (hsound _ u (List.prefix_append _ _) hu)
  · intro hroom before t hpre hrun
    exact sound_of_run hrun fun before' object u hpre' => hroom before' object u (hpre'.trans hpre)

/-- A pool with blocks of two slots whose second slot is used twice. -/
theorem sound_iff_never_outgrows_four_calls :
    let s : Held ℕ := ⟨⟨⟨1, [some 10, some 12], 2⟩, []⟩, [(⟨1, 1⟩, 12), (⟨1, 0⟩, 10)]⟩
    Run (Step (· + ·) 2) (Held.create (· + ·) 2)
      [.allocate 10, .allocate 11, .release 0, .allocate 12] s ∧
    ((∀ before t, before <+: [.allocate 10, .allocate 11, .release 0, .allocate 12] →
        Run (Step (· + ·) 2) (Held.create (· + ·) 2) before t → t.Sound) ↔
      ∀ before object t, before ++ [.allocate object] <+:
          [.allocate 10, .allocate 11, .release 0, .allocate 12] →
        Run (Step (· + ·) 2) (Held.create (· + ·) 2) before t → ¬ t.pool.Outgrows 2) := by
  intro s
  have hrun : Run (Step (· + ·) 2) (Held.create (· + ·) 2)
      [.allocate 10, .allocate 11, .release 0, .allocate 12] s :=
    run_of_exec rfl
  exact ⟨hrun, sound_iff_never_outgrows (by decide) hrun⟩

/-- As long as the first block has a free slot, calls fill it and nothing else happens. -/
theorem exists_run_within_block (grow : ℕ → ℕ → ℕ) (hB : 0 < BlockSize) (object : T) {n : ℕ}
    (hn : n ≤ BlockSize) :
    ∃ s, Run (Step grow BlockSize) (Held.create grow BlockSize)
        (List.replicate n (.allocate object)) s ∧ s.live.length = n ∧
      s.pool.capacity = BlockSize ∧ s.pool.storage.reserved = grow 0 BlockSize ∧ s.Sound := by
  induction n with
  | zero =>
    refine ⟨_, .nil, rfl, ?_, ?_, fun p hp => absurd hp List.not_mem_nil⟩
    · exact MemoryPool.capacity_addBlock.trans (Nat.zero_add _)
    · simp [Held.create, MemoryPool.create, MemoryPool.addBlock, Storage.resize, hB.ne']
  | succ n ih =>
    obtain ⟨s, hrun, hlive, hcap, hreserved, hsound⟩ := ih (Nat.le_of_succ_le hn)
    obtain ⟨t, hstep⟩ := exists_step_allocate grow hB s object
    have hpart := partitioned_of_run hrun
    have hfree : s.pool.freeList ≠ [] := by
      intro hnil
      have hsum := hpart.available_add
      rw [MemoryPool.available, hnil, List.length_nil] at hsum
      omega
    have ht := hsound.step_allocate hpart (fun hout => hfree hout.1) hstep
    refine ⟨t, ?_, ?_⟩
    · rw [List.replicate_succ']
      exact hrun.snoc hstep
    obtain ⟨result, hresult, rfl⟩ := Option.map_eq_some_iff.mp hstep
    obtain ⟨slotIndex, freeList, -, rfl⟩ := MemoryPool.allocate_eq_some.mp hresult
    simp only [MemoryPool.refill, if_neg hfree] at ht ⊢
    exact ⟨congrArg (· + 1) hlive, Storage.write_length.trans hcap,
      Storage.write_reserved.trans hreserved, ht⟩

/-- One object more than a block leaves handles behind, if the first block took all the room
there was. -/
theorem exists_run_not_sound (hB : 0 < BlockSize) (hgrow : grow 0 BlockSize < 2 * BlockSize)
    (object : T) :
    ∃ s, Run (Step grow BlockSize) (Held.create grow BlockSize)
      (List.replicate (BlockSize + 1) (.allocate object)) s ∧ ¬ s.Sound := by
  obtain ⟨s, hrun, hlive, hcap, hreserved, hsound⟩ :=
    exists_run_within_block grow hB object le_rfl
  obtain ⟨t, hstep⟩ := exists_step_allocate grow hB s object
  have hpart := partitioned_of_run hrun
  have hout : s.pool.Outgrows BlockSize := by
    have hsum := hpart.available_add
    refine ⟨List.eq_nil_of_length_eq_zero ?_, ?_⟩
    · change s.pool.available = 0
      omega
    · omega
  refine ⟨t, ?_, not_sound_of_outgrows hB hsound hpart hout hstep⟩
  rw [List.replicate_succ']
  exact hrun.snoc hstep

end Held

/-! ## The order pool -/

/-- The growth of a vector that takes the larger of its size and what it lacks. -/
def doubling (size newSize : ℕ) : ℕ := size + max size (newSize - size)

namespace OrderPool

def BlockSize : ℕ := 10000

structure PoolStats where
  orderCapacity : ℕ
  orderAvailable : ℕ
  marketDataCapacity : ℕ
  marketDataAvailable : ℕ
  tradeCapacity : ℕ
  tradeAvailable : ℕ
  deriving DecidableEq

def getStats (pool : MemoryPool Order) : PoolStats :=
  ⟨pool.capacity, pool.available, 0, 0, 0, 0⟩

/-- The order capacity reported is the orders available and those in use. -/
theorem getStats_of_run {grow : ℕ → ℕ → ℕ} {s : Held Order} {cs : List (PoolCall Order)}
    (h : Run (Held.Step grow BlockSize) (Held.create grow BlockSize) cs s) :
    (getStats s.pool).orderAvailable + s.live.length = (getStats s.pool).orderCapacity :=
  (Held.partitioned_of_run h).available_add

/-- The 10001st order in use moves the first ten thousand away from under their handles. -/
theorem createOrder_not_sound : ∃ s : Held Order,
    Run (Held.Step doubling BlockSize) (Held.create doubling BlockSize)
      (List.replicate 10001 (.allocate ⟨"O", "BTC-USDT", .buy, .limit, 50000, 1⟩)) s ∧
      ¬ s.Sound :=
  Held.exists_run_not_sound (by decide) (by decide) _

end OrderPool

end GoQuant
