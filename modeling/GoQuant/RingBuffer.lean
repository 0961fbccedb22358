import GoQuant.Lib.Run
import Mathlib.Data.List.Infix
import Mathlib.Data.Nat.ModEq
import Mathlib.Logic.Function.Basic

/-!
# The ring buffer

`ring_buffer.h`: a queue between one producer and one consumer in an array of `Size` slots, `Size`
a power of two. Each side stores its own index and loads the other's; an index is masked to the
slots. The steps of the two sides are taken one at a time, each side in program order, and what a
side has loaded may be out of date when it acts on it.

## Main definitions

* `RingBuffer.push`, `RingBuffer.pop`, `RingBuffer.empty`, `RingBuffer.size` — the operations
  as one piece.
* `SharedRing.Step` — the same in steps, a shared access each.
* `SharedRing.Linked` — what links the two indices to all that was ever pushed and popped.

## Main results

* `SharedRing.fifo_of_run` — under every interleaving the buffer is a bounded queue.
-/

namespace GoQuant

/-- `RingBuffer<T, Size>`. Slots past the last one are never touched. -/
structure RingBuffer (T : Type*) where
  buffer : ℕ → T
  head : BitVec 64
  tail : BitVec 64

namespace RingBuffer

variable {T : Type*} (Size : ℕ)

/-- The constructor: both indices 0, the slots as they are. -/
def create (buffer : ℕ → T) : RingBuffer T := ⟨buffer, 0, 0⟩

/-- `i & (Size - 1)` -/
def mask (i : BitVec 64) : BitVec 64 := i &&& BitVec.ofNat 64 (Size - 1)

/-- `buffer_[head] = item` -/
def write (r : RingBuffer T) (head : BitVec 64) (item : T) : RingBuffer T :=
  { r with buffer := Function.update r.buffer head.toNat item }

def push (r : RingBuffer T) (item : T) : Bool × RingBuffer T :=
  let next_head := mask Size (r.head + 1)
  if next_head = r.tail then (false, r)
  else (true, { r.write r.head item with head := next_head })

def pop (r : RingBuffer T) : Option T × RingBuffer T :=
  if r.tail = r.head then (none, r)
  else (some (r.buffer r.tail.toNat), { r with tail := mask Size (r.tail + 1) })

def empty (r : RingBuffer T) : Bool := r.head == r.tail

def size (r : RingBuffer T) : BitVec 64 := mask Size (r.head - r.tail)

end RingBuffer

/-- Where the producer stands in `push`: the step it takes next, with what it has loaded. -/
inductive Producer (T : Type*) where
  | idle
  | loadTail (item : T) (head : BitVec 64)
  | write (item : T) (head : BitVec 64)
  | storeHead (item : T) (head : BitVec 64)

/-- Where the consumer stands in `pop`. -/
inductive Consumer (T : Type*) where
  | idle
  | loadHead (tail : BitVec 64)
  | read (tail : BitVec 64)
  | storeTail (tail : BitVec 64) (item : T)

/-- The buffer, its two users, and the values of the pushes and pops that succeeded. -/
structure SharedRing (T : Type*) where
  ring : RingBuffer T
  producer : Producer T
  consumer : Consumer T
  pushed : List T
  popped : List T

/-- Which side moves; a producer that is idle starts to push `item`. -/
inductive RingMove (T : Type*) where
  | produce (item : T)
  | consume

namespace SharedRing

variable {T : Type*} (Size : ℕ)

def start (buffer : ℕ → T) : SharedRing T := ⟨.create buffer, .idle, .idle, [], []⟩

/-- The next step of `push`. -/
def produce (s : SharedRing T) (item : T) : SharedRing T :=
  match s.producer with
  | .idle => { s with producer := .loadTail item s.ring.head }
  | .loadTail item head =>
    -- full: `push` returns false
    if RingBuffer.mask Size (head + 1) = s.ring.tail then { s with producer := .idle }
    else { s with producer := .write item head }
  | .write item head =>
    { s with ring := s.ring.write head item, producer := .storeHead item head }
  | .storeHead item head =>
    { s with
      ring := { s.ring with head := RingBuffer.mask Size (head + 1) }
      producer := .idle
      pushed := s.pushed ++ [item] }

/-- The next step of `pop`. -/
def consume (s : SharedRing T) : SharedRing T :=
  match s.consumer with
  | .idle => { s with consumer := .loadHead s.ring.tail }
  | .loadHead tail =>
    -- empty: `pop` returns nothing
    if tail = s.ring.head then { s with consumer := .idle }
    else { s with consumer := .read tail }
  | .read tail => { s with consumer := .storeTail tail (s.ring.buffer tail.toNat) }
  | .storeTail tail item =>
    { s with
      ring := { s.ring with tail := RingBuffer.mask Size (tail + 1) }
      consumer := .idle
      popped := s.popped ++ [item] }

def move (s : SharedRing T) : RingMove T → SharedRing T
  | .produce item => s.produce Size item
  | .consume => s.consume Size

def Step (s : SharedRing T) (m : RingMove T) (t : SharedRing T) : Prop := t = s.move Size m

/-- The number of values pushed and not yet popped. -/
def unpopped (s : SharedRing T) : ℕ := s.pushed.length - s.popped.length

/-- The producer's part of the invariant: it has its own index, and once it has found room there
is room until it stores. -/
def Producer.Linked (s : SharedRing T) : Producer T → Prop
  | .idle => True
  | .loadTail _ head => head = s.ring.head
  | .write _ head => head = s.ring.head ∧ s.pushed.length + 1 < s.popped.length + Size
  | .storeHead item head => head = s.ring.head ∧
      s.pushed.length + 1 < s.popped.length + Size ∧ s.ring.buffer head.toNat = item

/-- The consumer's part of the invariant. -/
def Consumer.Linked (s : SharedRing T) : Consumer T → Prop
  | .idle => True
  | .loadHead tail => tail = s.ring.tail
  | .read tail => tail = s.ring.tail ∧ s.popped.length < s.pushed.length
  | .storeTail tail item => tail = s.ring.tail ∧ s.pushed[s.popped.length]? = some item

/-- The indices count what was pushed and popped, and the slots between them hold what was not
popped yet. -/
structure Linked (s : SharedRing T) : Prop where
  head : s.ring.head.toNat = s.pushed.length % Size
  tail : s.ring.tail.toNat = s.popped.length % Size
  popped : s.popped <+: s.pushed
  room : s.pushed.length < s.popped.length + Size
  slots : ∀ i item, s.popped.length ≤ i → s.pushed[i]? = some item →
    s.ring.buffer (i % Size) = item
  producer : Producer.Linked Size s s.producer
  consumer : Consumer.Linked s s.consumer

end SharedRing

/-! ## Masked indices -/

section Mask

variable {Size m n : ℕ} {i j : BitVec 64}

theorem dvd_two_pow_of_isPowerOfTwo (hSize : Size.isPowerOfTwo) (hlt : Size < 2 ^ 64) :
    Size ∣ 2 ^ 64 := by
  obtain ⟨k, rfl⟩ := hSize
  exact pow_dvd_pow 2 ((Nat.pow_lt_pow_iff_right Nat.one_lt_two).mp hlt).le

theorem RingBuffer.toNat_mask (hSize : Size.isPowerOfTwo) (hlt : Size < 2 ^ 64) (i : BitVec 64) :
    (mask Size i).toNat = i.toNat % Size := by
  obtain ⟨k, rfl⟩ := hSize
  have hmask : (2 ^ k - 1) % 2 ^ 64 = 2 ^ k - 1 := Nat.mod_eq_of_lt (by omega)
  rw [mask, BitVec.toNat_and, BitVec.toNat_ofNat, hmask, Nat.and_two_pow_sub_one_eq_mod]

/-- An index that counts `n` counts one more when it is advanced. -/
theorem RingBuffer.toNat_mask_succ (hSize : Size.isPowerOfTwo) (hlt : Size < 2 ^ 64)
    (hi : i.toNat = n % Size) : (mask Size (i + 1)).toNat = (n + 1) % Size := by
  rw [toNat_mask hSize hlt, BitVec.toNat_add, hi,
    Nat.mod_mod_of_dvd _ (dvd_two_pow_of_isPowerOfTwo hSize hlt)]
  change (n % Size + 1) % Size = _
  rw [Nat.mod_add_mod]

/-- Counts less than a lap apart have different slots. -/
theorem mod_inj_of_lt (hmn : m ≤ n) (hlt : n < m + Size) : n % Size = m % Size ↔ n = m := by
  constructor
  · intro heq
    have hdvd : Size ∣ n - m := (Nat.modEq_iff_dvd' hmn).mp heq.symm
    have hzero := Nat.eq_zero_of_dvd_of_lt hdvd (by omega)
    omega
  · exact fun heq => by rw [heq]

/-- The next slot is that of the other count exactly when a full lap is between them. -/
theorem succ_mod_eq_iff (hmn : m ≤ n) (hlt : n < m + Size) :
    (n + 1) % Size = m % Size ↔ n + 1 = m + Size := by
  constructor
  · intro heq
    have hdvd : Size ∣ n + 1 - m := (Nat.modEq_iff_dvd' (by omega)).mp heq.symm
    have hle := Nat.le_of_dvd (by omega) hdvd
    omega
  · intro heq
    rw [heq, Nat.add_mod_right]

/-- The masked difference of the indices is the difference of the counts, wherever the indices
have wrapped. -/
theorem RingBuffer.toNat_mask_sub (hSize : Size.isPowerOfTwo) (hlt : Size < 2 ^ 64)
    (hi : i.toNat = n % Size) (hj : j.toNat = m % Size) (hmn : m ≤ n) (hroom : n < m + Size) :
    (mask Size (i - j)).toNat = n - m := by
  have hdvd := dvd_two_pow_of_isPowerOfTwo hSize hlt
  have hpos : 0 < Size := by omega
  have hm : m % Size < Size := Nat.mod_lt m hpos
  rw [toNat_mask hSize hlt, BitVec.toNat_sub, hi, hj, Nat.mod_mod_of_dvd _ hdvd]
  have hmod : (2 ^ 64 - m % Size + n % Size) ≡ n - m [MOD Size] := by
    have hn : n % Size ≡ n [MOD Size] := Nat.mod_modEq n Size
    have hlap : 2 ^ 64 - m % Size + m ≡ 0 [MOD Size] := by
      have hm' : 2 ^ 64 - m % Size + m = 2 ^ 64 + Size * (m / Size) := by
        have hdiv := Nat.mod_add_div m Size
        omega
      rw [hm']
      exact Nat.modEq_zero_iff_dvd.mpr (Nat.dvd_add hdvd (Dvd.intro _ rfl))
    calc 2 ^ 64 - m % Size + n % Size
        ≡ 2 ^ 64 - m % Size + n [MOD Size] := hn.add_left _
      _ = 2 ^ 64 - m % Size + m + (n - m) := by omega
      _ ≡ 0 + (n - m) [MOD Size] := hlap.add_right _
      _ = n - m := Nat.zero_add _
  exact Nat.mod_eq_of_modEq hmod (by omega)

end Mask

/-! ## The invariant -/

namespace SharedRing

variable {T : Type*} {Size : ℕ} {s t : SharedRing T}

theorem Linked.start (hpos : 0 < Size) (buffer : ℕ → T) : (start buffer).Linked Size where
  head := (Nat.zero_mod Size).symm
  tail := (Nat.zero_mod Size).symm
  popped := List.prefix_rfl
  room := by simpa [SharedRing.start] using hpos
  slots := fun i item _ hi => by simp [SharedRing.start] at hi
  producer := trivial
  consumer := trivial

/-- The next index is the other side's exactly when all slots but one are in use. -/
theorem Linked.full_iff (hSize : Size.isPowerOfTwo) (hlt : Size < 2 ^ 64) (h : s.Linked Size) :
    RingBuffer.mask Size (s.ring.head + 1) = s.ring.tail ↔ s.unpopped = Size - 1 := by
  have hle := h.popped.length_le
  have hroom := h.room
  rw [← BitVec.toNat_inj, RingBuffer.toNat_mask_succ hSize hlt h.head, h.tail,
    succ_mod_eq_iff hle hroom, unpopped]
  omega

theorem Linked.empty_iff (h : s.Linked Size) : s.ring.tail = s.ring.head ↔ s.unpopped = 0 := by
  have hle := h.popped.length_le
  rw [← BitVec.toNat_inj, h.head, h.tail, eq_comm, mod_inj_of_lt hle h.room, unpopped]
  omega

/-- What the producer relies on: only it moves the head, and only it takes room away. -/
theorem Producer.Linked.mono {p : Producer T} (h : Producer.Linked Size s p)
    (hring : t.ring.head = s.ring.head ∧ t.ring.buffer = s.ring.buffer)
    (hpushed : t.pushed = s.pushed) (hpopped : s.popped.length ≤ t.popped.length) :
    Producer.Linked Size t p := by
  obtain ⟨hhead, hbuffer⟩ := hring
  cases p with
  | idle => trivial
  | loadTail item head => exact h.trans hhead.symm
  | write item head =>
    obtain ⟨heq, hroom⟩ := h
    refine ⟨heq.trans hhead.symm, ?_⟩
    rw [hpushed]
    exact hroom.trans_le (Nat.add_le_add_right hpopped Size)
  | storeHead item head =>
    obtain ⟨heq, hroom, hitem⟩ := h
    refine ⟨heq.trans hhead.symm, ?_, ?_⟩
    · rw [hpushed]
      exact hroom.trans_le (Nat.add_le_add_right hpopped Size)
    · rw [hbuffer]
      exact hitem

/-- What the consumer relies on: only it moves the tail, and a value pushed stays pushed. -/
theorem Consumer.Linked.mono {c : Consumer T} (h : Consumer.Linked s c)
    (htail : t.ring.tail = s.ring.tail) (hpopped : t.popped = s.popped)
    (hpushed : s.pushed <+: t.pushed) : Consumer.Linked t c := by
  cases c with
  | idle => trivial
  | loadHead tail => exact h.trans htail.symm
  | read tail =>
    obtain ⟨heq, hvalue⟩ := h
    refine ⟨heq.trans htail.symm, ?_⟩
    rw [hpopped]
    exact hvalue.trans_le hpushed.length_le
  | storeTail tail item =>
    obtain ⟨heq, hnext⟩ := h
    obtain ⟨rest, hrest⟩ := hpushed
    have hlast := (List.getElem?_eq_some_iff.mp hnext).1
    refine ⟨heq.trans htail.symm, ?_⟩
    rw [hpopped, ← hrest, List.getElem?_append_left hlast]
    exact hnext

theorem Linked.produce (hSize : Size.isPowerOfTwo) (hlt : Size < 2 ^ 64) (h : s.Linked Size)
    (item : T) : (s.produce Size item).Linked Size := by
  have hle := h.popped.length_le
  have hroom := h.room
  have hfull := h.full_iff hSize hlt
  have hproducer := h.producer
  unfold SharedRing.produce
  split <;> rename_i hat <;> rw [hat] at hproducer
  · exact { h with producer := rfl }
  · -- the tail is read: from here on there is room
    rename_i item head
    obtain rfl : head = s.ring.head := hproducer
    split_ifs with hnext
    · exact { h with producer := trivial }
    · refine { h with producer := ⟨rfl, ?_⟩ }
      have hne : s.unpopped ≠ Size - 1 := fun heq => hnext (hfull.mpr heq)
      unfold unpopped at hne
      change s.pushed.length + 1 < s.popped.length + Size
      omega
  · -- the slot written is none of those in use
    rename_i item head
    obtain ⟨rfl, hfree⟩ := hproducer
    refine { h with slots := ?_, producer := ⟨rfl, hfree, ?_⟩ }
    · intro i item' hi hitem
      replace hi : s.popped.length ≤ i := hi
      have hlast : i < s.pushed.length := (List.getElem?_eq_some_iff.mp hitem).1
      have hne : i % Size ≠ s.ring.head.toNat := by
        rw [h.head, ne_comm, Ne, mod_inj_of_lt hlast.le (by omega)]
        omega
      change Function.update s.ring.buffer s.ring.head.toNat item (i % Size) = item'
      rw [Function.update_of_ne hne]
      exact h.slots i item' hi hitem
    · exact Function.update_self ..
  · -- the value is handed over
    rename_i item head
    obtain ⟨rfl, hfree, hitem⟩ := hproducer
    have hlength : (s.pushed ++ [item]).length = s.pushed.length + 1 := by simp
    refine ⟨?_, h.tail, h.popped.trans (List.prefix_append _ _), ?_, ?_, trivial, ?_⟩
    · rw [hlength]
      exact RingBuffer.toNat_mask_succ hSize hlt h.head
    · rwa [hlength]
    · intro i item' hi hget
      by_cases hlast : i < s.pushed.length
      · rw [List.getElem?_append_left hlast] at hget
        exact h.slots i item' hi hget
      · have hi' : i < (s.pushed ++ [item]).length := (List.getElem?_eq_some_iff.mp hget).1
        obtain rfl : i = s.pushed.length := by omega
        rw [List.getElem?_concat_length, Option.some.injEq] at hget
        rw [← h.head, ← hget]
        exact hitem
    · exact h.consumer.mono rfl rfl (List.prefix_append _ _)

theorem Linked.consume (hSize : Size.isPowerOfTwo) (hlt : Size < 2 ^ 64) (h : s.Linked Size) :
    (s.consume Size).Linked Size := by
  have hle := h.popped.length_le
  have hempty := h.empty_iff
  have hconsumer := h.consumer
  unfold SharedRing.consume
  split <;> rename_i hat <;> rw [hat] at hconsumer
  · exact { h with consumer := rfl }
  · -- the head is read: from here on there is a value
    rename_i tail
    obtain rfl : tail = s.ring.tail := hconsumer
    split_ifs with hnext
    · exact { h with consumer := trivial }
    · refine { h with consumer := ⟨rfl, ?_⟩ }
      have hne : s.unpopped ≠ 0 := fun heq => hnext (hempty.mpr heq)
      unfold unpopped at hne
      change s.popped.length < s.pushed.length
      omega
  · -- the value read is the next one pushed
    rename_i tail
    obtain ⟨rfl, hvalue⟩ := hconsumer
    refine { h with consumer := ⟨rfl, ?_⟩ }
    have hget : s.pushed[s.popped.length]? = some s.pushed[s.popped.length] :=
      List.getElem?_eq_getElem hvalue
    change s.pushed[s.popped.length]? = some (s.ring.buffer s.ring.tail.toNat)
    rw [h.tail, h.slots _ _ le_rfl hget, hget]
  · -- the slot is given back
    rename_i tail item
    obtain ⟨rfl, hnext⟩ := hconsumer
    have hlength : (s.popped ++ [item]).length = s.popped.length + 1 := by simp
    have hlast := (List.getElem?_eq_some_iff.mp hnext).1
    refine ⟨h.head, ?_, ?_, ?_, ?_, ?_, trivial⟩
    · rw [hlength]
      exact RingBuffer.toNat_mask_succ hSize hlt h.tail
    · rw [List.prefix_iff_eq_take, hlength, List.take_add_one, hnext,
        ← List.prefix_iff_eq_take.mp h.popped]
      rfl
    · rw [hlength]
      exact h.room.trans (by omega)
    · intro i item' hi hget
      rw [hlength] at hi
      exact h.slots i item' (Nat.le_of_succ_le hi) hget
    · exact h.producer.mono ⟨rfl, rfl⟩ rfl (hlength ▸ Nat.le_succ _)

/-- One step of either side keeps the link. -/
theorem Linked.step {m : RingMove T} (hSize : Size.isPowerOfTwo) (hlt : Size < 2 ^ 64)
    (h : s.Linked Size) (hstep : s.Step Size m t) : t.Linked Size := by
  subst hstep
  cases m with
  | produce item => exact h.produce hSize hlt item
  | consume => exact h.consume hSize hlt

theorem linked_of_run (hSize : Size.isPowerOfTwo) (hlt : Size < 2 ^ 64) {buffer : ℕ → T}
    {ms : List (RingMove T)} (h : Run (Step Size) (SharedRing.start buffer) ms s) :
    s.Linked Size := by
  have hpos : 0 < Size := Nat.pos_of_isPowerOfTwo hSize
  exact h.invariant _ (.start hpos buffer) fun _ _ _ => Linked.step hSize hlt

/-! ## Operations as one piece -/

variable (Size s) in
/-- Every list of moves is a run. -/
theorem run_foldl (ms : List (RingMove T)) : Run (Step Size) s ms (ms.foldl (move Size) s) := by
  induction ms using List.reverseRecOn with
  | nil => exact .nil
  | append_singleton ms m ih =>
    rw [List.foldl_append]
    exact ih.snoc rfl

/-- The steps of a push that nothing interrupts do what `push` does. -/
theorem run_push (hidle : s.producer = .idle) (item : T) :
    Run (Step Size) s (List.replicate (if (s.ring.push Size item).1 then 4 else 2) (.produce item))
      { s with
        ring := (s.ring.push Size item).2
        pushed := if (s.ring.push Size item).1 then s.pushed ++ [item] else s.pushed } := by
  obtain ⟨ring, producer, consumer, pushed, popped⟩ := s
  obtain rfl : producer = .idle := hidle
  have hrun := fun n => run_foldl Size ⟨ring, .idle, consumer, pushed, popped⟩
    (List.replicate n (.produce item))
  by_cases hfull : RingBuffer.mask Size (ring.head + 1) = ring.tail
  · have hpush : ring.push Size item = (false, ring) := if_pos hfull
    have hend := hrun 2
    simp only [List.replicate, List.foldl_cons, List.foldl_nil, move, produce, if_pos hfull]
      at hend
    rw [hpush]
    exact hend
  · have hpush : ring.push Size item = (true, { ring.write ring.head item with
        head := RingBuffer.mask Size (ring.head + 1) }) := if_neg hfull
    have hend := hrun 4
    simp only [List.replicate, List.foldl_cons, List.foldl_nil, move, produce, if_neg hfull]
      at hend
    rw [hpush]
    exact hend

/-- So do those of a pop. -/
theorem run_pop (hidle : s.consumer = .idle) :
    Run (Step Size) s (List.replicate (if (s.ring.pop Size).1.isSome then 4 else 2) .consume)
      { s with
        ring := (s.ring.pop Size).2
        popped := s.popped ++ (s.ring.pop Size).1.toList } := by
  obtain ⟨ring, producer, consumer, pushed, popped⟩ := s
  obtain rfl : consumer = .idle := hidle
  have hrun := fun n => run_foldl Size ⟨ring, producer, .idle, pushed, popped⟩
    (List.replicate n .consume)
  by_cases hempty : ring.tail = ring.head
  · have hpop : ring.pop Size = (none, ring) := if_pos hempty
    have hend := hrun 2
    simp only [List.replicate, List.foldl_cons, List.foldl_nil, move, consume, if_pos hempty]
      at hend
    rw [hpop, Option.toList_none, List.append_nil]
    exact hend
  · have hpop : ring.pop Size = (some (ring.buffer ring.tail.toNat), { ring with
        tail := RingBuffer.mask Size (ring.tail + 1) }) := if_neg hempty
    have hend := hrun 4
    simp only [List.replicate, List.foldl_cons, List.foldl_nil, move, consume, if_neg hempty]
      at hend
    rw [hpop]
    exact hend

/-- In every state that a producer and a consumer reach, step by step: what was popped is a prefix
of what was pushed, one slot stays free, the indices are slots and no slot is written and read at
once; the operations tell the number of unpopped values as it is, `push` failing at `Size - 1` and
`pop` at 0, also for a push or a pop under way when it looks at the other side's index. -/
theorem fifo_of_run (hSize : Size.isPowerOfTwo) (hlt : Size < 2 ^ 64) {buffer : ℕ → T}
    {ms : List (RingMove T)} (h : Run (Step Size) (SharedRing.start buffer) ms s) :
    s.popped <+: s.pushed ∧ s.unpopped ≤ Size - 1 ∧
      (s.ring.head.toNat < Size ∧ s.ring.tail.toNat < Size) ∧
      (∀ item head tail, s.producer = .write item head → s.consumer = .read tail → head ≠ tail) ∧
      ((s.ring.size Size).toNat = s.unpopped ∧
        (∀ item, (s.ring.push Size item).1 = false ↔ s.unpopped = Size - 1) ∧
        ((s.ring.pop Size).1 = none ↔ s.unpopped = 0)) ∧
      (∀ item head item', s.producer = .loadTail item head →
        ((s.produce Size item').producer = .idle ↔ s.unpopped = Size - 1)) ∧
      ∀ tail, s.consumer = .loadHead tail →
        ((s.consume Size).consumer = .idle ↔ s.unpopped = 0) := by
  have hpos : 0 < Size := Nat.pos_of_isPowerOfTwo hSize
  have hlinked := linked_of_run hSize hlt h
  have hle := hlinked.popped.length_le
  have hroom := hlinked.room
  have hfull := hlinked.full_iff hSize hlt
  have hempty := hlinked.empty_iff
  refine ⟨hlinked.popped, ?_, ⟨?_, ?_⟩, ?_, ⟨?_, ?_, ?_⟩, ?_, ?_⟩
  · unfold unpopped
    omega
  · rw [hlinked.head]
    exact Nat.mod_lt _ hpos
  · rw [hlinked.tail]
    exact Nat.mod_lt _ hpos
  · intro item head tail hwrite hread heq
    have hproducer := hlinked.producer
    have hconsumer := hlinked.consumer
    rw [hwrite] at hproducer
    rw [hread] at hconsumer
    obtain ⟨rfl, -⟩ := hproducer
    obtain ⟨htail, hvalue⟩ := hconsumer
    have hnone := hempty.mp (htail.symm.trans heq.symm)
    unfold unpopped at hnone
    omega
  · exact RingBuffer.toNat_mask_sub hSize hlt hlinked.head hlinked.tail hle hroom
  · intro item
    rw [← hfull, RingBuffer.push]
    split_ifs with hnext
    · exact iff_of_true rfl hnext
    · exact iff_of_false nofun hnext
  · rw [← hempty, RingBuffer.pop]
    split_ifs with hnext
    · exact iff_of_true rfl hnext
    · exact iff_of_false nofun hnext
  · intro item head item' hat
    have hproducer := hlinked.producer
    rw [hat] at hproducer
    obtain rfl : head = s.ring.head := hproducer
    rw [← hfull, produce, hat]
    dsimp only
    split_ifs with hnext
    · exact iff_of_true rfl hnext
    · exact iff_of_false nofun hnext
  · intro tail hat
    have hconsumer := hlinked.consumer
    rw [hat] at hconsumer
    obtain rfl : tail = s.ring.tail := hconsumer
    rw [← hempty, consume, hat]
    dsimp only
    split_ifs with hnext
    · exact iff_of_true rfl hnext
    · exact iff_of_false nofun hnext

/-- Two slots: the second push finds the buffer full, and a pop takes the first value. -/
theorem fifo_of_run_two_slots :
    let ms : List (RingMove ℕ) := List.replicate 4 (.produce 7) ++
      List.replicate 2 (.produce 8) ++ List.replicate 4 .consume
    let s : SharedRing ℕ := ms.foldl (move 2) (start fun _ => 0)
    (s.pushed = [7] ∧ s.popped = [7]) ∧
    s.popped <+: s.pushed ∧ s.unpopped ≤ 2 - 1 ∧
      (s.ring.head.toNat < 2 ∧ s.ring.tail.toNat < 2) ∧
      (∀ item head tail, s.producer = .write item head → s.consumer = .read tail → head ≠ tail) ∧
      ((s.ring.size 2).toNat = s.unpopped ∧
        (∀ item, (s.ring.push 2 item).1 = false ↔ s.unpopped = 2 - 1) ∧
        ((s.ring.pop 2).1 = none ↔ s.unpopped = 0)) ∧
      (∀ item head item', s.producer = .loadTail item head →
        ((s.produce 2 item').producer = .idle ↔ s.unpopped = 2 - 1)) ∧
      ∀ tail, s.consumer = .loadHead tail →
        ((s.consume 2).consumer = .idle ↔ s.unpopped = 0) := by
  intro ms s
  exact ⟨by decide, fifo_of_run ⟨1, rfl⟩ (by decide) (run_foldl 2 (start fun _ => 0) ms)⟩

end SharedRing

end GoQuant
