import Nxweb.Lib.BoundedFifo
import Nxweb.Server.Workers

/-!
# A queue between two threads

The queue that `NX_QUEUE_DECLARE` of `nx_queue_tpl.h` declares, for items of any type and any
number `max_items` of cells. There is no lock between the one thread that pushes and the one that
pops, and takes the length; for the queue of idle workers, these are the workers, one at a time
under `queue_mux`, and the factory thread.

The threads take turns in steps of one read or write of `head`, `tail` or a cell each. Between the
accesses of one expression, its operands are read from left to right. The memory barriers make the
steps of a thread visible in their order, so there is one memory for both.

## Main statements

* `nxQueue_refines`: in every run, each step is one of a bounded queue, or changes nothing there,
  and the answers of both threads are right;
* `WorkerQueue.length_eq`, `WorkerQueue.isFull_eq`: the queue of idle workers in `WorkerFactory`
  has the operations of this one.
-/

namespace Nxweb

open Lib

variable {α : Type*}

/-- Where the thread is that pushes: what it does next. -/
inductive ProducerPc (α : Type*)
  | idle
  /-- `q->head` in `nx_queue_is_full`, with the item to push. -/
  | fullHead (x : α)
  /-- `q->tail` in `nx_queue_is_full`, with what was read of `head` and the number of items that
  were present then. -/
  | fullTail (x : α) (head present : ℕ)
  /-- `q->tail` in `q->items[q->tail]=*item`. -/
  | itemTail (x : α)
  /-- The write of `q->items[q->tail]=*item`. -/
  | itemWrite (x : α) (i : ℕ)
  /-- `q->tail` in `q->tail=(q->tail+1)%(max_items)`. -/
  | nextTail (x : α)
  /-- The write of `q->tail=(q->tail+1)%(max_items)`. -/
  | tailWrite (x : α) (tail : ℕ)

/-- Where the thread is that pops: what it does next. -/
inductive ConsumerPc (α : Type*)
  | idle
  /-- `q->head` in `nx_queue_is_empty`. -/
  | emptyHead
  /-- `q->tail` in `nx_queue_is_empty`. -/
  | emptyTail (head : ℕ)
  /-- `q->head` in `*item=q->items[q->head]`. -/
  | itemHead
  /-- The read of the cell in `*item=q->items[q->head]`. -/
  | itemRead (i : ℕ)
  /-- `q->head` in `q->head=(q->head+1)%(max_items)`. -/
  | nextHead (x : α)
  /-- The write of `q->head=(q->head+1)%(max_items)`. -/
  | headWrite (x : α) (head : ℕ)
  /-- `q->tail` in `nx_queue_length`. -/
  | lengthTail
  /-- `q->head` in `nx_queue_length`. -/
  | lengthHead (tail : ℕ)

/-- `nx_queue_##name` with its two threads, and what their calls have returned. -/
structure NxQueue (α : Type*) where
  head : ℕ
  tail : ℕ
  items : ℕ → α
  producer : ProducerPc α
  consumer : ConsumerPc α
  /-- The items that were pushed. -/
  pushed : List α
  /-- The items that were popped. -/
  popped : List α
  /-- For each push that failed, how many items were present at its check. -/
  failedPushes : List ℕ
  /-- For each pop that failed, how many items were present at its check. -/
  failedPops : List ℕ
  /-- The lengths that were computed, each with the number of items present then. -/
  lengths : List (ℤ × ℕ)

/-- What can happen. -/
inductive NxQueueEvent (α : Type*)
  /-- `nx_queue_push` is called. -/
  | push (x : α)
  /-- `nx_queue_pop` is called. -/
  | pop
  /-- `nx_queue_length` is called. -/
  | length
  /-- The next step of the thread that pushes. -/
  | producer
  /-- The next step of the thread that pops. -/
  | consumer

/-- What `nx_queue_length` computes from the indices. -/
def nxQueueLength (n head tail : ℕ) : ℤ :=
  let nitems : ℤ := tail - head
  if 0 ≤ nitems then nitems else nitems + n

namespace NxQueue

/-- `nx_queue_init`, in any memory. -/
def init (items : ℕ → α) : NxQueue α where
  head := 0
  tail := 0
  items := items
  producer := .idle
  consumer := .idle
  pushed := []
  popped := []
  failedPushes := []
  failedPops := []
  lengths := []

/-- The number of items in a queue with `n` cells. -/
def present (n : ℕ) (q : NxQueue α) : ℕ := ringSpan n q.head q.tail

/-- The items in a queue with `n` cells, with those that went in and came out. -/
def fifo (n : ℕ) (q : NxQueue α) : Fifo α :=
  ⟨ringCells q.items n q.head q.tail, q.pushed, q.popped⟩

/-- The next step of `nx_queue_push`. -/
def producerStep (n : ℕ) (q : NxQueue α) : Option (NxQueue α) :=
  match q.producer with
  | .idle => none
  | .fullHead x => some { q with producer := .fullTail x q.head (q.present n) }
  | .fullTail x head present =>
    if head = (q.tail + 1) % n then
      some { q with producer := .idle, failedPushes := q.failedPushes ++ [present] }
    else some { q with producer := .itemTail x }
  | .itemTail x => some { q with producer := .itemWrite x q.tail }
  | .itemWrite x i => some { q with items := Function.update q.items i x, producer := .nextTail x }
  | .nextTail x => some { q with producer := .tailWrite x q.tail }
  | .tailWrite x tail =>
    some { q with tail := (tail + 1) % n, producer := .idle, pushed := q.pushed ++ [x] }

/-- The next step of `nx_queue_pop` or `nx_queue_length`. -/
def consumerStep (n : ℕ) (q : NxQueue α) : Option (NxQueue α) :=
  match q.consumer with
  | .idle => none
  | .emptyHead => some { q with consumer := .emptyTail q.head }
  | .emptyTail head =>
    if head = q.tail then
      some { q with consumer := .idle, failedPops := q.failedPops ++ [q.present n] }
    else some { q with consumer := .itemHead }
  | .itemHead => some { q with consumer := .itemRead q.head }
  | .itemRead i => some { q with consumer := .nextHead (q.items i) }
  | .nextHead x => some { q with consumer := .headWrite x q.head }
  | .headWrite x head =>
    some { q with head := (head + 1) % n, consumer := .idle, popped := q.popped ++ [x] }
  | .lengthTail => some { q with consumer := .lengthHead q.tail }
  | .lengthHead tail =>
    some { q with
      consumer := .idle
      lengths := q.lengths ++ [(nxQueueLength n q.head tail, q.present n)] }

/-- A single event. A thread makes one call after another. -/
def step (n : ℕ) (q : NxQueue α) : NxQueueEvent α → Option (NxQueue α)
  | .push x => match q.producer with
    | .idle => some { q with producer := .fullHead x }
    | _ => none
  | .pop => match q.consumer with
    | .idle => some { q with consumer := .emptyHead }
    | _ => none
  | .length => match q.consumer with
    | .idle => some { q with consumer := .lengthTail }
    | _ => none
  | .producer => q.producerStep n
  | .consumer => q.consumerStep n

/-! ### What holds in every run -/

/-- The answers of both threads are right, and no cell is written that may still be read. -/
structure Correct (n : ℕ) (q : NxQueue α) : Prop where
  /-- Items are popped once each, in the order in which they were pushed. -/
  order : q.pushed = q.popped ++ ringCells q.items n q.head q.tail
  failed_push : ∀ m ∈ q.failedPushes, m = n - 1
  failed_pop : ∀ m ∈ q.failedPops, m = 0
  length_le : ∀ r ∈ q.lengths, r.1 ≤ r.2
  /-- The cell to write next holds no item, and is not the one to read next. -/
  write : ∀ x i, q.producer = .itemWrite x i → i < n ∧
    (∀ k < q.present n, (q.head + k) % n ≠ i) ∧ q.consumer ≠ .itemRead i
  /-- The cell to read next holds the first item. -/
  read : ∀ i, q.consumer = .itemRead i → i < n ∧ i = q.head ∧ 0 < q.present n

/-- What the thread that pushes knows. -/
def ProducerOk (n : ℕ) (q : NxQueue α) : Prop :=
  match q.producer with
  | .idle | .fullHead _ => True
  | .fullTail _ head present =>
    (head = (q.tail + 1) % n → present = n - 1) ∧
      (head ≠ (q.tail + 1) % n → q.present n < n - 1)
  | .itemTail _ => q.present n < n - 1
  | .itemWrite _ i => i = q.tail ∧ q.present n < n - 1
  | .nextTail x => q.present n < n - 1 ∧ q.items q.tail = x
  | .tailWrite x tail => tail = q.tail ∧ q.present n < n - 1 ∧ q.items q.tail = x

/-- What the thread that pops knows. -/
def ConsumerOk (n : ℕ) (q : NxQueue α) : Prop :=
  match q.consumer with
  | .idle | .emptyHead | .lengthTail => True
  | .emptyTail head => head = q.head
  | .itemHead => 0 < q.present n
  | .itemRead i => i = q.head ∧ 0 < q.present n
  | .nextHead x => 0 < q.present n ∧ q.items q.head = x
  | .headWrite x head => head = q.head ∧ 0 < q.present n ∧ q.items q.head = x
  | .lengthHead tail => nxQueueLength n q.head tail ≤ q.present n

/-- What holds between two steps. -/
structure Sound (n : ℕ) (q : NxQueue α) : Prop where
  head_lt : q.head < n
  tail_lt : q.tail < n
  producer : q.ProducerOk n
  consumer : q.ConsumerOk n
  ordered : (q.fifo n).Ordered (n - 1)
  failed_push : ∀ m ∈ q.failedPushes, m = n - 1
  failed_pop : ∀ m ∈ q.failedPops, m = 0
  length_le : ∀ r ∈ q.lengths, r.1 ≤ r.2

variable {n : ℕ} {q q' : NxQueue α}

/-- The thread that pops may go on relying on what it knows when items come in. -/
theorem ConsumerOk.of_le (h : q.ConsumerOk n) (hpc : q'.consumer = q.consumer)
    (hhead : q'.head = q.head) (hle : q.present n ≤ q'.present n)
    (hitem : 0 < q.present n → q'.items q.head = q.items q.head) : q'.ConsumerOk n := by
  rw [ConsumerOk, hpc, hhead]
  rw [ConsumerOk] at h
  cases hconsumer : q.consumer with
  | idle | emptyHead | lengthTail => trivial
  | emptyTail head => simpa only [hconsumer] using h
  | itemHead =>
    simp only [hconsumer] at h
    exact h.trans_le hle
  | itemRead i =>
    simp only [hconsumer] at h
    exact ⟨h.1, h.2.trans_le hle⟩
  | nextHead x =>
    simp only [hconsumer] at h
    exact ⟨h.1.trans_le hle, (hitem h.1).trans h.2⟩
  | headWrite x head =>
    simp only [hconsumer] at h
    exact ⟨h.1, h.2.1.trans_le hle, (hitem h.2.1).trans h.2.2⟩
  | lengthHead tail =>
    simp only [hconsumer] at h
    exact h.trans (Nat.cast_le.mpr hle)

/-- The thread that pushes may go on relying on what it knows when items go out. -/
theorem ProducerOk.of_le (h : q.ProducerOk n) (hpc : q'.producer = q.producer)
    (htail : q'.tail = q.tail) (hle : q'.present n ≤ q.present n) (hitems : q'.items = q.items) :
    q'.ProducerOk n := by
  rw [ProducerOk, hpc, htail, hitems]
  rw [ProducerOk] at h
  cases hproducer : q.producer with
  | idle | fullHead _ => trivial
  | fullTail x head present =>
    simp only [hproducer] at h
    exact ⟨h.1, fun hne => hle.trans_lt (h.2 hne)⟩
  | itemTail x =>
    simp only [hproducer] at h
    exact hle.trans_lt h
  | itemWrite x i =>
    simp only [hproducer] at h
    exact ⟨h.1, hle.trans_lt h.2⟩
  | nextTail x =>
    simp only [hproducer] at h
    exact ⟨hle.trans_lt h.1, h.2⟩
  | tailWrite x tail =>
    simp only [hproducer] at h
    exact ⟨h.1, hle.trans_lt h.2.1, h.2.2⟩

/-- The item of the first cell stays when the cell behind the last one is written. -/
theorem Sound.head_ne_tail (h : q.Sound n) (hpos : 0 < q.present n) : q.head ≠ q.tail := fun heq =>
  hpos.ne' ((ringSpan_eq_zero_iff h.head_lt).mpr heq)

/-- There is always a free cell. -/
theorem Sound.present_le (h : q.Sound n) : q.present n ≤ n - 1 := by
  have := ringSpan_lt h.head_lt h.tail_lt
  rw [present]
  omega

/-- Only the place of the thread that pushes changes. -/
theorem Sound.producerAt (h : q.Sound n) {pc : ProducerPc α}
    (hok : ProducerOk n { q with producer := pc }) : Sound n { q with producer := pc } :=
  ⟨h.head_lt, h.tail_lt, hok, h.consumer, h.ordered, h.failed_push, h.failed_pop, h.length_le⟩

/-- Only the place of the thread that pops changes. -/
theorem Sound.consumerAt (h : q.Sound n) {pc : ConsumerPc α}
    (hok : ConsumerOk n { q with consumer := pc }) : Sound n { q with consumer := pc } :=
  ⟨h.head_lt, h.tail_lt, h.producer, hok, h.ordered, h.failed_push, h.failed_pop, h.length_le⟩

/-- The item is written to the cell behind the last one, which is free. -/
theorem Sound.itemWrite (h : q.Sound n) {x : α} (hroom : q.present n < n - 1) :
    let q' := { q with items := Function.update q.items q.tail x, producer := .nextTail x }
    q'.Sound n ∧ q'.fifo n = q.fifo n := by
  intro q'
  have hfifo : q'.fifo n = q.fifo n := by
    ext1
    · exact ringCells_update_tail h.head_lt h.tail_lt x
    · rfl
    · rfl
  refine ⟨⟨h.head_lt, h.tail_lt, ⟨hroom, Function.update_self ..⟩, ?_, hfifo ▸ h.ordered,
    h.failed_push, h.failed_pop, h.length_le⟩, hfifo⟩
  refine h.consumer.of_le rfl rfl le_rfl fun hpos => ?_
  exact Function.update_of_ne (h.head_ne_tail hpos) _ _

/-- With the write of `tail` the item is in the queue. -/
theorem Sound.tailWrite (h : q.Sound n) {x : α} (hroom : q.present n < n - 1)
    (hx : q.items q.tail = x) :
    let q' := { q with tail := (q.tail + 1) % n, producer := .idle, pushed := q.pushed ++ [x] }
    q'.Sound n ∧ (q.fifo n).Step (n - 1) (q'.fifo n) := by
  intro q'
  have hpos : 0 < n := h.head_lt.pos
  have hstep : (q.fifo n).Step (n - 1) (q'.fifo n) := by
    have hcells : q'.fifo n = ⟨(q.fifo n).queue ++ [x], (q.fifo n).pushed ++ [x], q.popped⟩ := by
      ext1
      · exact (ringCells_tail_succ h.head_lt h.tail_lt hroom).trans (by rw [hx]; rfl)
      · rfl
      · rfl
    rw [hcells]
    exact .push x (length_ringCells.trans_lt hroom)
  have hpresent : q'.present n = q.present n + 1 := ringSpan_tail_succ h.head_lt h.tail_lt hroom
  refine ⟨⟨h.head_lt, Nat.mod_lt _ hpos, trivial, ?_, hstep.ordered h.ordered, h.failed_push,
    h.failed_pop, h.length_le⟩, hstep⟩
  exact h.consumer.of_le rfl rfl (by omega) fun _ => rfl

/-- With the write of `head` the first item is out of the queue. -/
theorem Sound.headWrite (h : q.Sound n) {x : α} (hpos : 0 < q.present n)
    (hx : q.items q.head = x) :
    let q' := { q with head := (q.head + 1) % n, consumer := .idle, popped := q.popped ++ [x] }
    q'.Sound n ∧ (q.fifo n).Step (n - 1) (q'.fifo n) := by
  intro q'
  have hn : 0 < n := h.head_lt.pos
  have hcells : (q.fifo n).queue = x :: (q'.fifo n).queue := by
    rw [← hx]
    exact ringCells_head_succ h.head_lt h.tail_lt hpos
  have hstep : (q.fifo n).Step (n - 1) (q'.fifo n) := .pop x _ hcells
  have hpresent : q'.present n + 1 = q.present n := ringSpan_head_succ h.head_lt h.tail_lt hpos
  refine ⟨⟨Nat.mod_lt _ hn, h.tail_lt, ?_, trivial, hstep.ordered h.ordered, h.failed_push,
    h.failed_pop, h.length_le⟩, hstep⟩
  exact h.producer.of_le rfl rfl (by omega) rfl

/-- A step of the thread that pushes. -/
theorem Sound.producerStep (h : q.Sound n) (hstep : q.producerStep n = some q') :
    q'.Sound n ∧ (q.fifo n).Step (n - 1) (q'.fifo n) := by
  have hok := h.producer
  rw [ProducerOk] at hok
  rw [NxQueue.producerStep] at hstep
  cases hpc : q.producer with
  | idle => simp [hpc] at hstep
  | fullHead x =>
    simp only [hpc, Option.some.injEq] at hstep
    subst hstep
    refine ⟨h.producerAt ⟨fun hfull => ?_, fun hnot => ?_⟩, .skip⟩
    · exact (ringSpan_eq_iff h.head_lt h.tail_lt).mpr hfull
    · exact lt_of_le_of_ne h.present_le fun heq =>
        hnot ((ringSpan_eq_iff h.head_lt h.tail_lt).mp heq)
  | fullTail x head present =>
    simp only [hpc] at hstep hok
    split_ifs at hstep with hfull
    · obtain rfl := Option.some.inj hstep
      refine ⟨⟨h.head_lt, h.tail_lt, trivial, h.consumer, h.ordered, fun m hm => ?_, h.failed_pop,
        h.length_le⟩, .skip⟩
      rcases List.mem_append.mp hm with hm | hm
      · exact h.failed_push m hm
      · rw [List.mem_singleton.mp hm]
        exact hok.1 hfull
    · obtain rfl := Option.some.inj hstep
      exact ⟨h.producerAt (hok.2 hfull), .skip⟩
  | itemTail x =>
    simp only [hpc, Option.some.injEq] at hstep hok
    subst hstep
    exact ⟨h.producerAt ⟨rfl, hok⟩, .skip⟩
  | itemWrite x i =>
    simp only [hpc, Option.some.injEq] at hstep hok
    subst hstep
    obtain ⟨rfl, hroom⟩ := hok
    obtain ⟨hsound, hfifo⟩ := h.itemWrite (x := x) hroom
    refine ⟨hsound, ?_⟩
    rw [hfifo]
    exact .skip
  | nextTail x =>
    simp only [hpc, Option.some.injEq] at hstep hok
    subst hstep
    exact ⟨h.producerAt ⟨rfl, hok⟩, .skip⟩
  | tailWrite x tail =>
    simp only [hpc, Option.some.injEq] at hstep hok
    subst hstep
    obtain ⟨rfl, hroom, hx⟩ := hok
    exact h.tailWrite hroom hx

/-- The length that is computed from the indices is the number of items between them. -/
theorem nxQueueLength_eq {head tail : ℕ} (hh : head < n) :
    nxQueueLength n head tail = ringSpan n head tail := by
  rw [nxQueueLength, ringSpan]
  split_ifs <;> omega

/-- A step of the thread that pops. -/
theorem Sound.consumerStep (h : q.Sound n) (hstep : q.consumerStep n = some q') :
    q'.Sound n ∧ (q.fifo n).Step (n - 1) (q'.fifo n) := by
  have hok := h.consumer
  rw [ConsumerOk] at hok
  rw [NxQueue.consumerStep] at hstep
  cases hpc : q.consumer with
  | idle => simp [hpc] at hstep
  | emptyHead =>
    simp only [hpc, Option.some.injEq] at hstep
    subst hstep
    exact ⟨h.consumerAt rfl, .skip⟩
  | emptyTail head =>
    simp only [hpc] at hstep hok
    subst hok
    split_ifs at hstep with hempty
    · obtain rfl := Option.some.inj hstep
      refine ⟨⟨h.head_lt, h.tail_lt, h.producer, trivial, h.ordered, h.failed_push, fun m hm => ?_,
        h.length_le⟩, .skip⟩
      rcases List.mem_append.mp hm with hm | hm
      · exact h.failed_pop m hm
      · rw [List.mem_singleton.mp hm]
        exact (ringSpan_eq_zero_iff h.head_lt).mpr hempty
    · obtain rfl := Option.some.inj hstep
      refine ⟨h.consumerAt (Nat.pos_of_ne_zero fun hzero => ?_), .skip⟩
      exact hempty ((ringSpan_eq_zero_iff h.head_lt).mp hzero)
  | itemHead =>
    simp only [hpc, Option.some.injEq] at hstep hok
    subst hstep
    exact ⟨h.consumerAt ⟨rfl, hok⟩, .skip⟩
  | itemRead i =>
    simp only [hpc, Option.some.injEq] at hstep hok
    subst hstep
    obtain ⟨rfl, hpos⟩ := hok
    exact ⟨h.consumerAt ⟨hpos, rfl⟩, .skip⟩
  | nextHead x =>
    simp only [hpc, Option.some.injEq] at hstep hok
    subst hstep
    exact ⟨h.consumerAt ⟨rfl, hok⟩, .skip⟩
  | headWrite x head =>
    simp only [hpc, Option.some.injEq] at hstep hok
    subst hstep
    obtain ⟨rfl, hpos, hx⟩ := hok
    exact h.headWrite hpos hx
  | lengthTail =>
    simp only [hpc, Option.some.injEq] at hstep
    subst hstep
    exact ⟨h.consumerAt (nxQueueLength_eq h.head_lt).le, .skip⟩
  | lengthHead tail =>
    simp only [hpc, Option.some.injEq] at hstep hok
    subst hstep
    refine ⟨⟨h.head_lt, h.tail_lt, h.producer, trivial, h.ordered, h.failed_push, h.failed_pop,
      fun r hr => ?_⟩, .skip⟩
    rcases List.mem_append.mp hr with hr | hr
    · exact h.length_le r hr
    · rw [List.mem_singleton.mp hr]
      exact hok

/-- Every event is a step of the bounded queue, or changes nothing there. -/
theorem Sound.step {e : NxQueueEvent α} (h : q.Sound n) (hstep : q.step n e = some q') :
    q'.Sound n ∧ (q.fifo n).Step (n - 1) (q'.fifo n) := by
  cases e with
  | producer => exact h.producerStep hstep
  | consumer => exact h.consumerStep hstep
  | push x =>
    cases hpc : q.producer <;> simp [NxQueue.step, hpc] at hstep
    subst hstep
    exact ⟨h.producerAt trivial, .skip⟩
  | pop =>
    cases hpc : q.consumer <;> simp [NxQueue.step, hpc] at hstep
    subst hstep
    exact ⟨h.consumerAt trivial, .skip⟩
  | length =>
    cases hpc : q.consumer <;> simp [NxQueue.step, hpc] at hstep
    subst hstep
    exact ⟨h.consumerAt trivial, .skip⟩

/-- A sound queue gives right answers. -/
theorem Sound.correct (h : q.Sound n) : q.Correct n := by
  have hread : ∀ i, q.consumer = .itemRead i → i = q.head ∧ 0 < q.present n := by
    intro i hpc
    have hok := h.consumer
    simpa only [ConsumerOk, hpc] using hok
  refine ⟨h.ordered.order, h.failed_push, h.failed_pop, h.length_le, fun x i hpc => ?_,
    fun i hpc => ?_⟩
  · have hok := h.producer
    simp only [ProducerOk, hpc] at hok
    obtain ⟨rfl, hroom⟩ := hok
    refine ⟨h.tail_lt, fun k hk => add_mod_ne_tail h.head_lt h.tail_lt hk, fun hconsumer => ?_⟩
    obtain ⟨heq, hpos⟩ := hread _ hconsumer
    exact h.head_ne_tail hpos heq.symm
  · obtain ⟨rfl, hpos⟩ := hread i hpc
    exact ⟨h.head_lt, rfl, hpos⟩

/-- The queue is empty at first, whatever its memory holds. -/
theorem sound_init (hn : 0 < n) (items : ℕ → α) : (init items).Sound n where
  head_lt := hn
  tail_lt := hn
  producer := trivial
  consumer := trivial
  ordered := by
    have hempty : (init items).fifo n = ⟨[], [], []⟩ := rfl
    rw [hempty]
    exact ⟨rfl, Nat.zero_le _⟩
  failed_push := by simp [init]
  failed_pop := by simp [init]
  length_le := by simp [init]

/-- In every run, whatever the memory held at first, each step is a step of a queue that has room
for one item less than it has cells, or changes nothing there, and the answers of both threads are
right in the state that it leads to. -/
theorem nxQueue_refines (hn : 0 < n) (items : ℕ → α) (es : List (NxQueueEvent α)) :
    Along (step n) (fun q _ q' => (q.fifo n).Step (n - 1) (q'.fifo n) ∧ q'.Correct n)
      (init items) es := by
  refine along_of_step (fun q e q' h hq' => ?_) es (sound_init hn items)
  obtain ⟨hsound, hfifo⟩ := h.step hq'
  exact ⟨⟨hfifo, hsound.correct⟩, hsound⟩

/-- In three cells, the third push comes between the check and the read of a pop, and fails. -/
def crossingCalls : List (NxQueueEvent ℕ) :=
  List.flatten [[.push 7], List.replicate 6 .producer, [.push 8], List.replicate 6 .producer,
    [.pop, .consumer, .consumer, .push 9, .producer, .producer], List.replicate 4 .consumer,
    [.length, .consumer, .consumer]]

/-- Two items are pushed, the first one is popped, and one item is left. -/
theorem nxQueue_refines_crossing :
    (run (step 3) (init fun _ => 0) crossingCalls).map
        (fun q => (q.pushed, q.popped, q.failedPushes, q.lengths)) =
      some ([7, 8], [7], [2], [(1, 1)]) ∧
    Along (step 3) (fun q _ q' => (q.fifo 3).Step 2 (q'.fifo 3) ∧ q'.Correct 3)
      (init fun _ => 0) crossingCalls :=
  ⟨by decide, nxQueue_refines (by decide) _ _⟩

end NxQueue

/-! ### The queue of idle workers -/

namespace WorkerQueue

variable {W : Type*}

/-- The length of the queue of idle workers. -/
theorem length_eq (q : WorkerQueue W) (hh : q.head < maxWorkersInQueue) :
    (q.length : ℤ) = nxQueueLength maxWorkersInQueue q.head q.tail := by
  rw [WorkerQueue.length, nxQueueLength]
  split_ifs <;> omega

/-- The test for a full queue of idle workers. -/
theorem isFull_eq (q : WorkerQueue W) (hh : q.head < maxWorkersInQueue)
    (ht : q.tail < maxWorkersInQueue) :
    q.isFull = true ↔ ringSpan maxWorkersInQueue q.head q.tail = maxWorkersInQueue - 1 := by
  rw [isFull, beq_iff_eq, ringSpan_eq_iff hh ht]

end WorkerQueue

end Nxweb
