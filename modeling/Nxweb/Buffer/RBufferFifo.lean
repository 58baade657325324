import Nxweb.Buffer.RBuffer
import Nxweb.Lib.Machine

/-!
# The ring buffer is a bounded queue of bytes

What a ring buffer is for: a queue of at most `cap` bytes, filled at one end and emptied at the
other, whose source may end (`ByteFifo`). The ring buffer refines it (`RBufferUse.refines_run`):
every sequence of partial writes and reads does to the queue what it does to the ring, the spans
that are offered are empty only if the queue is full or empty, the end of the stream is told
exactly with the last bytes, and the two stream ends are ready exactly when there is room or
something to send.

## Main definitions

* `ByteFifo`, `ByteFifo.step`: the queue;
* `RBufferUse`, `RBufferUse.step`: a ring buffer in use;
* `RBufferUse.Refines`: how the two are related.
-/

namespace Nxweb

open Lib

/-! ### The queue -/

/-- A use of the buffer: some bytes arrive, perhaps with the end of the stream, or some of the
bytes that are offered are taken. -/
inductive FifoEvent where
  | write (data : List UInt8) (eof : Bool)
  | read (n : ℕ)
  deriving DecidableEq, Repr

/-- A queue of bytes, and the bytes that have been taken from it. -/
structure ByteFifo where
  queue : List UInt8 := []
  ended : Bool := false
  out : List UInt8 := []
  deriving DecidableEq, Repr

/-- One use of a queue of at most `cap` bytes. -/
def ByteFifo.step (cap : ℕ) (f : ByteFifo) : FifoEvent → Option ByteFifo
  | .write data eof =>
    if f.queue.length + data.length ≤ cap then
      some { f with queue := f.queue ++ data, ended := f.ended || eof }
    else none
  | .read n =>
    if n ≤ f.queue.length then
      some { f with queue := f.queue.drop n, out := f.out ++ f.queue.take n }
    else none

/-- The bytes that arrive in an event. -/
def FifoEvent.written : FifoEvent → List UInt8
  | .write data _ => data
  | .read _ => []

/-- The bytes that arrive in a run. -/
def writtenBytes (es : List FifoEvent) : List UInt8 := es.flatMap FifoEvent.written

theorem ByteFifo.step_order {cap : ℕ} {f f' : ByteFifo} {e : FifoEvent}
    (h : f.step cap e = some f') :
    f'.out ++ f'.queue = f.out ++ f.queue ++ e.written ∧ (f.queue.length ≤ cap →
      f'.queue.length ≤ cap) := by
  cases e with
  | write data eof =>
    simp only [ByteFifo.step] at h
    split_ifs at h with hfit
    obtain rfl := Option.some.inj h
    exact ⟨by simp [FifoEvent.written], fun _ => by simpa using hfit⟩
  | read n =>
    simp only [ByteFifo.step] at h
    split_ifs at h with hn
    obtain rfl := Option.some.inj h
    refine ⟨?_, fun hle => ?_⟩
    · simp [FifoEvent.written, List.append_assoc]
    · rw [List.length_drop]
      omega

/-- The bytes taken and those still in the queue are the bytes that have arrived, in order. -/
theorem ByteFifo.run_order {cap : ℕ} {f f' : ByteFifo} {es : List FifoEvent}
    (h : run (ByteFifo.step cap) f es = some f') (hcap : f.queue.length ≤ cap) :
    f'.out ++ f'.queue = f.out ++ f.queue ++ writtenBytes es ∧ f'.queue.length ≤ cap := by
  induction es generalizing f with
  | nil =>
    obtain rfl := Option.some.inj h
    exact ⟨by simp [writtenBytes], hcap⟩
  | cons e es ih =>
    obtain ⟨f₁, hf₁, hrest⟩ := Option.bind_eq_some_iff.mp h
    obtain ⟨horder, hle⟩ := ByteFifo.step_order hf₁
    obtain ⟨horder', hle'⟩ := ih hrest (hle hcap)
    refine ⟨?_, hle'⟩
    rw [horder', horder, writtenBytes, writtenBytes, List.flatMap_cons, List.append_assoc _ e.written]

/-! ### The ring buffer in use -/

/-- A ring buffer with its memory, and the bytes that have been taken from it. -/
structure RBufferUse where
  rb : RBuffer
  mem : List UInt8
  out : List UInt8 := []
  deriving DecidableEq, Repr

/-- The event stays within the span that `nxd_rbuffer_get_write_ptr` or
`nxd_rbuffer_get_read_ptr` offers. -/
def RBufferUse.Offered (s : RBufferUse) : FifoEvent → Prop
  | .write data _ => data.length ≤ s.rb.getWritePtr
  | .read n => n ≤ s.rb.getReadPtr.1

instance (s : RBufferUse) (e : FifoEvent) : Decidable (s.Offered e) :=
  match e with
  | .write data _ => inferInstanceAs (Decidable (data.length ≤ s.rb.getWritePtr))
  | .read n => inferInstanceAs (Decidable (n ≤ s.rb.getReadPtr.1))

/-- One use of the buffer, within the span that is offered; `none` is also a failed assertion. -/
def RBufferUse.step (s : RBufferUse) (e : FifoEvent) : Option RBufferUse :=
  if s.Offered e then
    match e with
    | .write data eof =>
      (s.rb.receive s.mem data eof).map fun (rb, mem) => { s with rb, mem }
    | .read n =>
      (s.rb.read n).map fun rb => { s with rb, out := s.out ++ (s.rb.offered s.mem).take n }
  else none

/-- The buffer behaves like the queue. -/
structure RBufferUse.Refines (size : ℕ) (f : ByteFifo) (s : RBufferUse) : Prop where
  out_eq : s.out = f.out
  /-- What is offered for reading is the front of the queue. -/
  offered : s.rb.offered s.mem = f.queue.take s.rb.getReadPtr.1
  /-- What is offered for writing fits. -/
  room : f.queue.length + s.rb.getWritePtr ≤ size
  full : s.rb.getWritePtr = 0 ↔ f.queue.length = size
  empty : s.rb.getReadPtr.1 = 0 ↔ f.queue = []
  eof : s.rb.getReadPtr.2 = true ↔ f.ended = true ∧ s.rb.offered s.mem = f.queue
  dataIn : f.ended = false → (s.rb.dataInReady = true ↔ f.queue.length ≠ size)
  dataOut : s.rb.dataOutReady = true ↔ f.queue ≠ [] ∨ f.ended = true
  /-- No assertion fails. -/
  accepts : ∀ e, s.Offered e → (s.step e).isSome

/-- The invariant behind the refinement. -/
structure RBufferUse.Inv (size : ℕ) (f : ByteFifo) (s : RBufferUse) : Prop where
  holds : s.rb.Holds s.mem f.queue
  size_eq : s.rb.size = size
  out_eq : s.out = f.out
  ended_eq : s.rb.eof = f.ended
  dataIn : f.ended = false → (s.rb.dataInReady = true ↔ s.rb.isFull = false)
  dataOut : s.rb.dataOutReady = true ↔ s.rb.isEmpty = false ∨ f.ended = true

section Rules

variable {rb rb' : RBuffer} {mem mem' q : List UInt8}

theorem RBuffer.Holds.isFull_iff (h : rb.Holds mem q) :
    rb.isFull = true ↔ q.length = rb.size := by
  rw [h.size_eq, ← h.ring.full_iff, RBuffer.isFull, decide_eq_true_eq]

theorem RBuffer.Holds.isEmpty_iff (h : rb.Holds mem q) : rb.isEmpty = true ↔ q = [] := by
  rw [← h.ring.empty_iff, RBuffer.isEmpty, decide_eq_true_eq]

theorem RBuffer.Holds.getWritePtr_eq_zero_iff (h : rb.Holds mem q) :
    rb.getWritePtr = 0 ↔ q.length = rb.size := by
  rw [RBuffer.getWritePtr_eq, h.size_eq, h.ring.writeSpan_eq_zero_iff]

theorem RBuffer.Holds.length_add_getWritePtr_le (h : rb.Holds mem q) :
    q.length + rb.getWritePtr ≤ rb.size := by
  rw [RBuffer.getWritePtr_eq, h.size_eq]
  exact h.ring.length_add_writeSpan_le

theorem RBuffer.Holds.getReadPtr_eq_zero_iff (h : rb.Holds mem q) :
    rb.getReadPtr.1 = 0 ↔ q = [] := by
  rw [RBuffer.getReadPtr_eq, h.size_eq, h.ring.readSpan_eq_zero_iff]

/-- The end of the stream is told exactly with the last bytes. -/
theorem RBuffer.Holds.eof_iff (h : rb.Holds mem q) :
    rb.getReadPtr.2 = true ↔ rb.eof = true ∧ rb.offered mem = q := by
  refine ⟨h.offered_of_eof, fun ⟨heof, hall⟩ => ?_⟩
  have hspan : readSpan mem.length rb.readPtr rb.writePtr rb.lastWrite = q.length := by
    rw [← h.size_eq, ← RBuffer.getReadPtr_eq]
    rw [h.offered_eq] at hall
    have hlen := congrArg List.length hall
    rw [List.length_take] at hlen
    have hle := h.getReadPtr_le
    omega
  have hcond := h.ring.readSpan_eq_iff.mp hspan
  rw [← h.size_eq, ← RBuffer.getReadPtr_eq] at hcond
  simp only [RBuffer.getReadPtr, decide_eq_true_eq]
  exact ⟨heof, hcond⟩

/-- What a write does to the readiness of the two ends. -/
theorem RBuffer.receive_ready {data : List UInt8} {eof : Bool}
    (h : rb.receive mem data eof = some (rb', mem')) :
    (rb'.dataOutReady = true ↔ rb.dataOutReady = true ∨ data ≠ [] ∨ eof = true) ∧
      (rb'.dataInReady = true ↔ rb.dataInReady = true ∧ (data ≠ [] → rb'.isFull = false)) ∧
      rb'.size = rb.size ∧ (data = [] → rb'.isFull = rb.isFull) := by
  unfold RBuffer.receive RBuffer.write at h
  rcases eq_or_ne data [] with rfl | hne
  · rw [List.length_nil, if_pos rfl] at h
    obtain ⟨rfl, -⟩ := Prod.mk.inj (Option.some.inj h)
    cases eof <;> simp [RBuffer.isFull]
  · have hpos := List.length_pos_iff.mpr hne
    rw [if_neg (by omega)] at h
    by_cases hassert : rb.size < rb.writePtr + data.length
    · rw [if_pos hassert] at h
      cases h
    · rw [if_neg hassert] at h
      obtain ⟨rfl, -⟩ := Prod.mk.inj (Option.some.inj h)
      cases eof <;> simp [RBuffer.isFull, hne]

/-- What a read does to the readiness of the two ends. -/
theorem RBuffer.read_ready {n : ℕ} (h : rb.read n = some rb') :
    rb'.size = rb.size ∧ (n = 0 → rb' = rb) ∧ (0 < n →
      (rb'.dataInReady = true ↔ rb.dataInReady = true ∨ rb.eof = false) ∧
      (rb'.dataOutReady = true ↔
        rb.dataOutReady = true ∧ (rb'.isEmpty = false ∨ rb.eof = true))) := by
  unfold RBuffer.read at h
  rcases Nat.eq_zero_or_pos n with rfl | hpos
  · obtain rfl := Option.some.inj h
    simp
  · rw [if_neg (by omega)] at h
    by_cases hassert : rb.size < rb.readPtr + n
    · rw [if_pos hassert] at h
      cases h
    · rw [if_neg hassert] at h
      obtain rfl := Option.some.inj h
      refine ⟨rfl, by omega, fun _ => ?_⟩
      cases rb.eof <;> simp [RBuffer.isEmpty]

end Rules

namespace RBufferUse

variable {size : ℕ} {f : ByteFifo} {s s' : RBufferUse}

/-- A use of the ring buffer within the spans it offers is a use of the queue. -/
theorem Inv.step {e : FifoEvent} (h : s.Inv size f) (hoff : s.Offered e) :
    ∃ s' f', s.step e = some s' ∧ f.step size e = some f' ∧ s'.Inv size f' := by
  unfold RBufferUse.step
  rw [if_pos hoff]
  cases e with
  | write data eof =>
    have hoff' : data.length ≤ s.rb.getWritePtr := hoff
    obtain ⟨rb', mem', hrec, hholds, -, heof⟩ := h.holds.receive eof hoff
    obtain ⟨hout, hin, hsize, hsame⟩ := RBuffer.receive_ready hrec
    have hroom := h.holds.length_add_getWritePtr_le
    have hfit : f.queue.length + data.length ≤ size := by
      rw [← h.size_eq]
      exact (Nat.add_le_add_left hoff' _).trans hroom
    refine ⟨{ s with rb := rb', mem := mem' },
      { f with queue := f.queue ++ data, ended := f.ended || eof },
      by simp only [hrec, Option.map_some], by rw [ByteFifo.step, if_pos hfit],
      hholds, hsize.trans h.size_eq, h.out_eq, ?_, fun hended => ?_, ?_⟩
    · rw [heof, h.ended_eq]
    · -- the end has not come, so an end that was ready had room
      simp only [Bool.or_eq_false_iff] at hended
      rw [hin, h.dataIn hended.1]
      by_cases hnil : data = []
      · simp [hnil, hsame hnil]
      · have hprev : s.rb.isFull = false := by
          by_contra hfull
          have hzero : s.rb.getWritePtr = 0 := by simp [RBuffer.getWritePtr, hfull]
          exact hnil (List.eq_nil_of_length_eq_zero (Nat.le_zero.mp (hzero ▸ hoff')))
        simp [hnil, hprev]
    · have hempty : rb'.isEmpty = false ↔ s.rb.isEmpty = false ∨ data ≠ [] := by
        rw [← Bool.not_eq_true, ← Bool.not_eq_true, hholds.isEmpty_iff, h.holds.isEmpty_iff,
          List.append_eq_nil_iff, not_and_or]
      rw [hout, h.dataOut, hempty, Bool.or_eq_true]
      exact or_or_or_comm
  | read n =>
    obtain ⟨rb', hread, hholds, heof⟩ := h.holds.read hoff
    obtain ⟨hsize, hzero, hpos⟩ := RBuffer.read_ready hread
    have hn : n ≤ f.queue.length := le_trans hoff h.holds.getReadPtr_le
    have htaken : (s.rb.offered s.mem).take n = f.queue.take n := by
      rw [h.holds.offered_eq, List.take_take, min_eq_left hoff]
    refine ⟨{ s with rb := rb', out := s.out ++ (s.rb.offered s.mem).take n },
      { f with queue := f.queue.drop n, out := f.out ++ f.queue.take n },
      by simp only [hread, Option.map_some], by rw [ByteFifo.step, if_pos hn], hholds, hsize.trans h.size_eq, ?_, heof.trans h.ended_eq, fun hended => ?_, ?_⟩
    · simp only [h.out_eq, htaken]
    · rcases Nat.eq_zero_or_pos n with hn0 | hn0
      · rw [hzero hn0]
        exact h.dataIn hended
      · have hroom : rb'.isFull = false := by
          rw [← Bool.not_eq_true, hholds.isFull_iff, List.length_drop, hsize]
          have hle := h.holds.length_add_getWritePtr_le
          omega
        have hopen : s.rb.eof = false := h.ended_eq.trans hended
        simp [(hpos hn0).1, hroom, hopen]
    · rcases Nat.eq_zero_or_pos n with hn0 | hn0
      · rw [hzero hn0]
        exact h.dataOut
      · have hprev : s.rb.dataOutReady = true := by
          rw [h.dataOut, ← Bool.not_eq_true, h.holds.isEmpty_iff]
          exact .inl (List.ne_nil_of_length_pos (by omega))
        rw [(hpos hn0).2, h.ended_eq]
        simp [hprev]

/-- The invariant gives the refinement. -/
theorem Inv.refines (h : s.Inv size f) : s.Refines size f where
  out_eq := h.out_eq
  offered := h.holds.offered_eq
  room := h.size_eq ▸ h.holds.length_add_getWritePtr_le
  full := h.size_eq ▸ h.holds.getWritePtr_eq_zero_iff
  empty := h.holds.getReadPtr_eq_zero_iff
  eof := h.ended_eq ▸ h.holds.eof_iff
  dataIn hended := by
    rw [h.dataIn hended, ← Bool.not_eq_true, h.holds.isFull_iff, h.size_eq]
  dataOut := by
    rw [h.dataOut, ← Bool.not_eq_true, h.holds.isEmpty_iff]
  accepts e hoff := by
    obtain ⟨s', -, hs', -⟩ := h.step hoff
    rw [hs']
    rfl

/-- A buffer after `nxd_rbuffer_init`. -/
def init (mem : List UInt8) : RBufferUse where
  rb := .init mem.length
  mem := mem

theorem inv_init {mem : List UInt8} (hpos : 0 < mem.length) : (init mem).Inv mem.length {} where
  holds := .init rfl hpos
  size_eq := rfl
  out_eq := rfl
  ended_eq := rfl
  dataIn _ := by simp [init, RBuffer.init, RBuffer.isFull]
  dataOut := by simp [init, RBuffer.init, RBuffer.isEmpty]

/-- A run of the ring buffer is a run of the queue. -/
theorem Inv.run {es : List FifoEvent} (h : s.Inv size f)
    (hrun : Lib.run RBufferUse.step s es = some s') :
    ∃ f', Lib.run (ByteFifo.step size) f es = some f' ∧ s'.Inv size f' := by
  induction es generalizing s f with
  | nil =>
    obtain rfl := Option.some.inj hrun
    exact ⟨f, rfl, h⟩
  | cons e es ih =>
    obtain ⟨s₁, hs₁, hrest⟩ := Option.bind_eq_some_iff.mp hrun
    have hoff : s.Offered e := by
      by_contra hnot
      unfold RBufferUse.step at hs₁
      rw [if_neg hnot] at hs₁
      cases hs₁
    obtain ⟨s₂, f₁, hs₂, hf₁, hinv⟩ := h.step hoff
    obtain rfl := Option.some.inj (hs₁.symm.trans hs₂)
    obtain ⟨f', hf', hinv'⟩ := ih hinv hrest
    exact ⟨f', Option.bind_eq_some_iff.mpr ⟨f₁, hf₁, hf'⟩, hinv'⟩

/-- Every sequence of partial writes and reads does to the ring buffer what it does to a queue of
at most as many bytes as the buffer has. -/
theorem refines_run {mem : List UInt8} (hpos : 0 < mem.length) {es : List FifoEvent}
    (hrun : Lib.run RBufferUse.step (init mem) es = some s) :
    ∃ f, Lib.run (ByteFifo.step mem.length) {} es = some f ∧
      s.out ++ f.queue = writtenBytes es ∧ f.queue.length ≤ mem.length ∧
      s.Refines mem.length f := by
  obtain ⟨f, hf, hinv⟩ := (inv_init hpos).run hrun
  obtain ⟨horder, hle⟩ := ByteFifo.run_order hf (Nat.zero_le _)
  exact ⟨f, hf, by rw [hinv.out_eq, horder]; rfl, hle, hinv.refines⟩

/-- A buffer of three bytes that is filled, read in part, filled again behind its end, and read
until the stream ends. -/
theorem refines_run_wrapped :
    ∃ s f, Lib.run RBufferUse.step (init [0, 0, 0])
        [.write (bytes "ab") false, .write (bytes "c") false, .read 2, .write (bytes "d") true,
          .read 1] = some s ∧
      s.out ++ f.queue = bytes "abcd" ∧ s.Refines 3 f := by
  have hrun : Lib.run RBufferUse.step (init [0, 0, 0])
      [.write (bytes "ab") false, .write (bytes "c") false, .read 2, .write (bytes "d") true,
        .read 1] = some
      ⟨⟨3, 0, 1, false, true, true, true⟩, bytes "dbc", bytes "abc"⟩ := by decide
  obtain ⟨f, -, horder, -, href⟩ := refines_run (by decide) hrun
  exact ⟨_, f, hrun, horder, href⟩

end RBufferUse

end Nxweb
