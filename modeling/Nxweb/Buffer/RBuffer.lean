import Nxweb.Bytes
import Nxweb.Lib.Ring

/-!
# The ring buffer

Model of `nxd_rbuffer` (`nxd.h`, `nxd_buffer.c`), through which the proxy passes request and
response bodies. The record has pointers into an area of memory that belongs to its owner; here
they are offsets, and the memory is an argument of the operations.

`RBuffer.Holds` relates the buffer and its memory to the bytes that are in it. What is received is
added to their end and what is offered comes from their front, and the end of the stream is told
with the last bytes only.

## Main definitions

* `RBuffer`, `RBuffer.init`: the record;
* `RBuffer.getWritePtr`, `RBuffer.getReadPtr`, `RBuffer.write`, `RBuffer.read`: its operations;
* `RBuffer.receive`: `rbuffer_data_in_do_read` after the read;
* `RBuffer.offered`, `RBuffer.read`: the two sides of `rbuffer_data_out_do_write`.
-/

namespace Nxweb

open Lib

/-- `nxd_rbuffer`. The pointers are offsets from `start_ptr`, and `size` is that of `end_ptr`. -/
structure RBuffer where
  size : ℕ
  readPtr : ℕ := 0
  writePtr : ℕ := 0
  lastWrite : Bool := false
  eof : Bool := false
  dataInReady : Bool := true
  dataOutReady : Bool := false
  deriving DecidableEq, Repr

/-- `nxd_rbuffer_init`. -/
def RBuffer.init (size : ℕ) : RBuffer := { size }

/-- `nxd_rbuffer_is_empty`. -/
def RBuffer.isEmpty (rb : RBuffer) : Bool := rb.readPtr = rb.writePtr ∧ rb.lastWrite = false

/-- `nxd_rbuffer_is_full`. -/
def RBuffer.isFull (rb : RBuffer) : Bool := rb.readPtr = rb.writePtr ∧ rb.lastWrite = true

/-- The size that `nxd_rbuffer_get_write_ptr` gives. -/
def RBuffer.getWritePtr (rb : RBuffer) : ℕ :=
  if rb.isFull then 0
  else if rb.writePtr < rb.readPtr then rb.readPtr - rb.writePtr else rb.size - rb.writePtr

/-- The size that `nxd_rbuffer_get_read_ptr` gives, and whether it sets `NXEF_EOF`. -/
def RBuffer.getReadPtr (rb : RBuffer) : ℕ × Bool :=
  let size :=
    if rb.isEmpty then 0
    else if rb.readPtr < rb.writePtr then rb.writePtr - rb.readPtr else rb.size - rb.readPtr
  (size, rb.eof ∧ (size = 0 ∨ rb.readPtr < rb.writePtr ∨ rb.writePtr = 0))

/-- `nxd_rbuffer_read`; `none` is a failed assertion. -/
def RBuffer.read (rb : RBuffer) (n : ℕ) : Option RBuffer :=
  if n = 0 then some rb
  else if rb.size < rb.readPtr + n then none
  else
    let readPtr := if rb.size ≤ rb.readPtr + n then 0 else rb.readPtr + n
    some { rb with
      readPtr
      lastWrite := false
      dataInReady := rb.dataInReady || !rb.eof
      dataOutReady := rb.dataOutReady && !(decide (readPtr = rb.writePtr) && !rb.eof) }

/-- `nxd_rbuffer_write`; `none` is a failed assertion. -/
def RBuffer.write (rb : RBuffer) (n : ℕ) : Option RBuffer :=
  if n = 0 then some rb
  else if rb.size < rb.writePtr + n then none
  else
    let writePtr := if rb.size ≤ rb.writePtr + n then 0 else rb.writePtr + n
    some { rb with
      writePtr
      lastWrite := true
      dataOutReady := true
      dataInReady := rb.dataInReady && decide (rb.readPtr ≠ writePtr) }

/-- What `rbuffer_data_in_do_read` does with the bytes of a read, and with its `NXEF_EOF`. -/
def RBuffer.receive (rb : RBuffer) (mem data : List UInt8) (eof : Bool) :
    Option (RBuffer × List UInt8) :=
  (rb.write data.length).map fun rb' =>
    (if eof then { rb' with eof := true, dataOutReady := true } else rb',
      store mem rb.writePtr data)

/-- The bytes that `rbuffer_data_out_do_write` offers. -/
def RBuffer.offered (rb : RBuffer) (mem : List UInt8) : List UInt8 :=
  (mem.drop rb.readPtr).take rb.getReadPtr.1

/-! ### The bytes in the buffer -/

/-- The buffer holds the bytes `q`. -/
structure RBuffer.Holds (rb : RBuffer) (mem q : List UInt8) : Prop where
  size_eq : rb.size = mem.length
  ring : Ring mem rb.readPtr rb.writePtr rb.lastWrite q

theorem RBuffer.getWritePtr_eq (rb : RBuffer) :
    rb.getWritePtr = writeSpan rb.size rb.readPtr rb.writePtr rb.lastWrite := by
  simp only [RBuffer.getWritePtr, RBuffer.isFull, writeSpan, decide_eq_true_eq]

theorem RBuffer.getReadPtr_eq (rb : RBuffer) :
    rb.getReadPtr.1 = readSpan rb.size rb.readPtr rb.writePtr rb.lastWrite := by
  simp only [RBuffer.getReadPtr, RBuffer.isEmpty, readSpan, decide_eq_true_eq]

namespace RBuffer.Holds

variable {rb rb' : RBuffer} {mem mem' q : List UInt8}

theorem init {size : ℕ} (hmem : mem.length = size) (hpos : 0 < size) :
    (RBuffer.init size).Holds mem [] where
  size_eq := hmem.symm
  ring := .nil (List.length_pos_iff.mp (hmem ▸ hpos))

/-- Only the pointers and the flag of the last operation matter. -/
theorem congr (h : rb.Holds mem q) (hsize : rb'.size = rb.size) (hread : rb'.readPtr = rb.readPtr)
    (hwrite : rb'.writePtr = rb.writePtr) (hlast : rb'.lastWrite = rb.lastWrite) :
    rb'.Holds mem q := by
  refine ⟨hsize.trans h.size_eq, ?_⟩
  rw [hread, hwrite, hlast]
  exact h.ring

/-- What is received is added at the end. -/
theorem receive (h : rb.Holds mem q) {data : List UInt8} (eof : Bool)
    (hdata : data.length ≤ rb.getWritePtr) :
    ∃ rb' mem', rb.receive mem data eof = some (rb', mem') ∧ rb'.Holds mem' (q ++ data) ∧
      mem'.length = mem.length ∧ rb'.eof = (rb.eof || eof) := by
  have hspan : data.length ≤ writeSpan mem.length rb.readPtr rb.writePtr rb.lastWrite := by
    rw [← h.size_eq, ← RBuffer.getWritePtr_eq]
    exact hdata
  have hlen := h.ring.length_store hspan
  unfold RBuffer.receive RBuffer.write
  rcases eq_or_ne data [] with rfl | hne
  · have hstore : store mem rb.writePtr [] = mem := by simp [store]
    refine ⟨_, _, by rw [List.length_nil, if_pos rfl]; rfl, ?_, hlen, ?_⟩
    · rw [hstore, List.append_nil]
      split_ifs
      · exact h.congr rfl rfl rfl rfl
      · exact h
    · cases eof <;> simp
  · have hpos := List.length_pos_iff.mpr hne
    have hfits : ¬ rb.size < rb.writePtr + data.length := by
      have hle : rb.writePtr + data.length ≤ (store mem rb.writePtr data).length := by
        have hwrite : rb.writePtr ≤ mem.length := by
          rcases h.ring with ⟨a, c, hmem, -, -, hw, -⟩ | ⟨q₁, q₂, f, hmem, -, -, hw, -, -⟩
          · rw [hw, hmem]
            simp
          · rw [hw, hmem]
            simp
        simp only [store, List.length_append, List.length_take, min_eq_left hwrite]
        omega
      rw [h.size_eq]
      omega
    rw [if_neg (by omega), if_neg hfits, Option.map_some]
    refine ⟨_, _, rfl, ⟨?_, ?_⟩, hlen, ?_⟩
    · rw [hlen]
      split_ifs <;> exact h.size_eq
    · have hring := h.ring.write hne hspan
      rw [← h.size_eq] at hring
      cases eof <;> exact hring
    · cases eof <;> simp

/-- What is offered comes from the front. -/
theorem offered_eq (h : rb.Holds mem q) : rb.offered mem = q.take rb.getReadPtr.1 := by
  refine h.ring.read_take ?_
  rw [← h.size_eq, RBuffer.getReadPtr_eq]

theorem getReadPtr_le (h : rb.Holds mem q) : rb.getReadPtr.1 ≤ q.length := by
  rw [RBuffer.getReadPtr_eq, h.size_eq]
  exact h.ring.readSpan_le

/-- The end of the stream is told with the last bytes. -/
theorem offered_of_eof (h : rb.Holds mem q) (heof : rb.getReadPtr.2 = true) :
    rb.eof = true ∧ rb.offered mem = q := by
  simp only [RBuffer.getReadPtr, decide_eq_true_eq] at heof
  obtain ⟨hend, hall⟩ := heof
  refine ⟨hend, ?_⟩
  have hspan : rb.getReadPtr.1 = q.length := by
    have hwhole := h.ring.readSpan_eq
    rw [← h.size_eq, ← RBuffer.getReadPtr_eq] at hwhole
    exact hwhole hall
  rw [h.offered_eq, hspan, List.take_length]

/-- What was sent is taken from the front. -/
theorem read (h : rb.Holds mem q) {n : ℕ} (hn : n ≤ rb.getReadPtr.1) :
    ∃ rb', rb.read n = some rb' ∧ rb'.Holds mem (q.drop n) ∧ rb'.eof = rb.eof := by
  unfold RBuffer.read
  rcases Nat.eq_zero_or_pos n with rfl | hpos
  · exact ⟨rb, if_pos rfl, by rwa [List.drop_zero], rfl⟩
  · have hspan : n ≤ readSpan mem.length rb.readPtr rb.writePtr rb.lastWrite := by
      rw [← h.size_eq, ← RBuffer.getReadPtr_eq]
      exact hn
    have hfits : ¬ rb.size < rb.readPtr + n := by
      rw [h.size_eq]
      rcases h.ring with ⟨a, c, hmem, -, hr, hw, -⟩ | ⟨q₁, q₂, f, hmem, -, hr, hw, -, -⟩
      · have hlen : mem.length = a.length + q.length + c.length := by simp [hmem, Nat.add_assoc]
        have hle := h.getReadPtr_le
        omega
      · have hlen : mem.length = q₂.length + f.length + q₁.length := by
          simp [hmem, Nat.add_assoc]
        unfold readSpan at hspan
        split_ifs at hspan <;> omega
    rw [if_neg (by omega), if_neg hfits]
    refine ⟨_, rfl, ⟨h.size_eq, ?_⟩, rfl⟩
    have hring := h.ring.read hpos hspan
    rw [← h.size_eq] at hring
    exact hring

end RBuffer.Holds

end Nxweb
