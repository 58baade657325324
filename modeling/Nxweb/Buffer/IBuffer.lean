import Nxweb.ServerProto.RequestBody

/-!
# The in-memory body buffer

Model of `nxd_ibuffer` (`nxd_buffer.c`), the consumer that collects a body in the arena of its
request. The buffer reads as much as the arena has room for, one byte less than its limit at
most, and closes when the limit or the end of the body is reached. A closed buffer goes on
reading and drops what it gets.

How much room the arena has after `nxb_make_room` is up to the environment, and so is the istream:
it is given by what one `read` of it returns.

## Main definitions

* `IBuffer`;
* `IBuffer.dataInDoRead`: `ibuffer_data_in_do_read`;
* `IBuffer.getResult`: `nxd_ibuffer_get_result`.
-/

namespace Nxweb

/-- `nxd_ibuffer`. The buffer is closed while `data_ptr` is set. -/
structure IBuffer where
  maxDataSize : ℕ
  dataSize : ℕ := 0
  stored : List UInt8 := []
  closed : Bool := false
  dataInReady : Bool := true
  dataComplete : List ℤ := []
  deriving DecidableEq, Repr

/-- The size of the buffer into which a closed `nxd_ibuffer` reads. -/
def swallowSize : ℕ := 16384

/-- How much an open buffer asks for, when the arena has room for `room` bytes: there is a null
terminator behind the data. -/
def IBuffer.readSize (ib : IBuffer) (room : ℕ) : ℕ :=
  let size := room - 1
  if ib.maxDataSize < ib.dataSize + size then ib.maxDataSize - ib.dataSize - 1 else size

/-- The data gets its terminator, and the end is announced. -/
def IBuffer.finish (ib : IBuffer) (msg : ℤ) : IBuffer :=
  { ib with closed := true, dataComplete := ib.dataComplete ++ [msg] }

/-- What an open buffer does with the bytes of a read. -/
def IBuffer.store (ib : IBuffer) (data : List UInt8) (eof : Bool) : IBuffer :=
  let ib :=
    if data ≠ [] then
      let ib := { ib with dataSize := ib.dataSize + data.length, stored := ib.stored ++ data }
      if ib.maxDataSize - 1 ≤ ib.dataSize then ib.finish (-1) else ib
    else ib
  if eof then { (if ib.closed then ib else ib.finish 0) with dataInReady := false } else ib

/-- A closed buffer only notices the end of the body. -/
def IBuffer.swallow (ib : IBuffer) (eof : Bool) : IBuffer :=
  { ib with dataInReady := ib.dataInReady && !eof }

/-- `ibuffer_data_in_do_read` on an istream whose `read` is given. -/
def IBuffer.dataInDoRead (ib : IBuffer) (room : ℕ) (read : ℕ → Option BodyRead) :
    Option (IBuffer × BodyRead) := do
  if ib.closed then
    let r ← read swallowSize
    return (ib.swallow r.eof, r)
  else
    let r ← read (ib.readSize room)
    return (ib.store r.data r.eof, r)

/-- `nxd_ibuffer_get_result`, with the size it returns. -/
def IBuffer.getResult (ib : IBuffer) : ℕ × IBuffer :=
  (ib.dataSize, { ib with closed := true })

@[simp]
theorem IBuffer.finish_dataSize (ib : IBuffer) (msg : ℤ) :
    (ib.finish msg).dataSize = ib.dataSize := rfl

@[simp]
theorem IBuffer.finish_maxDataSize (ib : IBuffer) (msg : ℤ) :
    (ib.finish msg).maxDataSize = ib.maxDataSize := rfl

/-- An open buffer counts what it is given. -/
theorem IBuffer.store_dataSize (ib : IBuffer) (data : List UInt8) (eof : Bool) :
    (ib.store data eof).dataSize = ib.dataSize + data.length ∧
      (ib.store data eof).maxDataSize = ib.maxDataSize := by
  unfold IBuffer.store
  by_cases hdata : data = []
  · simp only [hdata, ne_eq, not_true_eq_false, if_false, List.length_nil, add_zero]
    split_ifs <;> exact ⟨rfl, rfl⟩
  · simp only [ne_eq, hdata, not_false_eq_true, if_true]
    split_ifs <;> exact ⟨rfl, rfl⟩

/-- A buffer that is open stays so until its limit or the end of the body is reached. -/
theorem IBuffer.store_closed {ib : IBuffer} {data : List UInt8} {eof : Bool}
    (hopen : ib.closed = false) (hclosed : (ib.store data eof).closed = true) :
    eof = true ∨ ib.maxDataSize - 1 ≤ ib.dataSize + data.length := by
  unfold IBuffer.store at hclosed
  cases eof with
  | true => exact .inl rfl
  | false =>
    refine .inr ?_
    by_contra hlt
    by_cases hdata : data = []
    · simp [hdata, hopen] at hclosed
    · simp [hdata, hopen, hlt] at hclosed

/-- A buffer that reaches its limit closes. -/
theorem IBuffer.store_closed_of_le {ib : IBuffer} {data : List UInt8} {eof : Bool}
    (hne : data ≠ []) (hfull : ib.maxDataSize - 1 ≤ ib.dataSize + data.length) :
    (ib.store data eof).closed = true := by
  unfold IBuffer.store
  simp only [ne_eq, hne, not_false_eq_true, if_true, hfull]
  split_ifs <;> rfl

/-- A read of the buffer, open or closed. -/
theorem IBuffer.dataInDoRead_cases {ib ib' : IBuffer} {room : ℕ} {read : ℕ → Option BodyRead}
    {r : BodyRead} (h : ib.dataInDoRead room read = some (ib', r)) :
    ib.closed = true ∧ read swallowSize = some r ∧ ib' = ib.swallow r.eof ∨
      ib.closed = false ∧ read (ib.readSize room) = some r ∧ ib' = ib.store r.data r.eof := by
  unfold IBuffer.dataInDoRead at h
  by_cases hclosed : ib.closed = true
  · rw [if_pos hclosed] at h
    obtain ⟨r', hr, hret⟩ := Option.bind_eq_some_iff.mp h
    obtain ⟨rfl, rfl⟩ := Prod.mk.inj (Option.some.inj hret)
    exact .inl ⟨hclosed, hr, rfl⟩
  · rw [if_neg hclosed] at h
    obtain ⟨r', hr, hret⟩ := Option.bind_eq_some_iff.mp h
    obtain ⟨rfl, rfl⟩ := Prod.mk.inj (Option.some.inj hret)
    exact .inr ⟨Bool.not_eq_true _ ▸ hclosed, hr, rfl⟩

/-- What the buffer asks for. -/
def IBuffer.askSize (ib : IBuffer) (room : ℕ) : ℕ :=
  if ib.closed then swallowSize else ib.readSize room

/-- What the buffer does with the bytes of a read. -/
def IBuffer.accept (ib : IBuffer) (data : List UInt8) (eof : Bool) : IBuffer :=
  if ib.closed then ib.swallow eof else ib.store data eof

theorem IBuffer.dataInDoRead_eq {ib : IBuffer} {room : ℕ} {read : ℕ → Option BodyRead}
    {r : BodyRead} (h : read (ib.askSize room) = some r) :
    ib.dataInDoRead room read = some (ib.accept r.data r.eof, r) := by
  unfold IBuffer.dataInDoRead IBuffer.askSize IBuffer.accept at *
  split_ifs at h ⊢ <;> simp [h]

end Nxweb
