import Nxweb.Memory.BufferIntegrity

/-!
# The room of an arena

Code that appends to an arena asks for room and then appends without looking. This module has the
part of `nxb_buffer` that such code depends on: how large the chunk is, how much of the stream is
unfinished, and how many bytes are left between `ptr` and `end`. A call of an unchecked function that
does not fit there has no result.

Memory is always granted. For sizes in the range of an `int` the arenas of `nx_buffer.c` have just
the room that is computed here (`NxbArena.Layout.arenaRoom_makeRoom`).

## Main definitions

* `ArenaRoom`, `ArenaCall`, `ArenaRoom.run`: the room, the calls, and what a sequence of calls leaves;
* `ArenaRoom.Fits`: every unchecked call of a sequence fits;
* `leastRoom`: what is left at least, whatever room there was, `none` if a call may not fit.

## Main results

* `forall_fits_iff`: a sequence fits in every state if and only if `leastRoom` finds no call that may
  not fit.
-/

namespace Nxweb

/-- What the functions of `nx_buffer.h` look at before they append. -/
structure ArenaRoom where
  /-- The size of the chunk, from its `buf` to its `end`. -/
  capacity : ℕ
  /-- `ptr - base` -/
  unfinished : ℕ
  /-- `end - ptr` -/
  room : ℕ
  /-- The stream and the room behind it are in the chunk. -/
  le_capacity : unfinished + room ≤ capacity
  deriving DecidableEq, Repr

/-- A call of a function of `nx_buffer.h`. -/
inductive ArenaCall where
  /-- `nxb_make_room` -/
  | makeRoom (size : ℕ)
  /-- `nxb_append`, `nxb_append_str`, `nxb_append_char` and `nxb_append_uint64_hex_zeropad` -/
  | append (data : List UInt8)
  /-- `nxb_append_fast`, `nxb_append_str_fast` and `nxb_append_char_fast` -/
  | appendFast (data : List UInt8)
  /-- `nxb_blank_fast` behind a text that has been formatted into the room: `size` bytes are kept,
  and the formatter has written `reach` bytes. -/
  | formatFast (text : List UInt8) (size reach : ℕ)
  deriving DecidableEq, Repr

/-- The bytes that a call leaves in the stream. -/
def ArenaCall.data : ArenaCall → List UInt8
  | .makeRoom _ => []
  | .append data => data
  | .appendFast data => data
  | .formatFast text _ _ => text

namespace ArenaRoom

/-- `nxb_start_stream`: what is unfinished is given up. -/
def startStream (a : ArenaRoom) : ArenaRoom where
  capacity := a.capacity
  unfinished := 0
  room := a.unfinished + a.room
  le_capacity := by simpa using a.le_capacity

/-- `nxb_realloc_chunk`. -/
def reallocChunk (a : ArenaRoom) (minRoom : ℕ) : ArenaRoom :=
  let needed := minRoom + a.unfinished
  let newSize := (max (a.capacity * 2) (needed + needed / 8) + 15) / 16 * 16
  { capacity := newSize + 7
    unfinished := a.unfinished
    room := newSize + 7 - a.unfinished
    le_capacity := by omega }

/-- `nxb_make_room`. -/
def makeRoom (a : ArenaRoom) (minSize : ℕ) : ArenaRoom :=
  if a.room < minSize then a.reallocChunk minSize else a

/-- `ptr` is moved by `size`, as far as there is room. -/
def advance (a : ArenaRoom) (size : ℕ) : Option ArenaRoom :=
  if h : size ≤ a.room then
    some { a with
      unfinished := a.unfinished + size
      room := a.room - size
      le_capacity := by have := a.le_capacity; omega }
  else none

/-- The state after a call, `none` if it is unchecked and does not fit. -/
def exec (a : ArenaRoom) : ArenaCall → Option ArenaRoom
  | .makeRoom size => some (a.makeRoom size)
  | .append data => (a.makeRoom data.length).advance data.length
  | .appendFast data => a.advance data.length
  | .formatFast _ size reach => if reach ≤ a.room then a.advance size else none

/-- The state after a sequence of calls. -/
def run (a : ArenaRoom) (calls : List ArenaCall) : Option ArenaRoom := calls.foldlM exec a

/-- Every unchecked call of the sequence fits in the room that there is at that moment. -/
def Fits (a : ArenaRoom) (calls : List ArenaCall) : Prop := (a.run calls).isSome

instance (a : ArenaRoom) (calls : List ArenaCall) : Decidable (a.Fits calls) :=
  inferInstanceAs (Decidable (_ = true))

/-! ### One call -/

variable {a : ArenaRoom} {n : ℕ}

/-- A new chunk has the room that was asked for. -/
theorem le_room_reallocChunk (a : ArenaRoom) (n : ℕ) : n ≤ (a.reallocChunk n).room := by
  simp only [reallocChunk]
  omega

theorem makeRoom_of_le (h : n ≤ a.room) : a.makeRoom n = a := if_neg (Nat.not_lt.mpr h)

/-- Asking for room gives it, and takes none away. -/
theorem max_le_room_makeRoom (a : ArenaRoom) (n : ℕ) : max a.room n ≤ (a.makeRoom n).room := by
  have hnew := le_room_reallocChunk a n
  unfold makeRoom
  split_ifs <;> omega

theorem advance_of_le (h : n ≤ a.room) :
    ∃ a', a.advance n = some a' ∧ a'.room = a.room - n ∧ a'.unfinished = a.unfinished + n :=
  ⟨_, dif_pos h, rfl, rfl⟩

theorem advance_of_lt (h : a.room < n) : a.advance n = none := dif_neg (Nat.not_le.mpr h)

@[simp]
theorem run_nil (a : ArenaRoom) : a.run [] = some a := rfl

@[simp]
theorem run_cons (a : ArenaRoom) (call : ArenaCall) (calls : List ArenaCall) :
    a.run (call :: calls) = (a.exec call).bind fun a => a.run calls := rfl

end ArenaRoom

/-! ### The least room -/

/-- What is left at least by a call if there were at least `r` bytes, `none` if the call may not
fit. -/
def ArenaCall.leastRoom (r : ℕ) : ArenaCall → Option ℕ
  | .makeRoom size => some (max r size)
  | .append data => some (r - data.length)
  | .appendFast data => if data.length ≤ r then some (r - data.length) else none
  | .formatFast _ size reach => if reach ≤ r ∧ size ≤ r then some (r - size) else none

/-- What is left at least by a sequence of calls if there were at least `r` bytes, `none` if one of
them may not fit. -/
def leastRoom (r : ℕ) (calls : List ArenaCall) : Option ℕ := calls.foldlM ArenaCall.leastRoom r

@[simp]
theorem leastRoom_nil (r : ℕ) : leastRoom r [] = some r := rfl

@[simp]
theorem leastRoom_cons (r : ℕ) (call : ArenaCall) (calls : List ArenaCall) :
    leastRoom r (call :: calls) = (call.leastRoom r).bind fun r => leastRoom r calls := rfl

theorem leastRoom_append (r : ℕ) (calls calls' : List ArenaCall) :
    leastRoom r (calls ++ calls') = (leastRoom r calls).bind fun r => leastRoom r calls' := by
  induction calls generalizing r with
  | nil => rfl
  | cons call calls ih =>
    rw [List.cons_append, leastRoom_cons, leastRoom_cons]
    cases call.leastRoom r with
    | none => rfl
    | some r' => exact ih r'

/-- Checked appends always fit, and take what they append. -/
theorem leastRoom_checked (r : ℕ) (datas : List (List UInt8)) :
    leastRoom r (datas.map .append) = some (r - datas.flatten.length) := by
  induction datas generalizing r with
  | nil => rfl
  | cons data datas ih =>
    rw [List.map_cons, leastRoom_cons, List.flatten_cons, List.length_append, ← Nat.sub_sub]
    exact ih _

/-- Unchecked appends fit if and only if all that they append does. -/
theorem leastRoom_unchecked (r : ℕ) (datas : List (List UInt8)) :
    leastRoom r (datas.map .appendFast) =
      if datas.flatten.length ≤ r then some (r - datas.flatten.length) else none := by
  induction datas generalizing r with
  | nil => rfl
  | cons data datas ih =>
    rw [List.map_cons, leastRoom_cons, ArenaCall.leastRoom, List.flatten_cons, List.length_append]
    by_cases hdata : data.length ≤ r
    · rw [if_pos hdata, Option.bind_some, ih]
      -- the rest fits behind the first append if both fit together
      by_cases hrest : datas.flatten.length ≤ r - data.length
      · rw [if_pos hrest, if_pos (by omega), Nat.sub_sub]
      · rw [if_neg hrest, if_neg (by omega)]
    · rw [if_neg hdata, if_neg (by omega), Option.bind_none]

namespace ArenaRoom

/-- A call leaves at least the least room. -/
theorem exec_of_leastRoom {a : ArenaRoom} {call : ArenaCall} {r r' : ℕ} (hr : r ≤ a.room)
    (h : call.leastRoom r = some r') : ∃ a', a.exec call = some a' ∧ r' ≤ a'.room := by
  cases call with
  | makeRoom size =>
    obtain rfl := Option.some.inj h
    have hmax := max_le_room_makeRoom a size
    exact ⟨_, rfl, by omega⟩
  | append data =>
    obtain rfl := Option.some.inj h
    have hmax := max_le_room_makeRoom a data.length
    obtain ⟨a', heq, hroom, -⟩ := advance_of_le (a := a.makeRoom data.length) (n := data.length)
      (by omega)
    exact ⟨a', heq, by omega⟩
  | appendFast data =>
    obtain ⟨hfit, rfl⟩ := by simpa [ArenaCall.leastRoom] using h
    obtain ⟨a', heq, hroom, -⟩ := advance_of_le (hfit.trans hr)
    exact ⟨a', heq, by omega⟩
  | formatFast text size reach =>
    obtain ⟨⟨hreach, hfit⟩, rfl⟩ := by simpa [ArenaCall.leastRoom] using h
    obtain ⟨a', heq, hroom, -⟩ := advance_of_le (hfit.trans hr)
    exact ⟨a', by rw [exec, if_pos (hreach.trans hr), heq], by omega⟩

theorem run_of_leastRoom {a : ArenaRoom} {calls : List ArenaCall} {r r' : ℕ} (hr : r ≤ a.room)
    (h : leastRoom r calls = some r') : ∃ a', a.run calls = some a' ∧ r' ≤ a'.room := by
  induction calls generalizing a r with
  | nil =>
    obtain rfl := Option.some.inj h
    exact ⟨a, rfl, hr⟩
  | cons call calls ih =>
    obtain ⟨r₁, hcall, hrest⟩ := Option.bind_eq_some_iff.mp h
    obtain ⟨a₁, hexec, hr₁⟩ := exec_of_leastRoom hr hcall
    obtain ⟨a', hrun, hr'⟩ := ih hr₁ hrest
    exact ⟨a', by rw [run_cons, hexec, Option.bind_some, hrun], hr'⟩

/-- The least room is reached: where it runs out, some amount of room is used up in front of an
unchecked call without a new chunk. -/
theorem exists_run_eq_none {calls : List ArenaCall} {r : ℕ} (h : leastRoom r calls = none) :
    ∃ x, r ≤ x ∧ ∀ a : ArenaRoom, a.room = x → a.run calls = none := by
  induction calls generalizing r with
  | nil => cases h
  | cons call calls ih =>
    cases hcall : call.leastRoom r with
    | none =>
      refine ⟨r, le_rfl, fun a ha => ?_⟩
      cases call with
      | makeRoom size => cases hcall
      | append data => cases hcall
      | appendFast data =>
        have hlt : r < data.length := by simpa [ArenaCall.leastRoom] using hcall
        rw [run_cons, exec, advance_of_lt (ha ▸ hlt), Option.bind_none]
      | formatFast text size reach =>
        have hlt : reach ≤ r → r < size := by simpa [ArenaCall.leastRoom] using hcall
        rw [run_cons, exec]
        split_ifs with hreach
        · rw [advance_of_lt (ha ▸ hlt (ha ▸ hreach)), Option.bind_none]
        · rfl
    | some r₁ =>
      have hrest : leastRoom r₁ calls = none := by
        rw [leastRoom_cons, hcall] at h
        exact h
      obtain ⟨x, hx, hnone⟩ := ih hrest
      -- the call leaves `x` bytes if there is just so much more
      suffices hexec : ∃ y, r ≤ y ∧ ∀ a : ArenaRoom, a.room = y →
          ∃ a', a.exec call = some a' ∧ a'.room = x by
        obtain ⟨y, hy, hstep⟩ := hexec
        refine ⟨y, hy, fun a ha => ?_⟩
        obtain ⟨a', heq, hroom⟩ := hstep a ha
        rw [run_cons, heq, Option.bind_some, hnone a' hroom]
      have hadvance : ∀ (a : ArenaRoom) (n : ℕ), a.room = x + n →
          ∃ a', a.advance n = some a' ∧ a'.room = x := fun a n ha => by
        obtain ⟨a', heq, hroom, -⟩ := advance_of_le (a := a) (n := n) (by omega)
        exact ⟨a', heq, by omega⟩
      cases call with
      | makeRoom size =>
        obtain rfl := Option.some.inj hcall
        exact ⟨x, by omega, fun a ha => ⟨a, by rw [exec, makeRoom_of_le (by omega)], ha⟩⟩
      | append data =>
        obtain rfl := Option.some.inj hcall
        refine ⟨x + data.length, by omega, fun a ha => ?_⟩
        rw [exec, makeRoom_of_le (by omega)]
        exact hadvance a _ ha
      | appendFast data =>
        obtain ⟨-, rfl⟩ := by simpa [ArenaCall.leastRoom] using hcall
        exact ⟨x + data.length, by omega, fun a ha => hadvance a _ ha⟩
      | formatFast text size reach =>
        obtain ⟨⟨hreach, -⟩, rfl⟩ := by simpa [ArenaCall.leastRoom] using hcall
        refine ⟨x + size, by omega, fun a ha => ?_⟩
        rw [exec, if_pos (by omega)]
        exact hadvance a _ ha

/-- A stream that has just been started fits in every state if and only if no call is found that may
not fit. -/
theorem forall_fits_iff (calls : List ArenaCall) :
    (∀ a : ArenaRoom, a.startStream.Fits calls) ↔ (leastRoom 0 calls).isSome := by
  constructor
  · intro hfits
    by_contra hnone
    obtain ⟨x, -, hrun⟩ := exists_run_eq_none (Option.not_isSome_iff_eq_none.mp hnone)
    have hx := hfits ⟨x, 0, x, by omega⟩
    rw [Fits, hrun _ (Nat.zero_add x)] at hx
    cases hx
  · intro hsome a
    obtain ⟨r', hr'⟩ := Option.isSome_iff_exists.mp hsome
    obtain ⟨a', hrun, -⟩ := run_of_leastRoom (Nat.zero_le a.startStream.room) hr'
    rw [Fits, hrun]
    rfl

end ArenaRoom

/-! ### The room of the arenas -/

/-- The size of a new chunk, for sizes in the range of an `int`. -/
theorem allocSize_eq {capacity n size : ℕ} (hcap : capacity < 2 ^ 29) (hsum : n + size < 2 ^ 29) :
    allocSize capacity n size =
      24 + (max (capacity * 2) (size + n + (size + n) / 8) + 15 : ℕ) / 16 * 16 := by
  have hneeded : asInt ((size : ℤ) + n) = size + n := asInt_of_bounds (by omega) (by omega)
  have hmore : asInt ((size : ℤ) + n + ((size : ℤ) + n) >>> (3 : ℕ)) =
      size + n + ((size : ℤ) + n) / 8 := by
    rw [Int.shiftRight_eq_div_pow]
    exact asInt_of_bounds (by omega) (by omega)
  have hmax : (if (capacity : ℤ) * 2 < size + n + ((size : ℤ) + n) / 8 then
      size + n + ((size : ℤ) + n) / 8 else (capacity : ℤ) * 2) =
      (max (capacity * 2) (size + n + (size + n) / 8) : ℕ) := by
    split_ifs <;> omega
  have hle : max (capacity * 2) (size + n + (size + n) / 8) < 2 ^ 30 := by omega
  simp only [allocSize, asInt_of_bounds (x := (capacity : ℤ) * 2) (by omega) (by omega),
    asInt_of_bounds (x := (n : ℤ)) (by omega) (by omega), hneeded, hmore, hmax]
  generalize max (capacity * 2) (size + n + (size + n) / 8) = newSize at hle
  rw [asInt_of_bounds (x := (newSize : ℤ) + 15) (by omega) (by omega),
    asInt_of_bounds (by omega) (by omega), Nat.cast_add, Nat.cast_ofNat]

/-- The room of an arena whose pointers are in order. -/
def NxbArena.Layout.arenaRoom {nxb : NxbArena} {n : ℕ} (h : nxb.Layout n) : ArenaRoom where
  capacity := nxb.chunk.limit - nxb.chunk.buf
  unfinished := n
  room := nxb.limit - nxb.ptr
  le_capacity := by
    have := h.buf_le
    have := h.ptr_eq
    have := h.ptr_le
    have := h.limit_le
    omega

/-- `nxb_make_room` gives the arena the room that is computed here. -/
theorem NxbArena.Layout.arenaRoom_makeRoom {nxb nxb' : NxbArena} {n size addr : ℕ}
    (h : nxb.Layout n) (h' : nxb'.Layout n) (hcap : nxb.chunk.limit - nxb.chunk.buf < 2 ^ 29)
    (hsum : n + size < 2 ^ 29) (hroom : nxb.makeRoom size addr = some nxb') :
    h'.arenaRoom = h.arenaRoom.makeRoom size := by
  have hkeep : h.arenaRoom.room < size ↔ nxb.limit < nxb.ptr + size := by
    have := h.ptr_le
    show nxb.limit - nxb.ptr < size ↔ _
    omega
  unfold NxbArena.makeRoom at hroom
  unfold ArenaRoom.makeRoom
  simp only [hkeep]
  split_ifs at hroom ⊢ with hnew
  · -- the size of the new chunk, and what moves there
    have hsize : allocSize (nxb.chunk.limit - nxb.chunk.buf) (nxb.ptr - nxb.base) size =
        ((h.arenaRoom.reallocChunk size).capacity + 17 : ℕ) := by
      have hchunk : ((nxb.chunk.limit : ℤ) - nxb.chunk.buf) =
          ((nxb.chunk.limit - nxb.chunk.buf : ℕ) : ℤ) := by
        have := h.room
        omega
      have hstream : ((nxb.ptr : ℤ) - nxb.base) = n := by
        have := h.ptr_eq
        omega
      rw [hchunk, hstream, allocSize_eq hcap hsum]
      simp only [ArenaRoom.reallocChunk, NxbArena.Layout.arenaRoom]
      push_cast
      ring
    have hstream : (asInt (nxb.ptr - nxb.base)).toNat = n := by
      have := h.ptr_eq
      rw [asInt_of_bounds (by omega) (by omega)]
      omega
    simp only [NxbArena.reallocChunk, hsize, hstream] at hroom
    have hnewRoom : (h.arenaRoom.reallocChunk size).room =
        (h.arenaRoom.reallocChunk size).capacity - n := rfl
    have hparts : nxb'.chunk.limit - nxb'.chunk.buf = (h.arenaRoom.reallocChunk size).capacity ∧
        nxb'.limit - nxb'.ptr = (h.arenaRoom.reallocChunk size).room := by
      rw [hnewRoom]
      generalize (h.arenaRoom.reallocChunk size).capacity = capacity at hroom ⊢
      -- whether or not the old chunk is freed
      split_ifs at hroom <;> obtain rfl := Option.some.inj hroom <;>
        simp only [NxbChunk.buf] <;> omega
    simp only [NxbArena.Layout.arenaRoom, hparts]
    rfl
  · obtain rfl := Option.some.inj hroom
    rfl

end Nxweb
