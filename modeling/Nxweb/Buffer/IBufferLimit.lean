import Nxweb.Buffer.IBuffer
import Nxweb.Lib.Machine

/-!
# The limit of the in-memory body buffer

An `nxd_ibuffer` is followed over any sequence of reads. Before each of them `nxb_make_room`
provides room for at least 32 bytes, and how much more there is depends on what the arena has been
used for.

The buffer asks for one byte less than there is room for, and for one byte less than is left of its
limit if the former would exceed the limit. If it would just reach the limit, the buffer asks for
all that is left of it. The buffer keeps below its limit if and only if no read that happens to have
just this room gets as much as it asks for (`ibuffer_limited_iff`). What is stored is a prefix of
the input, the terminator has its room and the end is published once in any case.

## Main definitions

* `IBufferRun`, `IBufferRun.step`: the buffer and the input it has been given so far;
* `IBufferRun.Limited`, `TerminatorFits`: what is expected of the buffer;
* `LeavesByte`: the reads that do not use up the limit.
-/

namespace Nxweb

open Lib

/-- What can happen to the buffer. -/
inductive IBufferEvent where
  /-- `ibuffer_data_in_do_read`, when the arena has room for `room` bytes, and what the istream
  gives to it. -/
  | read (room : ℕ) (data : List UInt8) (eof : Bool)
  /-- `nxd_ibuffer_get_result`. -/
  | getResult
  deriving DecidableEq, Repr

/-- The buffer with all bytes that have been read from the istream. -/
structure IBufferRun where
  ib : IBuffer
  input : List UInt8 := []
  deriving DecidableEq, Repr

namespace IBufferRun

/-- `nxd_ibuffer_init`. -/
def init (maxDataSize : ℕ) : IBufferRun := { ib := { maxDataSize } }

/-- A read gets as many bytes as it asks for at most. -/
def step (s : IBufferRun) : IBufferEvent → Option IBufferRun
  | .read room data eof =>
    if 32 ≤ room ∧ data.length ≤ s.ib.askSize room then
      some { ib := s.ib.accept data eof, input := s.input ++ data }
    else none
  | .getResult => some { s with ib := s.ib.getResult.2 }

/-- The buffer is below its limit, it holds the beginning of the input and has published its
completion once at most. -/
structure Limited (s : IBufferRun) : Prop where
  below : s.ib.stored.length + 1 ≤ s.ib.maxDataSize
  isPrefix : s.ib.stored <+: s.input
  once : s.ib.dataComplete.length ≤ 1

instance (s : IBufferRun) : Decidable s.Limited :=
  decidable_of_iff (s.ib.stored.length + 1 ≤ s.ib.maxDataSize ∧ s.ib.stored <+: s.input ∧
      s.ib.dataComplete.length ≤ 1)
    ⟨fun h => ⟨h.1, h.2.1, h.2.2⟩, fun h => ⟨h.below, h.isPrefix, h.once⟩⟩

end IBufferRun

/-- A read that closes the buffer has left room for the terminator. -/
def TerminatorFits (s : IBufferRun) (e : IBufferEvent) (s' : IBufferRun) : Prop :=
  match e with
  | .read room data _ =>
    s.ib.closed = false → s'.ib.closed = true → data.length + 1 ≤ room
  | .getResult => True

instance (s : IBufferRun) (e : IBufferEvent) (s' : IBufferRun) :
    Decidable (TerminatorFits s e s') := by
  unfold TerminatorFits
  cases e <;> infer_instance

/-- The read does not get all that is left of the limit in a room of one byte more. -/
def LeavesByte (s : IBufferRun) (e : IBufferEvent) (_ : IBufferRun) : Prop :=
  match e with
  | .read room data _ =>
    s.ib.closed = false → ¬ (s.ib.dataSize + room = s.ib.maxDataSize + 1 ∧
      s.ib.dataSize + data.length = s.ib.maxDataSize)
  | .getResult => True

/-! ### What a read stores -/

/-- An open buffer appends all that it is given. -/
theorem IBuffer.store_stored (ib : IBuffer) (data : List UInt8) (eof : Bool) :
    (ib.store data eof).stored = ib.stored ++ data := by
  unfold IBuffer.store IBuffer.finish
  by_cases hdata : data = []
  · simp only [hdata, ne_eq, not_true_eq_false, if_false, List.append_nil]
    split_ifs <;> rfl
  · simp only [ne_eq, hdata, not_false_eq_true, if_true]
    split_ifs <;> rfl

/-- An open buffer that has not published anything publishes its completion when it closes. -/
theorem IBuffer.store_dataComplete {ib : IBuffer} (data : List UInt8) (eof : Bool)
    (hopen : ib.closed = false) (hnone : ib.dataComplete = []) :
    (ib.store data eof).dataComplete.length =
      if (ib.store data eof).closed then 1 else 0 := by
  unfold IBuffer.store IBuffer.finish
  by_cases hdata : data = []
  · cases eof <;> simp [hdata, hopen, hnone]
  · by_cases hfull : ib.maxDataSize - 1 ≤ ib.dataSize + data.length <;> cases eof <;>
      simp [hdata, hopen, hnone, hfull]

/-- There is room for the terminator behind all that an open buffer asks for. -/
theorem IBuffer.readSize_lt {ib : IBuffer} {room : ℕ} (hroom : 0 < room) :
    ib.readSize room < room := by
  unfold IBuffer.readSize
  dsimp only
  split_ifs <;> omega

/-- The buffer asks for all that is left of its limit in a room of one byte more, and for less in
any other. -/
theorem IBuffer.readSize_below {ib : IBuffer} {room n : ℕ} (hbelow : ib.dataSize < ib.maxDataSize)
    (hroom : 0 < room) (hn : n ≤ ib.readSize room) :
    ib.dataSize + n < ib.maxDataSize ∨
      ib.dataSize + room = ib.maxDataSize + 1 ∧ ib.dataSize + n = ib.maxDataSize := by
  unfold IBuffer.readSize at hn
  dsimp only at hn
  split_ifs at hn <;> omega

/-! ### The buffer along a run -/

/-- What an open buffer holds is the whole input, and it is below its limit. -/
structure IBufferRun.Inv (s : IBufferRun) : Prop where
  limited : s.Limited
  size : s.ib.dataSize = s.ib.stored.length
  opened : s.ib.closed = false → s.ib.stored = s.input ∧ s.ib.dataComplete = []

/-- A closed buffer keeps what it has. -/
theorem IBufferRun.Inv.swallow {s : IBufferRun} (h : s.Inv) (hclosed : s.ib.closed = true)
    (data : List UInt8) (eof : Bool) :
    IBufferRun.Inv { ib := s.ib.swallow eof, input := s.input ++ data } where
  limited :=
    { below := h.limited.below
      isPrefix := h.limited.isPrefix.trans (List.prefix_append _ _)
      once := h.limited.once }
  size := h.size
  opened hopen := by
    have : s.ib.closed = false := hopen
    simp [hclosed] at this

/-- An open buffer keeps the invariant as long as it stays below its limit. -/
theorem IBufferRun.Inv.store {s : IBufferRun} (h : s.Inv) (hopen : s.ib.closed = false)
    {data : List UInt8} (eof : Bool) (hbelow : s.ib.dataSize + data.length < s.ib.maxDataSize) :
    IBufferRun.Inv { ib := s.ib.store data eof, input := s.input ++ data } := by
  obtain ⟨hall, hnone⟩ := h.opened hopen
  obtain ⟨hsize, hmax⟩ := s.ib.store_dataSize data eof
  have hstored := s.ib.store_stored data eof
  have hcomplete := IBuffer.store_dataComplete data eof hopen hnone
  have hlen : s.ib.dataSize + data.length = (s.ib.store data eof).stored.length := by
    rw [hstored, List.length_append, h.size]
  refine ⟨⟨?_, ?_, ?_⟩, hsize.trans hlen, fun hopen' => ⟨?_, ?_⟩⟩
  · show (s.ib.store data eof).stored.length + 1 ≤ (s.ib.store data eof).maxDataSize
    rw [← hlen, hmax]
    exact hbelow
  · show (s.ib.store data eof).stored <+: s.input ++ data
    rw [hstored, hall]
  · show (s.ib.store data eof).dataComplete.length ≤ 1
    rw [hcomplete]
    split_ifs <;> omega
  · show (s.ib.store data eof).stored = s.input ++ data
    rw [hstored, hall]
  · have hstill : (s.ib.store data eof).closed = false := hopen'
    rw [hstill] at hcomplete
    exact List.eq_nil_of_length_eq_zero hcomplete

/-- What `nxd_ibuffer_get_result` closes is not published. -/
theorem IBufferRun.Inv.getResult {s : IBufferRun} (h : s.Inv) :
    IBufferRun.Inv { s with ib := s.ib.getResult.2 } where
  limited :=
    { below := h.limited.below
      isPrefix := h.limited.isPrefix
      once := h.limited.once }
  size := h.size
  opened hopen := by simp [IBuffer.getResult] at hopen

/-- A transition keeps the buffer limited exactly if it leaves a byte. -/
theorem ibuffer_step (s : IBufferRun) (e : IBufferEvent) (s' : IBufferRun) (h : s.Inv)
    (hs' : s.step e = some s') :
    ((TerminatorFits s e s' ∧ s'.Limited) ↔ LeavesByte s e s') ∧
      (TerminatorFits s e s' ∧ s'.Limited → s'.Inv) := by
  cases e with
  | getResult =>
    obtain rfl := Option.some.inj hs'
    have hkeep := h.getResult
    exact ⟨iff_of_true ⟨trivial, hkeep.limited⟩ trivial, fun _ => hkeep⟩
  | read room data eof =>
    obtain ⟨⟨hroom, hask⟩, hs'⟩ := Option.ite_none_right_eq_some.mp hs'
    obtain rfl := Option.some.inj hs'
    unfold IBuffer.askSize at hask
    unfold IBuffer.accept
    by_cases hclosed : s.ib.closed = true
    · rw [if_pos hclosed]
      have hkeep := h.swallow hclosed data eof
      refine ⟨iff_of_true ⟨fun hopen => ?_, hkeep.limited⟩ fun hopen => ?_, fun _ => hkeep⟩ <;>
        simp [hclosed] at hopen
    · have hopen : s.ib.closed = false := Bool.eq_false_iff.mpr hclosed
      rw [if_neg hclosed] at hask ⊢
      have hfits : data.length + 1 ≤ room :=
        hask.trans_lt (IBuffer.readSize_lt (by omega))
      have hlt : s.ib.dataSize < s.ib.maxDataSize := h.size ▸ h.limited.below
      rcases IBuffer.readSize_below hlt (by omega) hask with hbelow | hslip
      · have hkeep := h.store hopen eof hbelow
        refine ⟨iff_of_true ⟨fun _ _ => hfits, hkeep.limited⟩ fun _ => ?_, fun _ => hkeep⟩
        rintro ⟨-, hfull⟩
        omega
      · -- The limit is used up, and nothing is left for the terminator.
        have hover : ¬ IBufferRun.Limited
            { ib := s.ib.store data eof, input := s.input ++ data } := by
          intro hlim
          have hle : (s.ib.store data eof).stored.length + 1 ≤ (s.ib.store data eof).maxDataSize :=
            hlim.below
          rw [IBuffer.store_stored, (s.ib.store_dataSize data eof).2, List.length_append] at hle
          have hsize := h.size
          omega
        exact ⟨iff_of_false (fun hP => hover hP.2) fun hleaves => hleaves hopen hslip,
          fun hP => absurd hP.2 hover⟩

/-- A fresh buffer is limited exactly if its limit is positive. -/
theorem IBufferRun.init_limited (maxDataSize : ℕ) :
    (IBufferRun.init maxDataSize).Limited ↔ 1 ≤ maxDataSize :=
  ⟨fun h => by simpa [IBufferRun.init] using h.below,
    fun h => ⟨by simpa [IBufferRun.init] using h, List.nil_prefix, Nat.zero_le 1⟩⟩

/-- In every sequence of reads, and whatever room the arena has at each of them, the buffer stays
below its limit, holds the beginning of the input, publishes its completion once and always has room
for the terminator if and only if there is a limit and no read gets all that is left of it in a room
of just one byte more. -/
theorem ibuffer_limited_iff (maxDataSize : ℕ) (es : List IBufferEvent) :
    (IBufferRun.init maxDataSize).Limited ∧
        Along IBufferRun.step (fun s e s' => TerminatorFits s e s' ∧ s'.Limited)
          (IBufferRun.init maxDataSize) es ↔
      1 ≤ maxDataSize ∧
        Along IBufferRun.step LeavesByte (IBufferRun.init maxDataSize) es := by
  rw [IBufferRun.init_limited]
  refine and_congr_right fun hpos => along_iff ibuffer_step es ?_
  exact ⟨(IBufferRun.init_limited maxDataSize).mpr hpos, rfl, fun _ => ⟨rfl, rfl⟩⟩

/-- In a room of 33 bytes a buffer with a limit of 32 bytes stores 32 bytes. -/
theorem ibuffer_exceeds_limit :
    ¬ ((IBufferRun.init 32).Limited ∧
      Along IBufferRun.step (fun s e s' => TerminatorFits s e s' ∧ s'.Limited)
        (IBufferRun.init 32) [.read 33 (List.replicate 32 97) true]) := by
  decide

end Nxweb
