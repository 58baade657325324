import Nxweb.Buffer.RBufferFifo

/-!
# Compression of a body on its way

The gzip filter sits between the body of a response and the next stream. `gzip_data_in_write` gets
a part of the body and lets `deflate` write into a ring buffer, and `gzip_data_out_do_write` offers
what is in there to the next stream. Each of them may get less done than it could: `deflate` takes
what it has room for, and the next stream takes what it likes.

The functions of zlib are parameters. `DeflateSpec` is what its manual says of them.

## Main definitions

* `Deflate`, `Deflated`, `DeflateSpec`: the calls of `deflate`;
* `gzipDataInWrite`, `gzipDataOutDoWrite`: the two ends of the filter;
* `GzipRun.step`: a source with a body, the filter, and a next stream.

## Main results

* `gzipRun_delivers`: the next stream gets a compressed form of the whole body, and the filter is
  always ready for something until then.
-/

namespace Nxweb

open Lib

/-! ### What zlib says of `deflate` -/

/-- The flush modes that the filter uses. -/
inductive ZFlush where
  | syncFlush
  | finish
  deriving DecidableEq, Repr

/-- What `deflate` returns. -/
inductive ZResult where
  | ok
  | streamEnd
  | bufError
  | streamError
  deriving DecidableEq, Repr

/-- What a call of `deflate` leaves behind: how much of the input it has taken, and what it has
written. -/
structure ZStep (Z : Type) where
  zs : Z
  taken : ℕ
  output : List UInt8
  result : ZResult
  deriving DecidableEq, Repr

/-- `deflate` on an input, with room for so much output. -/
abbrev Deflate (Z : Type) : Type := Z → ZFlush → List UInt8 → ℕ → ZStep Z

variable {Z : Type}

/-- A call that the manual allows: there is room for output, and input or the end of it. After
`Z_FINISH` there are only calls with `Z_FINISH` and with what it has left of its input. -/
structure DeflateCall (left : Option (List UInt8)) (flush : ZFlush) (data : List UInt8)
    (room : ℕ) : Prop where
  room_pos : 0 < room
  something : data ≠ [] ∨ flush = .finish
  finish : ∀ l, left = some l → flush = .finish ∧ data = l

/-- The stream has had this input and has made this output of it. If it has been told that this was
all, so much of it is left. -/
inductive Deflated (deflate : Deflate Z) (zs₀ : Z) :
    Z → List UInt8 → List UInt8 → Option (List UInt8) → Prop
  | init : Deflated deflate zs₀ zs₀ [] [] none
  | call {zs : Z} {input output : List UInt8} {left : Option (List UInt8)} {flush : ZFlush}
      {data : List UInt8} {room : ℕ} (h : Deflated deflate zs₀ zs input output left)
      (hcall : DeflateCall left flush data room)
      (hresult : (deflate zs flush data room).result = .ok) :
      Deflated deflate zs₀ (deflate zs flush data room).zs
        (input ++ data.take (deflate zs flush data room).taken)
        (output ++ (deflate zs flush data room).output)
        (if flush = .finish then some (data.drop (deflate zs flush data room).taken) else none)

/-- What the manual says of a call: it stays within its input and its room, and returns `Z_OK`, or
`Z_STREAM_END` when all input has been taken and all output made, after `Z_FINISH` only. Then the
output can be uncompressed. -/
structure DeflateSpec (deflate : Deflate Z) (inflate : List UInt8 → Option (List UInt8)) (zs₀ : Z) :
    Prop where
  taken_le : ∀ {zs input output left flush data room},
    Deflated deflate zs₀ zs input output left → DeflateCall left flush data room →
      (deflate zs flush data room).taken ≤ data.length ∧
        (deflate zs flush data room).output.length ≤ room
  result : ∀ {zs input output left flush data room},
    Deflated deflate zs₀ zs input output left → DeflateCall left flush data room →
      (deflate zs flush data room).result = .ok ∨
        (deflate zs flush data room).result = .streamEnd ∧ flush = .finish
  streamEnd : ∀ {zs input output left flush data room},
    Deflated deflate zs₀ zs input output left → DeflateCall left flush data room →
      (deflate zs flush data room).result = .streamEnd →
        (deflate zs flush data room).taken = data.length ∧
          inflate (output ++ (deflate zs flush data room).output) = some (input ++ data)

/-! ### The filter -/

/-- `gzip_filter_data`: the ring buffer with what has been taken from it, and the zlib stream. -/
structure GzipFilterData (Z : Type) where
  buf : RBufferUse
  zs : Z

/-- The call of `deflate` in `gzip_data_in_write`: how much of the data it has taken, and what it
has returned. An unexpected result counts as `Z_STREAM_END`. -/
def gzipDeflate (deflate : Deflate Z) (g : GzipFilterData Z) (data : List UInt8) (eof : Bool) :
    Option (GzipFilterData Z × ℕ × ZResult) :=
  let sizeAvail := g.buf.rb.getWritePtr
  if sizeAvail ≠ 0 then
    let flush := if eof then ZFlush.finish else ZFlush.syncFlush
    let r := deflate g.zs flush data sizeAvail
    let deflateResult :=
      if flush = .finish ∧ (r.result = .streamEnd ∨ r.result = .ok) ∨
          flush = .syncFlush ∧ r.result = .ok then r.result
      else .streamEnd
    (g.buf.rb.receive g.buf.mem r.output false).map fun (rb, mem) =>
      ({ buf := { g.buf with rb, mem }, zs := r.zs }, r.taken, deflateResult)
  else
    -- the output has to be read first
    some ({ g with buf := { g.buf with
      rb := { g.buf.rb with dataInReady := false, dataOutReady := true } } }, 0, .ok)

/-- `gzip_data_in_write`, and how much of the data it has taken; `none` is a failed assertion. -/
def gzipDataInWrite (deflate : Deflate Z) (g : GzipFilterData Z) (data : List UInt8) (eof : Bool) :
    Option (GzipFilterData Z × ℕ) := do
  let (g, bytesSent, deflateResult) ←
    if data ≠ [] ∨ eof then gzipDeflate deflate g data eof else some (g, 0, .ok)
  if eof ∧ bytesSent = data.length ∧ deflateResult = .streamEnd then
    some ({ g with
      buf.rb := { g.buf.rb with eof := true, dataInReady := false, dataOutReady := true } },
      bytesSent)
  else some (g, bytesSent)

/-- `gzip_data_out_do_write`, where the next stream takes `n` of the bytes that it is offered. -/
def gzipDataOutDoWrite (g : GzipFilterData Z) (n : ℕ) : Option (GzipFilterData Z) :=
  if 0 < g.buf.rb.getReadPtr.1 ∨ g.buf.rb.getReadPtr.2 then
    (g.buf.rb.read n).map fun rb =>
      { g with buf := { g.buf with
        rb, out := g.buf.out ++ (g.buf.rb.offered g.buf.mem).take n } }
  else some { g with buf := { g.buf with rb := { g.buf.rb with dataOutReady := false } } }

/-! ### A source, the filter, and a next stream -/

/-- What happens next. -/
inductive GzipEvent where
  /-- The source offers the next `n` bytes of the body, and perhaps says that these are the
  last. -/
  | write (n : ℕ) (eof : Bool)
  /-- The next stream is offered what is in the buffer, and takes `n` bytes. -/
  | send (n : ℕ)
  deriving DecidableEq, Repr

/-- The filter at work. -/
structure GzipRun (Z : Type) where
  filter : GzipFilterData Z
  /-- What the source has still to write, and whether it has said so. -/
  rest : List UInt8
  finishing : Bool := false
  /-- The next stream has got the end of the stream. -/
  done : Bool := false

/-- The rules of streams: an end is only used while it is ready, the end of the stream comes with
the last bytes and is not taken back, and no more is taken than is offered. -/
def GzipRun.Allowed (s : GzipRun Z) : GzipEvent → Prop
  | .write n eof => s.filter.buf.rb.dataInReady = true ∧ n ≤ s.rest.length ∧
      (eof = true → n = s.rest.length) ∧ (s.finishing = true → eof = true)
  | .send n => s.filter.buf.rb.dataOutReady = true ∧ n ≤ s.filter.buf.rb.getReadPtr.1

instance (s : GzipRun Z) (e : GzipEvent) : Decidable (s.Allowed e) :=
  match e with
  | .write n eof => inferInstanceAs (Decidable (_ ∧ n ≤ _ ∧ (eof = true → _) ∧ (_ → eof = true)))
  | .send n => inferInstanceAs (Decidable (_ ∧ n ≤ _))

/-- One event that the rules allow. -/
def GzipRun.step (deflate : Deflate Z) (s : GzipRun Z) (e : GzipEvent) : Option (GzipRun Z) :=
  if s.Allowed e then
    match e with
    | .write n eof => do
      let (filter, sent) ← gzipDataInWrite deflate s.filter (s.rest.take n) eof
      some { s with filter, rest := s.rest.drop sent, finishing := s.finishing || eof }
    | .send n => do
      let filter ← gzipDataOutDoWrite s.filter n
      let (size, eof) := s.filter.buf.rb.getReadPtr
      some { s with filter, done := s.done || (eof && decide (n = size)) }
  else none

/-- The filter after `gzip_do_filter`, in front of a source with a body. -/
def GzipRun.start (mem : List UInt8) (zs₀ : Z) (body : List UInt8) : GzipRun Z where
  filter := { buf := .init mem, zs := zs₀ }
  rest := body

/-! ### What the filter does -/

section Run

variable {deflate : Deflate Z} {inflate : List UInt8 → Option (List UInt8)} {zs₀ : Z} {size : ℕ}
  {body : List UInt8} {s s' : GzipRun Z}

/-- Until `Z_STREAM_END`, the body is what `deflate` has had and what the source has left. -/
def GzipRun.Compressing (deflate : Deflate Z) (zs₀ : Z) (body : List UInt8) (s : GzipRun Z)
    (f : ByteFifo) : Prop :=
  ∃ input, Deflated deflate zs₀ s.filter.zs input (f.out ++ f.queue)
      (if s.finishing then some s.rest else none) ∧
    input ++ s.rest = body

/-- What is true at every moment. -/
structure GzipRun.Inv (deflate : Deflate Z) (inflate : List UInt8 → Option (List UInt8)) (zs₀ : Z)
    (size : ℕ) (body : List UInt8) (s : GzipRun Z) (f : ByteFifo) : Prop where
  buf : s.filter.buf.Inv size f
  compressing : f.ended = false → s.Compressing deflate zs₀ body f
  ended : f.ended = true →
    inflate (f.out ++ f.queue) = some body ∧ s.filter.buf.rb.dataInReady = false
  done : s.done = true → f.ended = true ∧ f.queue = []

/-- The buffer after `Z_STREAM_END`. -/
theorem RBufferUse.Inv.setEof {u : RBufferUse} {f : ByteFifo} (h : u.Inv size f) :
    ({ u with rb := { u.rb with eof := true, dataInReady := false, dataOutReady := true } } :
      RBufferUse).Inv size { f with ended := true } where
  holds := h.holds.congr rfl rfl rfl rfl
  size_eq := h.size_eq
  out_eq := h.out_eq
  ended_eq := rfl
  dataIn hended := by cases hended
  dataOut := by simp

/-- `data_in` is ready only while there is room. -/
theorem RBufferUse.Inv.room {u : RBufferUse} {f : ByteFifo} (h : u.Inv size f)
    (hended : f.ended = false) (hready : u.rb.dataInReady = true) : u.rb.getWritePtr ≠ 0 := by
  have hfull := (h.dataIn hended).mp hready
  rw [Ne, h.holds.getWritePtr_eq_zero_iff, ← h.holds.isFull_iff, hfull]
  exact Bool.false_ne_true

/-- `data_out` is ready only while something is offered. -/
theorem RBufferUse.Inv.offers {u : RBufferUse} {f : ByteFifo} (h : u.Inv size f)
    (hready : u.rb.dataOutReady = true) : 0 < u.rb.getReadPtr.1 ∨ u.rb.getReadPtr.2 = true := by
  have hrefines := h.refines
  by_cases hsize : u.rb.getReadPtr.1 = 0
  · have hnil := hrefines.empty.mp hsize
    refine .inr (hrefines.eof.mpr ⟨?_, ?_⟩)
    · exact (hrefines.dataOut.mp hready).resolve_left (not_not.mpr hnil)
    · rw [hrefines.offered, hnil, List.take_nil]
  · exact .inl (Nat.pos_of_ne_zero hsize)

/-- What `deflate` writes comes into the buffer. -/
theorem RBufferUse.Inv.receive {u : RBufferUse} {f : ByteFifo} (h : u.Inv size f)
    {output : List UInt8} (houtput : output.length ≤ u.rb.getWritePtr) :
    ∃ rb mem, u.rb.receive u.mem output false = some (rb, mem) ∧
      ({ u with rb, mem } : RBufferUse).Inv size { f with queue := f.queue ++ output } := by
  have hoff : u.Offered (.write output false) := houtput
  obtain ⟨u', f', hstep, hfifo, hinv⟩ := h.step hoff
  rw [RBufferUse.step, if_pos hoff] at hstep
  obtain ⟨⟨rb, mem⟩, hreceive, rfl⟩ := Option.map_eq_some_iff.mp hstep
  rw [ByteFifo.step] at hfifo
  split_ifs at hfifo
  obtain rfl := Option.some.inj hfifo
  rw [Bool.or_false] at hinv
  exact ⟨rb, mem, hreceive, hinv⟩

/-- What the next stream takes goes out of the buffer. -/
theorem RBufferUse.Inv.take {u : RBufferUse} {f : ByteFifo} (h : u.Inv size f) {n : ℕ}
    (hn : n ≤ u.rb.getReadPtr.1) :
    ∃ rb, u.rb.read n = some rb ∧
      ({ u with rb, out := u.out ++ (u.rb.offered u.mem).take n } : RBufferUse).Inv size
        { f with queue := f.queue.drop n, out := f.out ++ f.queue.take n } := by
  have hoff : u.Offered (.read n) := hn
  obtain ⟨u', f', hstep, hfifo, hinv⟩ := h.step hoff
  rw [RBufferUse.step, if_pos hoff] at hstep
  obtain ⟨rb, hread, rfl⟩ := Option.map_eq_some_iff.mp hstep
  rw [ByteFifo.step] at hfifo
  split_ifs at hfifo
  obtain rfl := Option.some.inj hfifo
  exact ⟨rb, hread, hinv⟩

/-- Of the results that zlib documents, none is unexpected. -/
theorem gzipDeflate_eq {g : GzipFilterData Z} {data mem : List UInt8} {eof : Bool} {rb : RBuffer}
    {r : ZStep Z} (hroom : g.buf.rb.getWritePtr ≠ 0)
    (hr : deflate g.zs (if eof then .finish else .syncFlush) data g.buf.rb.getWritePtr = r)
    (hresult : r.result = .ok ∨ r.result = .streamEnd ∧ eof = true)
    (hreceive : g.buf.rb.receive g.buf.mem r.output false = some (rb, mem)) :
    gzipDeflate deflate g data eof =
      some ({ buf := { g.buf with rb, mem }, zs := r.zs }, r.taken, r.result) := by
  rw [gzipDeflate, if_pos hroom]
  dsimp only
  rw [hr, hreceive]
  obtain hok | ⟨hend, rfl⟩ := hresult
  · rw [hok]
    cases eof <;> simp
  · rw [hend]
    simp

/-- One call of `gzip_data_in_write`. -/
theorem GzipRun.Inv.write_eq {f : ByteFifo} (hz : DeflateSpec deflate inflate zs₀)
    (h : s.Inv deflate inflate zs₀ size body f) {n : ℕ} {eof : Bool}
    (hallowed : s.Allowed (.write n eof)) :
    ∃ filter sent f', gzipDataInWrite deflate s.filter (s.rest.take n) eof = some (filter, sent) ∧
      ({ s with filter, rest := s.rest.drop sent, finishing := s.finishing || eof } :
        GzipRun Z).Inv deflate inflate zs₀ size body f' := by
  obtain ⟨hready, hn, heof, hfinishing⟩ := hallowed
  have hended : f.ended = false := by
    by_contra hended
    have hnot := (h.ended (Bool.not_eq_false _ ▸ hended)).2
    rw [hready] at hnot
    cases hnot
  have hdone : s.done = false := by
    by_contra hdone
    have hend := (h.done (Bool.not_eq_false _ ▸ hdone)).1
    rw [hended] at hend
    cases hend
  have hroom := h.buf.room hended hready
  have hlength : (s.rest.take n).length = n := by rw [List.length_take, min_eq_left hn]
  obtain ⟨input, hdeflated, hbody⟩ := h.compressing hended
  by_cases hsomething : s.rest.take n ≠ [] ∨ eof = true
  swap
  · -- nothing is offered
    rw [not_or, not_not, Bool.not_eq_true] at hsomething
    obtain ⟨hnil, rfl⟩ := hsomething
    refine ⟨s.filter, 0, f, ?_, ?_⟩
    · rw [gzipDataInWrite, if_neg (by simp [hnil])]
      simp
    · rw [Bool.or_false]
      exact ⟨h.buf, fun _ => ⟨input, hdeflated, hbody⟩, h.ended, h.done⟩
  obtain ⟨flush, hflush⟩ : ∃ flush, (if eof then ZFlush.finish else .syncFlush) = flush := ⟨_, rfl⟩
  have hfinish : flush = .finish ↔ eof = true := by
    rw [← hflush]
    cases eof <;> simp
  have hcall : DeflateCall (if s.finishing then some s.rest else none) flush (s.rest.take n)
      s.filter.buf.rb.getWritePtr := by
    refine ⟨Nat.pos_of_ne_zero hroom, hsomething.imp_right hfinish.mpr, fun l hleft => ?_⟩
    split_ifs at hleft with hf
    obtain rfl := Option.some.inj hleft
    exact ⟨hfinish.mpr (hfinishing hf), by rw [heof (hfinishing hf), List.take_length]⟩
  have htaken := hz.taken_le hdeflated hcall
  have hresult := hz.result hdeflated hcall
  have hstreamEnd := hz.streamEnd hdeflated hcall
  have hnext := hdeflated.call hcall
  obtain ⟨r, hr⟩ : ∃ r, deflate s.filter.zs flush (s.rest.take n) s.filter.buf.rb.getWritePtr = r :=
    ⟨_, rfl⟩
  rw [hr] at htaken hresult hstreamEnd hnext
  obtain ⟨rb, mem, hreceive, hbuf⟩ := h.buf.receive htaken.2
  have hdeflate := gzipDeflate_eq hroom (hflush.symm ▸ hr)
    (hresult.imp_right (And.imp_right hfinish.mp)) hreceive
  rw [gzipDataInWrite, if_pos hsomething, hdeflate]
  simp only [Option.bind_eq_bind, Option.bind_some]
  obtain hok | ⟨hend, hflushed⟩ := hresult
  · -- there is more to come
    rw [if_neg (by simp [hok])]
    refine ⟨_, _, _, rfl, hbuf, fun _ => ⟨input ++ s.rest.take r.taken, ?_, ?_⟩, ?_, ?_⟩
    · have hle := htaken.1
      rw [hlength] at hle
      have hnext' := hnext hok
      rw [List.take_take, min_eq_left hle, List.append_assoc] at hnext'
      have hleft : (if flush = .finish then some ((s.rest.take n).drop r.taken) else none) =
          if s.finishing || eof then some (s.rest.drop r.taken) else none := by
        cases heof' : eof with
        | true =>
          rw [if_pos (hfinish.mpr heof'), heof heof', List.take_length, Bool.or_true, if_pos rfl]
        | false =>
          have hf : s.finishing = false := by
            by_contra hf
            rw [hfinishing (Bool.not_eq_false _ ▸ hf)] at heof'
            cases heof'
          rw [if_neg (by simp [hfinish, heof']), hf]
          rfl
      rw [hleft] at hnext'
      exact hnext'
    · rw [List.append_assoc, List.take_append_drop, hbody]
    · intro hend
      rw [hended] at hend
      cases hend
    · intro hd
      rw [hdone] at hd
      cases hd
  · -- the stream has ended
    obtain ⟨hall, hinflate⟩ := hstreamEnd hend
    have heof' := hfinish.mp hflushed
    have htake : s.rest.take n = s.rest := by rw [heof heof', List.take_length]
    rw [if_pos ⟨heof', hall, hend⟩]
    refine ⟨_, _, _, rfl, hbuf.setEof, ?_, fun _ => ⟨?_, rfl⟩, ?_⟩
    · intro hopen
      cases hopen
    · rw [← List.append_assoc, hinflate, htake, hbody]
    · intro hd
      rw [hdone] at hd
      cases hd

/-- One call of `gzip_data_out_do_write`. -/
theorem GzipRun.Inv.send_eq {f : ByteFifo} (h : s.Inv deflate inflate zs₀ size body f) {n : ℕ}
    (hallowed : s.Allowed (.send n)) :
    ∃ filter f', gzipDataOutDoWrite s.filter n = some filter ∧
      ({ s with
        filter
        done := s.done || (s.filter.buf.rb.getReadPtr.2 &&
          decide (n = s.filter.buf.rb.getReadPtr.1)) } : GzipRun Z).Inv
        deflate inflate zs₀ size body f' := by
  obtain ⟨hready, hn⟩ := hallowed
  obtain ⟨rb, hread, hbuf⟩ := h.buf.take hn
  have hqueue : f.out ++ f.queue.take n ++ f.queue.drop n = f.out ++ f.queue := by
    rw [List.append_assoc, List.take_append_drop]
  rw [gzipDataOutDoWrite, if_pos (h.buf.offers hready), hread]
  refine ⟨_, _, rfl, hbuf, ?_, ?_, ?_⟩
  · intro hopen
    obtain ⟨input, hdeflated, hbody⟩ := h.compressing hopen
    exact ⟨input, hqueue.symm ▸ hdeflated, hbody⟩
  · intro hend
    obtain ⟨hinflate, hnot⟩ := h.ended hend
    refine ⟨hqueue.symm ▸ hinflate, ?_⟩
    obtain ⟨-, hzero, hpos⟩ := RBuffer.read_ready hread
    rcases Nat.eq_zero_or_pos n with hn₀ | hn₀
    · rw [hzero hn₀]
      exact hnot
    · by_contra hready'
      have hin := (hpos hn₀).1.mp (Bool.not_eq_false _ ▸ hready')
      rw [hnot, h.buf.ended_eq, hend] at hin
      simp at hin
  · intro hd
    obtain hd | ⟨heof, hall⟩ : s.done = true ∨ s.filter.buf.rb.getReadPtr.2 = true ∧
        n = s.filter.buf.rb.getReadPtr.1 := by
      simpa using hd
    · obtain ⟨hend, hnil⟩ := h.done hd
      exact ⟨hend, by rw [hnil, List.drop_nil]⟩
    · obtain ⟨hend, hoffered⟩ := h.buf.refines.eof.mp heof
      refine ⟨hend, ?_⟩
      rw [h.buf.refines.offered, List.take_eq_self_iff] at hoffered
      rw [hall]
      exact List.drop_of_length_le hoffered

theorem GzipRun.Inv.step {f : ByteFifo} (hz : DeflateSpec deflate inflate zs₀)
    (h : s.Inv deflate inflate zs₀ size body f) {e : GzipEvent} (hallowed : s.Allowed e) :
    ∃ s' f', s.step deflate e = some s' ∧ s'.Inv deflate inflate zs₀ size body f' := by
  unfold GzipRun.step
  rw [if_pos hallowed]
  cases e with
  | write n eof =>
    obtain ⟨filter, sent, f', hwrite, hinv⟩ := h.write_eq hz hallowed
    refine ⟨_, f', ?_, hinv⟩
    simp [hwrite]
  | send n =>
    obtain ⟨filter, f', hsend, hinv⟩ := h.send_eq hallowed
    refine ⟨_, f', ?_, hinv⟩
    simp [hsend]

theorem GzipRun.inv_start {mem : List UInt8} (hmem : 0 < mem.length) :
    (GzipRun.start mem zs₀ body).Inv deflate inflate zs₀ mem.length body {} where
  buf := RBufferUse.inv_init hmem
  compressing _ := ⟨[], .init, rfl⟩
  ended h := by cases h
  done h := by cases h

/-- The body may come in any parts, `deflate` may take what it likes of each, and the next stream
may take what it likes of what it is offered. When that has got the end of the stream, it has got a
compressed form of the whole body. Until then, one end of the filter is ready: if it is the one for
the body, there is room for `deflate`, and if it is the other one, something is offered. No call
fails an assertion. -/
theorem gzipRun_delivers (hz : DeflateSpec deflate inflate zs₀) {mem : List UInt8}
    (hmem : 0 < mem.length) (body : List UInt8) {es : List GzipEvent}
    (hrun : run (GzipRun.step deflate) (GzipRun.start mem zs₀ body) es = some s) :
    (s.done = true → inflate s.filter.buf.out = some body) ∧
      (s.filter.buf.rb.dataInReady = true ∨ s.filter.buf.rb.dataOutReady = true) ∧
      (s.filter.buf.rb.dataInReady = true → s.filter.buf.rb.getWritePtr ≠ 0) ∧
      (s.filter.buf.rb.dataOutReady = true →
        0 < s.filter.buf.rb.getReadPtr.1 ∨ s.filter.buf.rb.getReadPtr.2 = true) ∧
      ∀ e, s.Allowed e → (s.step deflate e).isSome = true := by
  obtain ⟨f, h⟩ := run_inv (I := fun s => ∃ f, s.Inv deflate inflate zs₀ mem.length body f)
    (fun s e s' h hstep => by
      obtain ⟨f, h⟩ := h
      have hallowed : s.Allowed e := by
        by_contra hnot
        unfold GzipRun.step at hstep
        rw [if_neg hnot] at hstep
        cases hstep
      obtain ⟨s₁, f₁, hstep₁, h₁⟩ := h.step hz hallowed
      obtain rfl := Option.some.inj (hstep.symm.trans hstep₁)
      exact ⟨f₁, h₁⟩) ⟨{}, GzipRun.inv_start hmem⟩ hrun
  refine ⟨fun hd => ?_, ?_, fun hready => ?_, h.buf.offers, fun e hallowed => ?_⟩
  · obtain ⟨hend, hnil⟩ := h.done hd
    have hinflate := (h.ended hend).1
    rwa [hnil, List.append_nil, ← h.buf.out_eq] at hinflate
  · by_cases hend : f.ended = true
    · exact .inr (h.buf.refines.dataOut.mpr (.inr hend))
    · by_cases hfull : f.queue.length = mem.length
      · refine .inr (h.buf.refines.dataOut.mpr (.inl ?_))
        exact List.ne_nil_of_length_pos (hfull ▸ hmem)
      · exact .inl ((h.buf.refines.dataIn (Bool.eq_false_iff.mpr hend)).mpr hfull)
  · refine h.buf.room ?_ hready
    by_contra hend
    have hnot := (h.ended (Bool.not_eq_false _ ▸ hend)).2
    rw [hready] at hnot
    cases hnot
  · obtain ⟨s', f', hstep, -⟩ := h.step hz hallowed
    rw [hstep]
    rfl

end Run

/-! ### A body of one byte -/

/-- What zlib makes of `a`. -/
def gzipOfLetter : List UInt8 :=
  [0x1f, 0x8b, 8, 0, 0, 0, 0, 0, 0, 3, 0x4b, 4, 0, 0x43, 0xbe, 0xb7, 0xe8, 1, 0, 0, 0]

/-- A compression that knows this body only. All others are stored behind a zero. -/
def gzipLetter (input : List UInt8) : List UInt8 :=
  if input = bytes "a" then gzipOfLetter else 0 :: input

def gunzipLetter : List UInt8 → Option (List UInt8)
  | 0 :: input => some input
  | output => if output = gzipOfLetter then some (bytes "a") else none

theorem gunzipLetter_gzipLetter (input : List UInt8) :
    gunzipLetter (gzipLetter input) = some input := by
  rw [gzipLetter]
  split_ifs with h
  · rw [h]
    rfl
  · rfl

/-- All input is taken at once, and the output made of it when that is complete. The state is the
input, and how much of the output has been written. -/
def deflateLetter : Deflate (List UInt8 × ℕ) := fun zs flush data room =>
  let input := zs.1 ++ data
  match flush with
  | .syncFlush => { zs := (input, zs.2), taken := data.length, output := [], result := .ok }
  | .finish =>
    let output := ((gzipLetter input).drop zs.2).take room
    { zs := (input, zs.2 + output.length), taken := data.length, output
      result := if zs.2 + output.length = (gzipLetter input).length then .streamEnd else .ok }

/-- What has been written is continued. -/
theorem deflateLetter_prefix {input output data : List UInt8} {left : Option (List UInt8)}
    {room : ℕ} (hcall : DeflateCall left .finish data room) (houtput : output <+: gzipLetter input)
    (hnone : left = none → output = []) (hsome : ∀ l, left = some l → l = []) :
    output ++ ((gzipLetter (input ++ data)).drop output.length).take room <+:
      gzipLetter (input ++ data) := by
  have hall : output <+: gzipLetter (input ++ data) := by
    cases hleft : left with
    | none =>
      rw [hnone hleft]
      exact List.nil_prefix
    | some l =>
      rw [(hcall.finish l hleft).2, hsome l hleft, List.append_nil]
      exact houtput
  obtain ⟨behind, hbehind⟩ := hall
  rw [← hbehind, List.drop_left]
  exact List.prefix_append_right_inj output |>.mpr (List.take_prefix room behind)

theorem deflateLetter_deflated {zs : List UInt8 × ℕ} {input output : List UInt8}
    {left : Option (List UInt8)} (h : Deflated deflateLetter ([], 0) zs input output left) :
    zs.1 = input ∧ zs.2 = output.length ∧ output <+: gzipLetter input ∧
      (left = none → output = []) ∧ ∀ l, left = some l → l = [] := by
  induction h with
  | init => simp
  | @call zs input output left flush data room h hcall hresult ih =>
    obtain ⟨hinput, hcount, houtput, hnone, hsome⟩ := ih
    cases flush with
    | syncFlush =>
      have hleft : left = none := by
        by_contra hne
        obtain ⟨l, hl⟩ := Option.ne_none_iff_exists'.mp hne
        cases (hcall.finish l hl).1
      simp [deflateLetter, hinput, hcount, hnone hleft]
    | finish =>
      refine ⟨by simp [deflateLetter, hinput], by simp [deflateLetter, hinput, hcount], ?_, by simp,
        by simp [deflateLetter]⟩
      simp only [deflateLetter, hinput, hcount, List.take_length]
      exact deflateLetter_prefix hcall houtput hnone hsome

theorem deflateLetter_spec : DeflateSpec deflateLetter gunzipLetter ([], 0) where
  taken_le := by
    intro zs input output left flush data room h hcall
    cases flush with
    | syncFlush => simp [deflateLetter]
    | finish => exact ⟨le_rfl, List.length_take_le _ _⟩
  result := by
    intro zs input output left flush data room h hcall
    cases flush with
    | syncFlush => exact .inl rfl
    | finish =>
      simp only [deflateLetter]
      split_ifs
      · exact .inr ⟨rfl, trivial⟩
      · exact .inl rfl
  streamEnd := by
    intro zs input output left flush data room h hcall hend
    obtain ⟨hinput, hcount, houtput, hnone, hsome⟩ := deflateLetter_deflated h
    cases flush with
    | syncFlush => cases hend
    | finish =>
      have hwhole := deflateLetter_prefix hcall houtput hnone hsome
      simp only [deflateLetter, hinput, hcount] at hend ⊢
      split_ifs at hend with hlength
      refine ⟨trivial, ?_⟩
      rw [hwhole.eq_of_length (by rw [List.length_append, hlength]), gunzipLetter_gzipLetter]

/-- The body is written at once. The output does not fit into the buffer. -/
theorem gzipRun_delivers_letter :
    ∃ s, run (GzipRun.step deflateLetter) (GzipRun.start (List.replicate 16 0) ([], 0) (bytes "a"))
        [.write 1 true, .send 16, .write 0 true, .send 5] = some s ∧
      s.done = true ∧ s.filter.buf.out = gzipOfLetter ∧
      (s.done = true → gunzipLetter s.filter.buf.out = some (bytes "a")) := by
  obtain ⟨s, hrun, hdone, hout⟩ : ∃ s, run (GzipRun.step deflateLetter)
      (GzipRun.start (List.replicate 16 0) ([], 0) (bytes "a"))
        [.write 1 true, .send 16, .write 0 true, .send 5] = some s ∧
      s.done = true ∧ s.filter.buf.out = gzipOfLetter := ⟨_, rfl, rfl, rfl⟩
  exact ⟨s, hrun, hdone, hout,
    (gzipRun_delivers deflateLetter_spec (by simp) (bytes "a") hrun).1⟩

end Nxweb
