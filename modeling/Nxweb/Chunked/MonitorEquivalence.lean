import Nxweb.Chunked.Monitor
import Nxweb.Chunked.SizeLine

/-!
# Monitoring follows the chunks as decoding does

The proxy forwards a chunked body as it is and lets the decoder run along in monitoring mode. On the
same buffers both modes return the same codes and go through the same states, the buffers stay as
they are in monitoring mode, and every call stops with the same number of bytes unread
(`decodeBuffers_monitor`). The two loops are related by what they have not read yet
(`decodeUnread_eq`): in decoding mode the buffer moves under the cursor, in monitoring mode the
cursor moves over the buffer.
-/

namespace Nxweb

/-! ### Where a call stops -/

/-- The number of bytes from the read cursor on when the loop returns. -/
def decodeUnread : ℕ → DecodeFrame → Option ℤ
  | 0, _ => none
  | fuel + 1, f =>
    match decodeIter f with
    | .next f => decodeUnread fuel f
    | .ret _ => some (f.bufEnd - f.p)
    | .fault => none

/-- Where the calls of `decodeBuffers` stop. -/
def unreadBuffers (ds : ChunkedDecoderState) : List (List UInt8) → Option (List ℤ)
  | [] => some []
  | buf :: bufs => do
    let r ← decodeChunkedStream ds buf
    let u ← decodeUnread (2 * buf.length + 2) (.enter ds buf)
    let us ← unreadBuffers r.ds bufs
    return u :: us

theorem decodeUnread_of_next {f f' : DecodeFrame} (h : decodeIter f = .next f') (fuel : ℕ) :
    decodeUnread (fuel + 1) f = decodeUnread fuel f' := by
  rw [decodeUnread, h]

theorem decodeUnread_of_ret {f : DecodeFrame} {r : DecodeResult} (h : decodeIter f = .ret r)
    (fuel : ℕ) : decodeUnread (fuel + 1) f = some (f.bufEnd - f.p) := by
  rw [decodeUnread, h]

theorem View.unread {f : DecodeFrame} {out rest : List UInt8} (hv : View f out rest) :
    f.bufEnd - f.p = rest.length := by
  have hend := hv.bufEnd_eq
  omega

theorem MonitorView.unread {buf : List UInt8} {f : DecodeFrame} {out rest : List UInt8}
    (hv : MonitorView buf f out rest) : f.bufEnd - f.p = rest.length := by
  obtain ⟨before, hbuf, hp⟩ := hv.layout
  rw [hv.bufEnd_eq, hp, hbuf, List.length_append]
  push_cast
  ring

/-- Loops that have the same bytes to read stop at the same one. -/
theorem decodeUnread_eq {buf : List UInt8} {fuel : ℕ} {f g : DecodeFrame} {out rest : List UInt8}
    (hf : MonitorView buf f out rest) (hg : View g out rest) (hds : f.ds = g.ds.setMode true)
    (hfit : SizesFit g.ds rest)
    (hfuel : 2 * rest.length + (if g.ds.state = .data then 1 else 0) < fuel) :
    ∃ u, decodeUnread fuel f = some u ∧ decodeUnread fuel g = some u := by
  -- the views are those of the same bytes in each iteration, so both loops go on or both stop
  have hsame : f.bufEnd - f.p = g.bufEnd - g.p := hf.unread.trans hg.unread.symm
  induction fuel generalizing f g out rest with
  | zero => omega
  | succ fuel ih =>
    have hstop : ∀ {r r'}, decodeIter f = .ret r → decodeIter g = .ret r' →
        ∃ u, decodeUnread (fuel + 1) f = some u ∧ decodeUnread (fuel + 1) g = some u :=
      fun hr hr' => ⟨_, decodeUnread_of_ret hr fuel, hsame ▸ decodeUnread_of_ret hr' fuel⟩
    have hgo : ∀ {f' g' out' rest'}, decodeIter f = .next f' → decodeIter g = .next g' →
        MonitorView buf f' out' rest' → View g' out' rest' → f'.ds = g'.ds.setMode true →
        SizesFit g'.ds rest' →
        2 * rest'.length + (if g'.ds.state = .data then 1 else 0) < fuel →
        ∃ u, decodeUnread (fuel + 1) f = some u ∧ decodeUnread (fuel + 1) g = some u := by
      intro f' g' out' rest' hf' hg' hvf hvg hds' hfit' hfuel'
      rw [decodeUnread_of_next hf', decodeUnread_of_next hg']
      exact ih hvf hvg hds' hfit' hfuel' (hvf.unread.trans hvg.unread.symm)
    have hstate : f.ds.state = g.ds.state := by rw [hds]; rfl
    have hleft : f.ds.chunkBytesLeft = g.ds.chunkBytesLeft := by rw [hds]; rfl
    cases rest with
    | nil =>
      obtain ⟨r, hr, -⟩ := (iterSpec_monitorView buf).nil hf
      obtain ⟨r', hr', -⟩ := iterSpec_view.nil hg
      exact hstop hr hr'
    | cons c rest =>
      by_cases hst : g.ds.state = .data
      · rcases lt_or_ge ((c :: rest).length : ℤ) g.ds.chunkBytesLeft with hlt | hge
        · obtain ⟨r, hr, -⟩ := monitorIter_data_lt hf (hstate.trans hst) (hleft ▸ hlt)
          obtain ⟨r', hr', -⟩ := decodeIter_data_lt hg hst hlt
          exact hstop hr hr'
        · obtain ⟨xs, ys, hsplit, hlen⟩ := exists_chunk_end hfit.nonneg hge
          have hne : xs ++ ys ≠ [] := by rw [← hsplit]; simp
          rw [hsplit] at hf hg hfit hfuel
          obtain ⟨f', hf', hvf, hdsf⟩ :=
            monitorIter_data_ge hf hne (hstate.trans hst) (hleft.trans hlen)
          obtain ⟨g', hg', hvg, hdsg⟩ := decodeIter_data_ge hg hne hst hlen
          obtain ⟨-, hfit'⟩ := feed_data_ge hst hlen hne hfit
          refine hgo hf' hg' hvf hvg (by rw [hdsf, hdsg, hds]; rfl) (hdsg ▸ hfit') ?_
          rw [List.length_append, if_pos hst] at hfuel
          rw [hdsg, if_neg (by simp)]
          omega
      · have hbyte := monitorIter_byte hf (hstate ▸ hst)
        have hbyte' := decodeIter_byte hg hst
        rw [hds, byteStep_setMode] at hbyte
        cases hstep : byteStep g.ds c with
        | more ds' o =>
          rw [hstep] at hbyte hbyte'
          obtain ⟨f', hf', hvf, hdsf⟩ := hbyte
          obtain ⟨g', hg', hvg, hdsg⟩ := hbyte'
          refine hgo hf' hg' hvf hvg (hdsg ▸ hdsf) (hdsg ▸ hfit.of_more hstep) ?_
          rw [List.length_cons, if_neg hst] at hfuel
          split <;> omega
        | error ds' =>
          rw [hstep] at hbyte hbyte'
          obtain ⟨r, hr, -⟩ := hbyte
          obtain ⟨r', hr', -⟩ := hbyte'
          exact hstop hr hr'
        | done ds' =>
          rw [hstep] at hbyte hbyte'
          obtain ⟨r, hr, -⟩ := hbyte
          obtain ⟨r', hr', -⟩ := hbyte'
          exact hstop hr hr'

/-! ### One call -/

/-- In monitoring mode the buffer and its length stay as they are, whatever the call returns. -/
theorem decodeLoop_untouched {fuel : ℕ} {f : DecodeFrame} {r : DecodeResult}
    (hmon : f.ds.monitorOnly = true) (h : decodeLoop fuel f = some r) :
    r.buf = f.buf ∧ r.bufLen = f.bufLen := by
  induction fuel generalizing f with
  | zero => cases h
  | succ fuel ih =>
    rw [decodeLoop] at h
    cases hiter : decodeIter f with
    | next f' =>
      rw [hiter] at h
      obtain ⟨-, hlen, hmode, ⟨hbuf, -⟩ | ⟨hdec, -⟩⟩ := decodeIter_next hiter
      · obtain ⟨hbuf', hlen'⟩ := ih (hmode.trans hmon) h
        exact ⟨hbuf'.trans hbuf, hlen'.trans hlen⟩
      · rw [hmon] at hdec
        cases hdec
    | ret r' =>
      rw [hiter] at h
      obtain rfl := Option.some.inj h
      obtain ⟨hbuf, hlen | ⟨hdec, -⟩⟩ := decodeIter_ret hiter
      · exact ⟨hbuf, hlen⟩
      · rw [hmon] at hdec
        cases hdec
    | fault =>
      rw [hiter] at h
      cases h

/-- What the two modes have in common, in two calls. -/
structure SameCall (m r : DecodeResult) : Prop where
  code_eq : m.code = r.code
  ds_eq : m.ds = r.ds.setMode true

/-- A call in monitoring mode does what the call in decoding mode does to the state, and nothing
to the buffer. -/
theorem decodeChunkedStream_sameCall {ds : ChunkedDecoderState} (hmon : ds.monitorOnly = false)
    {buf : List UInt8} (hfit : SizesFit ds buf) :
    ∃ m r u, decodeChunkedStream (ds.setMode true) buf = some m ∧
      decodeChunkedStream ds buf = some r ∧ SameCall m r ∧ m.buf = buf ∧ m.bufLen = buf.length ∧
      r.ds = (feed ds buf).ds ∧ r.ds.monitorOnly = false ∧
      decodeUnread (2 * buf.length + 2) (.enter (ds.setMode true) buf) = some u ∧
      decodeUnread (2 * buf.length + 2) (.enter ds buf) = some u := by
  obtain ⟨m, hm, hmcode, hmds, -⟩ :=
    @decodeChunkedStream_monitor (ds.setMode true) rfl buf ((sizesFit_setMode true).mpr hfit)
  obtain ⟨r, hr, hrcode, hrds, -⟩ := decodeChunkedStream_eq_feed hmon hfit
  obtain ⟨u, hu, hu'⟩ := @decodeUnread_eq buf (2 * buf.length + 2) (.enter (ds.setMode true) buf)
    (.enter ds buf) [] buf ⟨rfl, rfl, rfl, rfl, [], rfl, rfl⟩ (View.enter hmon buf) rfl hfit
    (by split <;> omega)
  obtain ⟨hbuf, hlen⟩ := decodeLoop_untouched rfl hm
  rw [feed_setMode] at hmcode hmds
  have hmode : ds.setMode false = ds := by
    cases ds
    cases hmon
    rfl
  have hfeed := feed_setMode ds false buf
  rw [hmode] at hfeed
  refine ⟨m, r, u, hm, hr, ⟨hmcode.trans hrcode.symm, hmds.trans (by rw [hrds])⟩, hbuf, hlen,
    hrds, ?_, hu, hu'⟩
  rw [hrds, hfeed]
  rfl

/-! ### Consecutive buffers -/

/-- The sizes are in range on every buffer. A call that ends before its buffer does leaves the rest
of the buffer out. -/
def SizesInRangeBuffers : ChunkPos → List (List UInt8) → Prop
  | _, [] => True
  | pos, buf :: bufs => SizesInRange pos buf ∧ SizesInRangeBuffers (pos.after buf) bufs

theorem decodeBuffers_monitor_from {ds : ChunkedDecoderState} (hmon : ds.monitorOnly = false)
    {pos : ChunkPos} (hpos : pos.Matches ds) {bufs : List (List UInt8)}
    (hsizes : SizesInRangeBuffers pos bufs) :
    ∃ ms rs us, decodeBuffers (ds.setMode true) bufs = some ms ∧
      decodeBuffers ds bufs = some rs ∧ List.Forall₂ SameCall ms rs ∧
      List.Forall₂ (fun m buf => m.buf = buf ∧ m.bufLen = buf.length) ms bufs ∧
      unreadBuffers (ds.setMode true) bufs = some us ∧ unreadBuffers ds bufs = some us := by
  induction bufs generalizing ds pos with
  | nil => exact ⟨[], [], [], rfl, rfl, .nil, .nil, rfl, rfl⟩
  | cons buf bufs ih =>
    obtain ⟨hfit, hafter⟩ := hpos.sizesFit hsizes.1
    obtain ⟨m, r, u, hm, hr, hsame, hbuf, hlen, hds, hmode, hu, hu'⟩ :=
      decodeChunkedStream_sameCall hmon hfit
    obtain ⟨ms, rs, us, hms, hrs, hall, hbufs, hus, hus'⟩ := ih hmode (hds ▸ hafter) hsizes.2
    rw [← hsame.ds_eq] at hms hus
    refine ⟨m :: ms, r :: rs, u :: us, ?_, ?_, .cons hsame hall, .cons ⟨hbuf, hlen⟩ hbufs, ?_, ?_⟩
    · rw [decodeBuffers_cons hm, hms]
      rfl
    · rw [decodeBuffers_cons hr, hrs]
      rfl
    · simp [unreadBuffers, hm, hu, hus]
    · simp [unreadBuffers, hr, hu', hus']

/-- On these buffers both modes return the same, go through the same states and stop at the same
bytes, and the buffers and their lengths stay as they are in monitoring mode. -/
def MonitorsAsDecoding (bufs : List (List UInt8)) : Prop :=
  ∃ ms rs us, decodeBuffers (ChunkedDecoderState.zero.setMode true) bufs = some ms ∧
    decodeBuffers .zero bufs = some rs ∧ List.Forall₂ SameCall ms rs ∧
    List.Forall₂ (fun m buf => m.buf = buf ∧ m.bufLen = buf.length) ms bufs ∧
    unreadBuffers (ChunkedDecoderState.zero.setMode true) bufs = some us ∧
    unreadBuffers .zero bufs = some us

/-- Whatever the buffers hold, and whatever the calls return, monitoring follows the chunks as
decoding does and stops at the same bytes, and it leaves the buffers alone. -/
theorem decodeBuffers_monitor {bufs : List (List UInt8)}
    (hsizes : SizesInRangeBuffers (.size []) bufs) : MonitorsAsDecoding bufs :=
  decodeBuffers_monitor_from rfl (ChunkPos.matches_zero false) hsizes

end Nxweb
