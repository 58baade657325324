import Nxweb.ServerProto.RequestMessage

/-!
# What has been taken of a request body

The bytes that are taken from a connection behind a header block are the body of the request, or a
part of it, or the body and what the client has sent after it. `Consumed` says that they are not a
proper part of a body that the headers announce, so that whatever is read next lies behind the
body. This does not depend on how the body goes on: it is said of the bytes taken alone.

While a body is being received, the request record follows what has been taken (`Followed`), and a
read in order follows on, or has consumed the body when it completes it (`Followed.read`).
-/

namespace Nxweb

/-- The headers announce the body. -/
def RequestBody.Announced (b : RequestBody) (req : HttpRequest) : Prop :=
  match b with
  | .sized data _ => req.chunkedEncoding = false ∧ req.contentLength = data.length
  | .chunked _ => req.chunkedEncoding = true ∧ req.contentLength = -1

/-- The bytes taken behind the header block are not a proper part of a body that the headers
announce: wherever the body ends, it has been taken. -/
def Consumed (req : HttpRequest) (taken : List UInt8) : Prop :=
  ∀ b : RequestBody, b.Announced req → taken <+: b.wire → taken = b.wire

/-- The framing of a body, apart from the mode of the decoder. -/
structure SameBody (req req' : HttpRequest) : Prop where
  chunkedEncoding_eq : req'.chunkedEncoding = req.chunkedEncoding
  contentLength_eq : req'.contentLength = req.contentLength
  contentReceived_eq : req'.contentReceived = req.contentReceived
  complete_eq : req'.chunkedContentComplete = req.chunkedContentComplete
  cdstate_eq : ∃ mode, req'.cdstate = req.cdstate.setMode mode

theorem SameBody.refl (req : HttpRequest) : SameBody req req := ⟨rfl, rfl, rfl, rfl, _, rfl⟩

theorem announced_congr {b : RequestBody} {req req' : HttpRequest}
    (hch : req'.chunkedEncoding = req.chunkedEncoding)
    (hlen : req'.contentLength = req.contentLength) : b.Announced req' ↔ b.Announced req := by
  unfold RequestBody.Announced
  rw [hch, hlen]

theorem Consumed.congr {req req' : HttpRequest} {taken : List UInt8} (h : Consumed req taken)
    (hch : req'.chunkedEncoding = req.chunkedEncoding)
    (hlen : req'.contentLength = req.contentLength) : Consumed req' taken :=
  fun b hb => h b ((announced_congr hch hlen).mp hb)

/-- Without a body there is nothing to consume. -/
theorem consumed_of_length_zero {req : HttpRequest} (h : req.contentLength = 0)
    (taken : List UInt8) : Consumed req taken := by
  intro b hb
  cases b with
  | sized data hne =>
    have hpos : 0 < data.length := List.length_pos_iff.mpr hne
    have hlen := hb.2
    omega
  | chunked m =>
    have hlen := hb.2
    omega

/-- The request record has followed what was taken, as far as that is part of a body. -/
structure Followed (hsp : Hsp) (taken : List UInt8) : Prop where
  more : hsp.req.isRequestBodyComplete = false
  body : ∀ b : RequestBody, b.Announced hsp.req → taken <+: b.wire → taken ≠ b.wire →
    ∃ fed out, taken = fed ++ hsp.firstBodyChunk ∧
      Receiving b hsp.req.cdstate.monitorOnly hsp.req fed out

/-- Nothing but the mode of the decoder matters. -/
theorem Followed.congr {hsp hsp' : Hsp} {taken : List UInt8} (h : Followed hsp taken)
    (hreq : SameBody hsp.req hsp'.req) (hchunk : hsp'.firstBodyChunk = hsp.firstBodyChunk) :
    Followed hsp' taken := by
  obtain ⟨hch, hlen, hcount, hdone, mode, hcd⟩ := hreq
  refine ⟨?_, fun b hb hpre hne => ?_⟩
  · have hmore := h.more
    simp only [HttpRequest.isRequestBodyComplete] at hmore ⊢
    rw [hlen, hcount, hdone]
    exact hmore
  · obtain ⟨fed, out, htaken, hrecv⟩ := h.body b ((announced_congr hch hlen).mp hb) hpre hne
    obtain ⟨out', hmore, hlt, hframing⟩ := hrecv.setMode mode
    refine ⟨fed, out', by rw [hchunk]; exact htaken, ?_⟩
    have hmode : hsp'.req.cdstate.monitorOnly = mode := by rw [hcd]; rfl
    rw [hmode]
    refine ⟨hdone.trans hmore, hlt, ?_⟩
    rw [hch, hlen, hcount, hcd]
    exact hframing

/-- A request whose headers have been read has followed the bytes read after them. -/
theorem requestReceived_followed (hsp : Hsp) (head : RequestHead) (rest : List UInt8) :
    Followed (hsp.requestReceived head.request rest) rest := by
  obtain ⟨hreq, hchunk, -, -⟩ := requestReceived_fresh hsp head rest
  generalize hsp.requestReceived head.request rest = hsp' at hreq hchunk ⊢
  refine ⟨?_, fun b hb _ _ => ⟨[], [], hchunk.symm, ?_⟩⟩
  · rw [hreq]
    simp [HttpRequest.isRequestBodyComplete, RequestHead.request]
  · rw [hreq] at hb ⊢
    cases b with
    | sized data hne => exact ⟨rfl, List.length_pos_iff.mpr hne, hb.1, hb.2, rfl, rfl⟩
    | chunked m =>
      exact ⟨rfl, List.length_pos_iff.mpr m.wire_ne_nil, hb.1, hb.2, rfl, [], .nil le_rfl, rfl⟩

/-- A read of a chunked body that is decoded does not go to the socket in front of bytes of the
first chunk. -/
def Hsp.InOrder (hsp : Hsp) (sock : Socket) (size avail : ℕ) : Prop :=
  hsp.req.chunkedEncoding = true → hsp.req.cdstate.monitorOnly = false →
    size < hsp.firstBodyChunk.length → sock.arrived avail = []

theorem Hsp.InOrder.of_announced {hsp : Hsp} {sock : Socket} {size avail : ℕ} {b : RequestBody}
    (h : hsp.InOrder sock size avail) (hb : b.Announced hsp.req) :
    Nxweb.InOrder b hsp.req.cdstate.monitorOnly hsp sock size avail := by
  intro hverb hsize
  cases b with
  | sized data hne => exact absurd trivial hverb
  | chunked m => exact h hb.1 (by simpa [RequestBody.Verbatim] using hverb) hsize

/-- A proper part of a body has only proper parts of it in front. -/
theorem proper_prefix_of_append {taken more wire : List UInt8} (hpre : taken ++ more <+: wire)
    (hne : taken ++ more ≠ wire) : taken <+: wire ∧ taken ≠ wire := by
  refine ⟨(List.prefix_append taken more).trans hpre, ?_⟩
  rintro rfl
  have hle := hpre.length_le
  rw [List.length_append] at hle
  have hnil : more = [] := List.length_eq_zero_iff.mp (by omega)
  exact hne (by rw [hnil, List.append_nil])

/-- A read in order follows what it takes, and has consumed the body when it completes it. -/
theorem Followed.read {hsp : Hsp} {sock : Socket} {taken : List UInt8} {size avail : ℕ}
    {r : BodyRead} (h : Followed hsp taken) (hst : hsp.state = .receivingBody)
    (hord : hsp.InOrder sock size avail)
    (hread : hsp.reqBodyOutRead (some sock) size avail = some r) {got : List UInt8}
    (hgot : sock.incoming = got ++ (r.sock.getD sock).incoming) :
    r.hsp.state = .receivingBody ∧ Followed r.hsp (taken ++ got) ∨
      r.hsp.state = .handling ∧ Consumed r.hsp.req (taken ++ got) := by
  have hcases := reqBodyOutRead_cases hst h.more hread
  have hcounts := hcases.counts
  obtain ⟨errs, -, hout⟩ := hcases.exists_outcome
  -- what the read does to a body of which it has taken a proper part
  have hbody : ∀ b : RequestBody, b.Announced r.hsp.req → taken ++ got <+: b.wire →
      taken ++ got ≠ b.wire → r.hsp.req.isRequestBodyComplete = false ∧
        ∃ fed out, taken ++ got = fed ++ r.hsp.firstBodyChunk ∧
          Receiving b r.hsp.req.cdstate.monitorOnly r.hsp.req fed out := by
    intro b hb hpre hne
    have hb' := (announced_congr hcounts.chunkedEncoding_eq hcounts.contentLength_eq).mp hb
    obtain ⟨hpre₀, hne₀⟩ := proper_prefix_of_append hpre hne
    obtain ⟨fed, out, rfl, hrecv⟩ := h.body b hb' hpre₀ hne₀
    have hlt := lt_of_le_of_ne hpre.length_le fun heq => hne (hpre.eq_of_length heq)
    obtain ⟨rest, hrest⟩ := hpre
    have hwire : fed ++ hsp.firstBodyChunk ++ got ++ rest = b.wire ++ [] := by
      rw [List.append_nil]
      exact hrest
    obtain ⟨fed', hfed', hleaves⟩ := hrecv.read hst (hord.of_announced hb') hread hgot hwire
    rcases hleaves with ⟨-, -, hreq⟩ | ⟨-, -, hreq⟩
    · refine ⟨hreq.incomplete, fed ++ fed', out ++ r.data, hfed'.symm, ?_⟩
      cases b with
      | sized data hne => exact ⟨hreq.more, hreq.fed_lt, hreq.framing⟩
      | chunked m =>
        have hmode := hreq.framing.2.2.1
        rw [hmode]
        exact hreq
    · -- the body cannot be complete before its last byte has been taken
      refine absurd hreq.fed_ge (not_le.mpr ?_)
      have hlen : (fed ++ fed').length ≤ (fed ++ hsp.firstBodyChunk ++ got).length := by
        rw [← hfed']
        simp
      omega
  cases hdone : r.hsp.req.isRequestBodyComplete with
  | false =>
    refine .inl ⟨hout.receiving_iff.mpr hdone, hdone, fun b hb hpre hne => ?_⟩
    exact (hbody b hb hpre hne).2
  | true =>
    refine .inr ⟨hout.handling_iff.mpr hdone, fun b hb hpre => ?_⟩
    by_contra hne
    have hmore := (hbody b hb hpre hne).1
    simp [hdone] at hmore

end Nxweb
