import Nxweb.ClientProto.Delivery

/-!
# Framing of a response body by its length

The bytes returned to the consumer of a response with `Content-Length` should be exactly that many
bytes after the header block. A read does not stop at the end of the body, and when the whole body
has come in with the headers, the first read is also the last one. The framing is kept if and only
if no read reaches beyond the end of the body, and every read that is the last one reaches the end
(`delivery_framed_iff`).
-/

namespace Nxweb

open Lib

/-- The response has a body of known length. -/
def HttpResponse.Sized (resp : HttpResponse) : Prop :=
  resp.chunkedEncoding = false ∧ 0 ≤ resp.contentLength

/-- Of a body of known length, a part from its beginning on has been delivered, and the whole body
once its end was signalled; nothing else was delivered. -/
def FramedByLength (stream : List UInt8) (s : Delivery) : Prop :=
  s.Responding → s.hcp.resp.Sized →
    let body := (bytesAfterHeaders stream).take s.hcp.resp.contentLength.toNat
    s.delivered <+: body ∧
      (s.eof = true → s.delivered = body ∧ body.length = s.hcp.resp.contentLength.toNat)

/-- The read stays inside the body, and does not come to the end too early. -/
def FitsLength (s : Delivery) : DeliveryEvent → Prop
  | .read size avail =>
    s.hcp.state = .receivingBody → s.hcp.resp.Sized →
      let missing := s.hcp.resp.contentLength.toNat - s.hcp.resp.contentReceived
      let taken := (s.hcp.readPart s.sock size (s.arrivedBytes avail)).length
      taken ≤ missing ∧
        (s.hcp.responseBodyComplete = true →
          s.hcp.SignalsEof s.sock size (s.arrivedBytes avail) → taken = missing)
  | _ => True

/-- The framing after a read, in terms of lengths. -/
theorem framed_read_iff {stream : List UInt8} {s : Delivery} {size avail : ℕ} {r : RespRead}
    (hinv : s.Inv stream) (hframed : FramedByLength stream s)
    (hst : s.hcp.state = .receivingBody) (hplain : s.hcp.resp.chunkedEncoding = false)
    (hread : PlainRead s.hcp s.sock size (s.arrivedBytes avail) r) :
    FramedByLength stream (s.afterRead r) ↔ FitsLength s (.read size avail) := by
  obtain ⟨hbytes, hcount⟩ := hinv.body hst hplain
  obtain ⟨heof, -⟩ := hinv.early (hinv.not_complete (by simp [hst]))
  have hresp : (s.afterRead r).hcp.resp.contentLength = s.hcp.resp.contentLength := by
    show r.hcp.resp.contentLength = _
    rw [hread.resp_eq]
  have hsized : (s.afterRead r).hcp.resp.Sized ↔ s.hcp.resp.Sized := by
    show r.hcp.resp.Sized ↔ _
    rw [hread.resp_eq]
    rfl
  have hpre : s.delivered ++ r.data <+: bytesAfterHeaders stream := by
    rw [← hbytes]
    exact hread.data_prefix s.delivered
  simp only [FramedByLength, FitsLength, hsized, hresp, hread.responding, hst, true_implies]
  refine forall_congr' fun hsz => ?_
  obtain ⟨n, hn⟩ := Int.eq_ofNat_of_zero_le hsz.2
  have hle : s.delivered.length ≤ n := by
    have hpre := (hframed (.inl hst) hsz).1
    rw [hn, Int.toNat_natCast, List.prefix_take_iff] at hpre
    exact hpre.2
  rw [hn, Int.toNat_natCast, hcount]
  show (s.delivered ++ r.data <+: (bytesAfterHeaders stream).take n ∧
    ((s.eof || r.eof) = true → s.delivered ++ r.data = (bytesAfterHeaders stream).take n ∧
      ((bytesAfterHeaders stream).take n).length = n)) ↔ _
  rw [heof, Bool.false_or, hread.eof_iff, List.prefix_take_iff, List.length_append,
    ← hread.data_eq]
  have hsignals : s.hcp.SignalsEof s.sock size (s.arrivedBytes avail) →
      s.hcp.responseBodyComplete = false → n ≤ s.delivered.length + r.data.length := by
    rintro (hends | ⟨-, hrbc | ⟨hcl, -⟩⟩) hno
    · rw [Hcp.endsWithChunk, hno, Bool.and_false] at hends
      cases hends
    · rw [hno] at hrbc
      cases hrbc
    · rw [hn, hcount, ← hread.data_eq] at hcl
      omega
  constructor
  · rintro ⟨⟨-, hfits⟩, hend⟩
    refine ⟨by omega, fun _ hsig => ?_⟩
    obtain ⟨heq, hlen⟩ := hend hsig
    rw [← heq, List.length_append] at hlen
    omega
  · rintro ⟨hfits, hend⟩
    refine ⟨⟨hpre, by omega⟩, fun hsig => ?_⟩
    -- the end is signalled because the count has reached the length, or it must have done so
    have hall : (s.delivered ++ r.data).length = n := by
      rw [List.length_append]
      cases hrbc : s.hcp.responseBodyComplete with
      | true =>
        have := hend hrbc hsig
        omega
      | false =>
        have := hsignals hsig hrbc
        omega
    have heq : s.delivered ++ r.data = (bytesAfterHeaders stream).take n := by
      rw [← hall]
      exact List.prefix_iff_eq_take.mp hpre
    exact ⟨heq, by rw [← heq, hall]⟩

theorem framedByLength_iff_holds (stream : List UInt8) (s : Delivery) :
    FramedByLength stream s ↔ s.Holds fun resp delivered eof => 0 ≤ resp.contentLength →
      let body := (bytesAfterHeaders stream).take resp.contentLength.toNat
      delivered <+: body ∧
        (eof = true → delivered = body ∧ body.length = resp.contentLength.toNat) := by
  simp only [FramedByLength, Delivery.Holds, HttpResponse.Sized, and_imp]

/-- One event keeps the framing if and only if it is not a read that breaks it. -/
theorem framed_step {env : ClientEnv} {stream : List UInt8} (s : Delivery) (e : DeliveryEvent)
    (s' : Delivery) (hI : s.Inv stream ∧ FramedByLength stream s)
    (hstep : s.step env e = some s') :
    (FramedByLength stream s' ↔ FitsLength s e) ∧
      (FramedByLength stream s' → s'.Inv stream ∧ FramedByLength stream s') := by
  obtain ⟨hinv, hframed⟩ := hI
  obtain ⟨hinv', hcases⟩ := delivery_step hinv hstep
  refine ⟨?_, fun h => ⟨hinv', h⟩⟩
  rw [framedByLength_iff_holds]
  refine hcases.holds_iff hinv ((framedByLength_iff_holds stream s).mp hframed) ?_ ?_ ?_
  · intro resp _
    exact ⟨List.nil_prefix, fun h => absurd h (by simp)⟩
  · intro e hother
    cases e with
    | read size avail =>
      intro hst hsized
      rcases hother size avail rfl with h | h
      · exact absurd hst h
      · exact absurd (h.symm.trans hsized.1) (by simp)
    | arrival | headers | close | notify => trivial
  · intro size avail r hst hplain hread
    rw [← framedByLength_iff_holds]
    exact framed_read_iff hinv hframed hst hplain hread

/-- For every response, fragmentation, sequence of read sizes and bytes behind the body: what has
been returned to the consumer of a body of `Content-Length` bytes is at all times the beginning of
the bytes after the header block, not longer than the body, and the whole body once the end was
signalled, if and only if no read reaches beyond the body or ends it too early. -/
theorem delivery_framed_iff (env : ClientEnv) (hcp : Hcp) (sock : Socket)
    (es : List DeliveryEvent) :
    Along (Delivery.step env) (fun _ _ s' => FramedByLength sock.incoming s') (.start hcp sock) es ↔
      Along (Delivery.step env) (fun s e _ => FitsLength s e) (.start hcp sock) es := by
  refine along_iff framed_step es ⟨Delivery.start_inv hcp sock, fun hresp => ?_⟩
  rcases hresp with h | h
  · cases h
  · cases h

/-- A parser that finds a body of one byte. -/
def oneByteResponseEnv : ClientEnv where
  parseHttpResponse := fun _ => some {
    statusCode := 200, status := some (bytes "OK"), keepAlive := true, contentLength := 1 }

/-- A response with a body of one byte, and one more byte. -/
def oneByteResponse : List UInt8 := bytes "HTTP/1.1 200 OK\r\nContent-Length: 1\r\n\r\nab"

/-- Everything arrives at once, and the consumer reads with room for more than the body. -/
def oneByteDelivery : List DeliveryEvent := [.headers 5120 4096, .read 16384 0]

theorem oneByteDelivery_delivers :
    (run (Delivery.step oneByteResponseEnv) (.start {} { incoming := oneByteResponse })
        oneByteDelivery).map (fun s => (s.hcp.requestComplete, s.hcp.resp.chunkedEncoding,
          s.hcp.resp.contentLength, s.delivered)) =
      some (true, false, 1, bytes "ab") := by
  decide +kernel

/-- In this run the consumer gets the byte behind the body as well. -/
theorem delivery_surplus :
    ¬ Along (Delivery.step oneByteResponseEnv) (fun _ _ s' => FramedByLength oneByteResponse s')
      (.start {} { incoming := oneByteResponse }) oneByteDelivery := by
  intro h
  obtain ⟨s, hrun, heq⟩ := Option.map_eq_some_iff.mp oneByteDelivery_delivers
  simp only [Prod.mk.injEq] at heq
  obtain ⟨hdone, hch, hlen, hdel⟩ := heq
  have hframed : FramedByLength oneByteResponse s :=
    run_inv_of_along (I := FramedByLength oneByteResponse) (fun _ _ _ _ _ hQ => hQ)
      (fun hresp => by rcases hresp with h | h <;> cases h) h hrun
  have hle := (List.prefix_take_iff.mp
    (hframed (.inr hdone) ⟨hch, by rw [hlen]; exact zero_le_one⟩).1).2
  rw [hdel, hlen] at hle
  exact absurd hle (by decide)

end Nxweb
