import Nxweb.ClientProto.Delivery

/-!
# The response behind `100 Continue`

A request with a body waits for an interim response of the backend before its body is sent. The
interim header block is collected by the same code as a final one, and `data_in_do_read` goes back
to sending the body when it is complete. It has finished the stream of the arena by then, with all
bytes that were read. What was read behind the interim header block is lost.

`Delivery` is extended by the body of the request. Nothing of the final response is lost if and only
if no read that completes the interim header block brings bytes behind it
(`interimResponse_kept_iff`). From the end of the request on the connection is then in the states of
one that receives the final response alone, whose responses are those of `Delivery`.

## Main definitions

* `UploadEvent`, `Delivery.uploadStep`: the connection while a request with a body is sent;
* `InterimAnswer`: the stream of the backend;
* `Delivery.KeepsFinal`, `NothingBehind`: what is expected, and when it is so.
-/

namespace Nxweb

open Lib

/-- What can happen on the connection. -/
inductive UploadEvent where
  /-- A read or an arrival, or whatever else can happen when the request has been sent. -/
  | conn (e : DeliveryEvent)
  /-- A part of the request body is written to the socket. -/
  | send (os : NextOs) (data : List UInt8) (eof : Bool) (reply : WriteReply)

namespace Delivery

/-- The interim response has been received, and the request has been sent. -/
def RequestSent (s : Delivery) : Prop :=
  s.hcp.receiving100Continue = false ∧ s.hcp.state ≠ .sendingBody

instance (s : Delivery) : Decidable s.RequestSent :=
  inferInstanceAs (Decidable (s.hcp.receiving100Continue = false ∧ s.hcp.state ≠ .sendingBody))

/-- The connection closes, and errors of the socket are reported, after the request has been sent
only. The body is written while the protocol is sending it. -/
def uploadStep (env : ClientEnv) (s : Delivery) : UploadEvent → Option Delivery
  | .conn e =>
    match e with
    | .close | .notify _ => if s.RequestSent then s.step env e else none
    | _ => s.step env e
  | .send os data eof reply =>
    if s.hcp.state = .sendingBody then
      some { s with hcp := (s.hcp.reqBodyInWrite os data eof reply).2.1 }
    else none

/-- The headers of a request have been sent, and `100 Continue` is awaited. -/
def startUpload (hcp : Hcp) (sock : Socket) : Delivery where
  hcp := { hcp.waitFor100Continue with
    readBuf := []
    requestComplete := false
    responseBodyComplete := false
    eventsPub := [] }
  sock := sock

/-- The connection could have got here by receiving `final` alone. -/
def Alone (env : ClientEnv) (final : List UInt8) (s : Delivery) : Prop :=
  ∃ hcp sock es, sock.incoming = final ∧ run (step env) (start hcp sock) es = some s

/-- No byte of the final response is lost: while the body of the request is sent, all of them are
left to be read, and from then on the connection is in the states of one that receives them
alone. -/
structure KeepsFinal (env : ClientEnv) (final : List UInt8) (s : Delivery) : Prop where
  sending : s.hcp.state = .sendingBody → s.hcp.readBuf ++ s.sock.incoming = final
  alone : s.RequestSent → s.Alone env final

end Delivery

/-- The stream begins with an interim header block, and goes on with `final`. -/
structure InterimAnswer (env : ClientEnv) (stream final : List UInt8) : Prop where
  header : ∃ e b resp, findEndOfHttpHeaders stream = some (e, b) ∧
    env.parseHttpResponse (stream.take e) = some resp ∧ resp.statusCode = 100 ∧
    stream.drop b = final

/-- The bytes in the arena after headers have been read. -/
def Delivery.headersAfterRead (s : Delivery) (room avail : ℕ) : List UInt8 :=
  s.hcp.readBuf ++ (s.sock.dataRecvRead room (s.arrivedBytes avail)).1

/-- A read that completes the interim header block ends with it. -/
def NothingBehind (s : Delivery) (e : UploadEvent) (_ : Delivery) : Prop :=
  match e with
  | .conn (.headers room avail) => s.hcp.receiving100Continue = true →
      ∀ found ∈ findEndOfHttpHeaders (s.headersAfterRead room avail),
        (s.headersAfterRead room avail).length = found.2
  | _ => True

/-! ### The states of a connection that receives the final response alone -/

namespace Delivery

variable {env : ClientEnv} {stream final : List UInt8} {s s' : Delivery}

theorem Alone.step (h : s.Alone env final) {e : DeliveryEvent} (hstep : s.step env e = some s') :
    s'.Alone env final := by
  obtain ⟨hcp, sock, es, hfinal, hrun⟩ := h
  exact ⟨hcp, sock, es ++ [e], hfinal, run_append hrun (run_single hstep)⟩

/-- The final response is kept as `Delivery.Inv` says. -/
theorem Alone.inv (h : s.Alone env final) : s.Inv final := by
  obtain ⟨hcp, sock, es, rfl, hrun⟩ := h
  exact run_inv (fun _ _ _ hinv hstep => (delivery_step hinv hstep).1) (start_inv hcp sock) hrun

/-- The body of the request is not sent any more. -/
theorem Alone.not_sending (h : s.Alone env final) : s.hcp.state ≠ .sendingBody := by
  rcases h.inv.phase with ⟨hstate, -⟩ | ⟨hstate, -⟩
  · rcases hstate with h | h | h <;> simp [h]
  · simp [hstate]

/-! ### The invariant -/

/-- Nothing has been returned to the consumer, and no message was published. -/
structure Untouched (s : Delivery) : Prop where
  closed : s.closed = false
  delivered : s.delivered = []
  eof : s.eof = false
  incomplete : s.hcp.requestComplete = false
  bodyIncomplete : s.hcp.responseBodyComplete = false
  quiet : s.hcp.eventsPub = []

/-- How far the exchange has come. -/
inductive Upload (env : ClientEnv) (stream final : List UInt8) (s : Delivery) : Prop
  /-- The interim response is awaited. -/
  | interim (huntouched : s.Untouched) (h100 : s.hcp.receiving100Continue = true)
      (hstate : s.hcp.state = .waitingForResponse ∨ s.hcp.state = .receivingHeaders)
      (hnone : findEndOfHttpHeaders s.hcp.readBuf = none)
      (hbytes : s.hcp.readBuf ++ s.sock.incoming = stream)
  /-- The interim response was refused. -/
  | refused (h100 : s.hcp.receiving100Continue = true)
      (hstate : s.hcp.state = .waitingForResponse ∨ s.hcp.state = .receivingHeaders)
      (hrefused : s.Refused)
  /-- The body of the request is being sent. -/
  | sending (huntouched : s.Untouched) (h100 : s.hcp.receiving100Continue = false)
      (hstate : s.hcp.state = .sendingBody) (hnil : s.hcp.readBuf = [])
      (hbytes : s.sock.incoming = final)
  /-- The request has been sent. -/
  | sent (halone : s.Alone env final)

theorem Upload.keepsFinal (h : s.Upload env stream final) : s.KeepsFinal env final := by
  cases h with
  | interim huntouched h100 hstate hnone hbytes =>
    refine ⟨fun hsend => ?_, fun hsent => ?_⟩
    · rcases hstate with h | h <;> simp [h] at hsend
    · exact absurd (h100.symm.trans hsent.1) (by simp)
  | refused h100 hstate hrefused =>
    refine ⟨fun hsend => ?_, fun hsent => ?_⟩
    · rcases hstate with h | h <;> simp [h] at hsend
    · exact absurd (h100.symm.trans hsent.1) (by simp)
  | sending huntouched h100 hstate hnil hbytes =>
    exact ⟨fun _ => by rw [hnil, hbytes, List.nil_append], fun hsent => absurd hstate hsent.2⟩
  | sent halone => exact ⟨fun hsend => absurd hsend halone.not_sending, fun _ => halone⟩

theorem startUpload_upload (hcp : Hcp) (sock : Socket) :
    (startUpload hcp sock).Upload env sock.incoming final :=
  .interim ⟨rfl, rfl, rfl, rfl, rfl, rfl⟩ rfl (.inl rfl) rfl rfl

/-! ### Sending the body -/

/-- What sending a part of the body leaves of the connection. -/
structure BodyWritten (hcp hcp' : Hcp) : Prop where
  state : hcp'.state = .sendingBody ∨ hcp'.state = .waitingForResponse
  readBuf : hcp'.readBuf = hcp.readBuf
  h100 : hcp'.receiving100Continue = hcp.receiving100Continue
  incomplete : hcp'.requestComplete = hcp.requestComplete
  bodyIncomplete : hcp'.responseBodyComplete = hcp.responseBodyComplete
  events : hcp'.eventsPub = hcp.eventsPub

theorem reqBodyInWrite_written {hcp : Hcp} (h : hcp.state = .sendingBody) (os : NextOs)
    (data : List UInt8) (eof : Bool) (reply : WriteReply) :
    BodyWritten hcp (hcp.reqBodyInWrite os data eof reply).2.1 := by
  unfold Hcp.reqBodyInWrite Hcp.startReceivingResponse
  rw [if_neg (not_not.mpr h)]
  generalize (if data ≠ [] ∧ os.ready = true then os.write data reply else (0, os)) = w
  obtain ⟨n, os'⟩ := w
  dsimp only
  split_ifs
  · exact ⟨.inr rfl, rfl, rfl, rfl, rfl, rfl⟩
  · exact ⟨.inr rfl, rfl, rfl, rfl, rfl, rfl⟩
  · exact ⟨.inl h, rfl, rfl, rfl, rfl, rfl⟩
  · exact ⟨.inl h, rfl, rfl, rfl, rfl, rfl⟩

/-- When the request has been sent, the connection is one that waits for a response. -/
theorem Untouched.start_eq (h : s.Untouched) (h100 : s.hcp.receiving100Continue = false)
    (hstate : s.hcp.state = .waitingForResponse) (hnil : s.hcp.readBuf = []) :
    start s.hcp s.sock = s := by
  obtain ⟨hclosed, hdel, heof, hinc, hbody, hquiet⟩ := h
  obtain ⟨hcp, sock, closed, delivered, eof⟩ := s
  cases hcp
  simp only at *
  subst hclosed hdel heof hinc hbody hquiet h100 hstate hnil
  rfl

/-! ### The steps -/

/-- Before the body of the response, a read changes the readiness of the streams at most. -/
theorem Upload.read_idle (h : s.Upload env stream final) (hst : s.hcp.state ≠ .receivingBody)
    {size avail : ℕ} (hstep : s.step env (.read size avail) = some s') :
    s'.Upload env stream final := by
  obtain ⟨r, hread, hdata, heof, hsock, hhcp⟩ :=
    respBodyOutRead_idle hst s.sock size (s.arrivedBytes avail)
  cases h with
  | sent halone => exact .sent (halone.step hstep)
  | interim huntouched h100 hstate hnone hbytes =>
    obtain ⟨r', hread', rfl⟩ := Option.map_eq_some_iff.mp hstep
    obtain rfl := Option.some.inj (hread.symm.trans hread')
    obtain ⟨hclosed, hdel, heof', hinc, hbody, hquiet⟩ := huntouched
    unfold afterRead
    rw [hdata, heof, hsock, hhcp]
    exact .interim ⟨hclosed, by simpa using hdel, by simp [heof', hinc], hinc, hbody, hquiet⟩ h100
      hstate hnone hbytes
  | refused h100 hstate hrefused =>
    obtain ⟨r', hread', rfl⟩ := Option.map_eq_some_iff.mp hstep
    obtain rfl := Option.some.inj (hread.symm.trans hread')
    unfold afterRead
    rw [hhcp]
    exact .refused h100 hstate hrefused
  | sending huntouched h100 hstate hnil hbytes =>
    obtain ⟨r', hread', rfl⟩ := Option.map_eq_some_iff.mp hstep
    obtain rfl := Option.some.inj (hread.symm.trans hread')
    obtain ⟨hclosed, hdel, heof', hinc, hbody, hquiet⟩ := huntouched
    unfold afterRead
    rw [hdata, heof, hsock, hhcp]
    exact .sending ⟨hclosed, by simpa using hdel, by simp [heof', hinc], hinc, hbody, hquiet⟩ h100
      hstate hnil hbytes

/-- Whether bytes of the final response are lost is decided by the reads of headers. -/
theorem Upload.step_other (h : s.Upload env stream final) {e : UploadEvent}
    (hother : ∀ room avail, e ≠ .conn (.headers room avail))
    (hstep : s.uploadStep env e = some s') : s'.Upload env stream final := by
  cases e with
  | send os data eof reply =>
    obtain ⟨hsend, hstep⟩ := Option.ite_none_right_eq_some.mp hstep
    obtain rfl := Option.some.inj hstep
    have hwritten := reqBodyInWrite_written hsend os data eof reply
    cases h with
    | interim huntouched h100 hstate hnone hbytes => rcases hstate with h | h <;> simp [h] at hsend
    | refused h100 hstate hrefused => rcases hstate with h | h <;> simp [h] at hsend
    | sent halone => exact absurd hsend halone.not_sending
    | sending huntouched h100 hstate hnil hbytes =>
      generalize (s.hcp.reqBodyInWrite os data eof reply).2.1 = hcp' at hwritten ⊢
      have huntouched' : Untouched { s with hcp := hcp' } :=
        ⟨huntouched.closed, huntouched.delivered, huntouched.eof,
          hwritten.incomplete.trans huntouched.incomplete,
          hwritten.bodyIncomplete.trans huntouched.bodyIncomplete,
          hwritten.events.trans huntouched.quiet⟩
      have h100' := hwritten.h100.trans h100
      have hnil' := hwritten.readBuf.trans hnil
      rcases hwritten.state with hstate' | hstate'
      · exact .sending huntouched' h100' hstate' hnil' hbytes
      · exact .sent ⟨hcp', s.sock, [], hbytes,
          congrArg some (huntouched'.start_eq h100' hstate' hnil')⟩
  | conn e =>
    cases e with
    | headers room avail => exact absurd rfl (hother room avail)
    | arrival =>
      cases h with
      | sent halone => exact .sent (halone.step (e := .arrival) hstep)
      | interim huntouched h100 hstate hnone hbytes =>
        obtain rfl := Option.some.inj hstep
        exact .interim ⟨huntouched.1, huntouched.2, huntouched.3, huntouched.4, huntouched.5,
          huntouched.6⟩ h100 hstate hnone hbytes
      | refused h100 hstate hrefused =>
        obtain rfl := Option.some.inj hstep
        exact .refused h100 hstate hrefused
      | sending huntouched h100 hstate hnil hbytes =>
        obtain rfl := Option.some.inj hstep
        exact .sending ⟨huntouched.1, huntouched.2, huntouched.3, huntouched.4, huntouched.5,
          huntouched.6⟩ h100 hstate hnil hbytes
    | read size avail =>
      by_cases hst : s.hcp.state = .receivingBody
      · cases h with
        | sent halone => exact .sent (halone.step (e := .read size avail) hstep)
        | interim huntouched h100 hstate hnone hbytes => rcases hstate with h | h <;> simp [h] at hst
        | refused h100 hstate hrefused => rcases hstate with h | h <;> simp [h] at hst
        | sending huntouched h100 hstate hnil hbytes => simp [hstate] at hst
      · exact h.read_idle hst hstep
    | close | notify =>
      obtain ⟨hsent, hstep⟩ := Option.ite_none_right_eq_some.mp hstep
      cases h with
      | sent halone => exact .sent (halone.step hstep)
      | interim huntouched h100 => exact absurd (h100.symm.trans hsent.1) (by simp)
      | refused h100 => exact absurd (h100.symm.trans hsent.1) (by simp)
      | sending huntouched h100 hstate => exact absurd hstate hsent.2

/-- The interim response has been received. -/
theorem headersReceived_interim (hcp : Hcp) {resp : HttpResponse} (rest : List UInt8)
    (h100 : hcp.receiving100Continue = true) (hinterim : resp.statusCode = 100) :
    ∃ hcp', hcp.headersReceived resp rest = some hcp' ∧ hcp'.state = .sendingBody ∧
      hcp'.readBuf = [] ∧ hcp'.receiving100Continue = false ∧
      hcp'.requestComplete = hcp.requestComplete ∧
      hcp'.responseBodyComplete = hcp.responseBodyComplete ∧ hcp'.eventsPub = hcp.eventsPub := by
  unfold Hcp.headersReceived
  simp only [h100, if_true, hinterim]
  exact ⟨_, rfl, rfl, rfl, rfl, rfl, rfl, rfl⟩

/-- What reading the interim header block can do, with the bytes `buf` in the arena. -/
inductive InterimRead (stream final buf : List UInt8) (hcp hcp' : Hcp) (sock' : Socket) : Prop
  /-- More of it is awaited. -/
  | pending (hnone : findEndOfHttpHeaders buf = none) (hstate : hcp'.state = .receivingHeaders)
      (h100 : hcp'.receiving100Continue = true) (hevents : hcp'.eventsPub = hcp.eventsPub)
      (hbuf : hcp'.readBuf = buf) (hbytes : buf ++ sock'.incoming = stream)
  /-- It is too long. -/
  | bad (hnone : findEndOfHttpHeaders buf = none) (hstate : hcp'.state = .receivingHeaders)
      (h100 : hcp'.receiving100Continue = true) (hmem : .error hcpBadResponse ∈ hcp'.eventsPub)
  /-- It is complete. -/
  | complete {e b : ℕ} (hfind : findEndOfHttpHeaders buf = some (e, b))
      (hstate : hcp'.state = .sendingBody) (h100 : hcp'.receiving100Continue = false)
      (hevents : hcp'.eventsPub = hcp.eventsPub) (hnil : hcp'.readBuf = [])
      (hfinal : buf.drop b ++ sock'.incoming = final)

/-- The fields that reading the interim header block leaves as they are. -/
structure SameFlags (hcp hcp' : Hcp) : Prop where
  incomplete : hcp'.requestComplete = hcp.requestComplete
  bodyIncomplete : hcp'.responseBodyComplete = hcp.responseBodyComplete

theorem readHeaders_interim (hinterim : InterimAnswer env stream final) {hcp hcp' : Hcp}
    {sock sock' : Socket} {room avail : ℕ}
    (h : hcp.dataInReadHeaders env sock room avail = some (hcp', sock'))
    (hst : hcp.state = .waitingForResponse ∨ hcp.state = .receivingHeaders)
    (h100 : hcp.receiving100Continue = true) (hnone : findEndOfHttpHeaders hcp.readBuf = none)
    (hbytes : hcp.readBuf ++ sock.incoming = stream) :
    InterimRead stream final (hcp.readBuf ++ (sock.dataRecvRead room avail).1) hcp hcp' sock' ∧
      SameFlags hcp hcp' := by
  obtain ⟨hopen, hbuf, hreq, hcont, hbody⟩ := openHeaders_spec hst
  have hevents : hcp.openHeaders.eventsPub = hcp.eventsPub := by
    unfold Hcp.openHeaders
    split_ifs <;> rfl
  have hparts : hcp.openHeaders.readBuf ++ (sock.dataRecvRead room avail).1 ++
      (sock.dataRecvRead room avail).2.incoming = stream := by
    rw [Socket.dataRecvRead_data, Socket.dataRecvRead_incoming, List.append_assoc,
      List.take_append_drop, hbuf]
    exact hbytes
  unfold Hcp.dataInReadHeaders at h
  rw [← hbuf] at hnone ⊢
  generalize sock.dataRecvRead room avail = rd at h hparts ⊢
  obtain ⟨data, sock₁⟩ := rd
  generalize hcp.openHeaders = hcp₀ at h hopen hcont hnone hparts hreq hbody hevents ⊢
  dsimp only at h hparts ⊢
  by_cases hdata : data = []
  · rw [if_pos hdata] at h
    obtain ⟨rfl, rfl⟩ := h
    rw [hdata, List.append_nil] at hparts ⊢
    exact ⟨.pending hnone hopen (hcont.trans h100) hevents rfl hparts, hreq, hbody⟩
  rw [if_neg hdata] at h
  cases hfind : findEndOfHttpHeaders (hcp₀.readBuf ++ data) with
  | none =>
    simp only [hfind] at h
    split_ifs at h
    · obtain ⟨rfl, rfl⟩ := h
      have hmem : HcpEvent.error hcpBadResponse ∈
          (Hcp.badResponse { hcp₀ with readBuf := hcp₀.readBuf ++ data }).eventsPub := by
        simp [Hcp.badResponse, Hcp.publish]
      exact ⟨.bad hfind hopen (hcont.trans h100) hmem, hreq, hbody⟩
    · obtain ⟨rfl, rfl⟩ := h
      exact ⟨.pending hfind hopen (hcont.trans h100) hevents rfl hparts, hreq, hbody⟩
  | some found =>
    obtain ⟨e, b⟩ := found
    obtain ⟨hwhole, htake⟩ := headerBlock_eq hparts hfind
    obtain ⟨e', b', resp, hfind', hparse, hstatus, hfinal⟩ := hinterim.header
    obtain ⟨rfl, rfl⟩ := Prod.mk.inj (Option.some.inj (hfind'.symm.trans hwhole))
    simp only [hfind, ← htake, hparse] at h
    obtain ⟨hcp₁, hrecv, hret⟩ := Option.bind_eq_some_iff.mp h
    obtain ⟨rfl, rfl⟩ := hret
    obtain ⟨hcp₂, hrecv', hstate, hnil, hcont', hreq', hbody', hevents'⟩ :=
      headersReceived_interim { hcp₀ with readBuf := hcp₀.readBuf ++ data } _ (hcont.trans h100)
        hstatus
    obtain rfl := Option.some.inj (hrecv'.symm.trans hrecv)
    refine ⟨.complete hfind hstate hcont' (hevents'.trans hevents) hnil ?_, hreq'.trans hreq,
      hbody'.trans hbody⟩
    rw [← hfinal, ← hparts, List.drop_append_of_le_length (findEndOfHttpHeaders_le hfind)]

/-- Reading the interim header block keeps the final response exactly if it brings nothing behind
the block. -/
theorem interim_step_headers (hinterim : InterimAnswer env stream final) (huntouched : s.Untouched)
    (h100 : s.hcp.receiving100Continue = true) (hnone : findEndOfHttpHeaders s.hcp.readBuf = none)
    (hbytes : s.hcp.readBuf ++ s.sock.incoming = stream) {room avail : ℕ}
    (hstep : s.step env (.headers room avail) = some s') :
    (s'.KeepsFinal env final ↔ NothingBehind s (.conn (.headers room avail)) s') ∧
      (s'.KeepsFinal env final → s'.Upload env stream final) := by
  obtain ⟨⟨hst, hok⟩, hstep⟩ := Option.ite_none_right_eq_some.mp hstep
  obtain ⟨⟨hcp', sock'⟩, hread, rfl⟩ := Option.map_eq_some_iff.mp hstep
  obtain ⟨hcases, hincomplete, hbody⟩ :=
    readHeaders_interim hinterim hread hst h100 hnone hbytes
  have huntouched' : hcp'.eventsPub = s.hcp.eventsPub →
      Untouched { s with hcp := hcp', sock := sock' } := fun hevents =>
    ⟨huntouched.closed, huntouched.delivered, huntouched.eof,
      hincomplete.trans huntouched.incomplete, hbody.trans huntouched.bodyIncomplete,
      hevents.trans huntouched.quiet⟩
  cases hcases with
  | pending hnone' hstate h100' hevents hbuf hparts =>
    have hup : Upload env stream final { s with hcp := hcp', sock := sock' } :=
      .interim (huntouched' hevents) h100' (.inr hstate)
        ((congrArg findEndOfHttpHeaders hbuf).trans hnone')
        ((congrArg (· ++ sock'.incoming) hbuf).trans hparts)
    refine ⟨iff_of_true hup.keepsFinal fun _ found hfound => ?_, fun _ => hup⟩
    cases hnone'.symm.trans hfound
  | bad hnone' hstate h100' hmem =>
    have hup : Upload env stream final { s with hcp := hcp', sock := sock' } :=
      .refused h100' (.inr hstate) hmem
    refine ⟨iff_of_true hup.keepsFinal fun _ found hfound => ?_, fun _ => hup⟩
    cases hnone'.symm.trans hfound
  | @complete e b hfind hstate h100' hevents hnil hfinal =>
    have hle := findEndOfHttpHeaders_le hfind
    have hkept : sock'.incoming = final ↔ (s.headersAfterRead room avail).length = b := by
      rw [← hfinal, List.self_eq_append_left, List.drop_eq_nil_iff]
      exact ⟨fun h => le_antisymm h hle, fun h => h.le⟩
    have hiff : NothingBehind s (.conn (.headers room avail)) { s with hcp := hcp', sock := sock' } ↔
        (s.headersAfterRead room avail).length = b := by
      refine ⟨fun h => h h100 (e, b) hfind, fun h _ found hfound => ?_⟩
      obtain rfl := Option.some.inj (hfind.symm.trans hfound)
      exact h
    have hkeeps : KeepsFinal env final { s with hcp := hcp', sock := sock' } →
        sock'.incoming = final := by
      intro hkeeps
      have hsending : hcp'.readBuf ++ sock'.incoming = final := hkeeps.sending hstate
      rwa [hnil, List.nil_append] at hsending
    have hup : sock'.incoming = final →
        Upload env stream final { s with hcp := hcp', sock := sock' } :=
      .sending (huntouched' hevents) h100' hstate hnil
    rw [hiff, ← hkept]
    exact ⟨⟨hkeeps, fun h => (hup h).keepsFinal⟩, fun h => hup (hkeeps h)⟩

/-- A transition keeps the final response exactly if it loses nothing behind the interim header
block. -/
theorem upload_step (hinterim : InterimAnswer env stream final) (s : Delivery) (e : UploadEvent)
    (s' : Delivery) (h : s.Upload env stream final) (hstep : s.uploadStep env e = some s') :
    (s'.KeepsFinal env final ↔ NothingBehind s e s') ∧
      (s'.KeepsFinal env final → s'.Upload env stream final) := by
  by_cases hheaders : ∃ room avail, e = .conn (.headers room avail)
  · obtain ⟨room, avail, rfl⟩ := hheaders
    have hstep' : s.step env (.headers room avail) = some s' := hstep
    obtain ⟨⟨hst, hok⟩, -⟩ := Option.ite_none_right_eq_some.mp hstep'
    cases h with
    | interim huntouched h100 hstate hnone hbytes =>
      exact interim_step_headers hinterim huntouched h100 hnone hbytes hstep'
    | refused h100 hstate hrefused => exact absurd hrefused hok
    | sending huntouched h100 hstate hnil hbytes =>
      rcases hst with h | h <;> cases hstate.symm.trans h
    | sent halone =>
      have hup : s'.Upload env stream final := .sent (halone.step hstep')
      refine ⟨iff_of_true hup.keepsFinal fun h100 => ?_, fun _ => hup⟩
      exact absurd (h100.symm.trans (halone.inv.headers hst).1) (by simp)
  · have hother : ∀ room avail, e ≠ .conn (.headers room avail) := fun room avail heq =>
      hheaders ⟨room, avail, heq⟩
    have hup := h.step_other hother hstep
    refine ⟨iff_of_true hup.keepsFinal ?_, fun _ => hup⟩
    cases e with
    | send os data eof reply => trivial
    | conn e =>
      cases e with
      | headers room avail => exact absurd rfl (hother room avail)
      | arrival | read | close | notify => trivial

end Delivery

/-- If the backend answers a request by an interim header block and a final response, nothing of the
final response is lost if and only if no read that completes the interim header block brings bytes
behind it. -/
theorem interimResponse_kept_iff (env : ClientEnv) (hcp : Hcp) (sock : Socket)
    {final : List UInt8} (hinterim : InterimAnswer env sock.incoming final)
    (es : List UploadEvent) :
    Along (Delivery.uploadStep env) (fun _ _ s' => s'.KeepsFinal env final)
        (.startUpload hcp sock) es ↔
      Along (Delivery.uploadStep env) NothingBehind (.startUpload hcp sock) es :=
  along_iff (fun s e s' h hstep => Delivery.upload_step hinterim s e s' h hstep) es
    (Delivery.startUpload_upload hcp sock)

/-- A backend whose final response has a body of two bytes. -/
def interimEnv : ClientEnv where
  parseHttpResponse block :=
    some (if block.take 12 = bytes "HTTP/1.1 100" then { statusCode := 100 }
      else { statusCode := 200, contentLength := 2 })

/-- The interim header block. -/
def interimBlock : List UInt8 := bytes "HTTP/1.1 100 Continue\r\n\r\n"

/-- The final response. -/
def finalResponse : List UInt8 := bytes "HTTP/1.1 200 OK\r\nContent-Length: 2\r\n\r\nok"

/-- Both of them on the socket. -/
def interimSocket : Socket := { ready := true, incoming := interimBlock ++ finalResponse }

theorem interimSocket_answer :
    InterimAnswer interimEnv interimSocket.incoming finalResponse where
  header := ⟨21, 25, { statusCode := 100 }, by decide +kernel, by decide +kernel, rfl,
    by decide +kernel⟩

theorem interimSocket_oneRead :
    ((Delivery.startUpload {} interimSocket).uploadStep interimEnv
      (.conn (.headers 5120 4096))).map
        (fun s => (s.hcp.state, s.hcp.readBuf ++ s.sock.incoming)) = some (.sendingBody, []) := by
  decide +kernel

/-- If both arrive in one segment, the final response is lost. -/
theorem finalResponse_lost :
    ¬ Along (Delivery.uploadStep interimEnv) (fun _ _ s' => s'.KeepsFinal interimEnv finalResponse)
      (.startUpload {} interimSocket) [.conn (.headers 5120 4096)] := by
  intro hall
  obtain ⟨s, hs, heq⟩ := Option.map_eq_some_iff.mp interimSocket_oneRead
  obtain ⟨hstate, hbytes⟩ := Prod.mk.inj heq
  have hkept := (hall s hs).1.sending hstate
  rw [hbytes] at hkept
  exact absurd hkept (by decide)

instance (s : Delivery) (e : UploadEvent) (s' : Delivery) : Decidable (NothingBehind s e s') := by
  unfold NothingBehind
  split <;> infer_instance

/-- The interim header block arrives in a segment of its own. -/
theorem interimResponse_kept_twoReads :
    Along (Delivery.uploadStep interimEnv) (fun _ _ s' => s'.KeepsFinal interimEnv finalResponse)
      (.startUpload {} interimSocket)
      [.conn (.headers 5120 25), .send ⟨true, []⟩ (bytes "a") true ⟨1, true⟩,
        .conn (.headers 5120 4096)] :=
  (interimResponse_kept_iff interimEnv {} interimSocket interimSocket_answer _).mpr
    (by decide +kernel)

end Nxweb
