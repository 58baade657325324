import Nxweb.Lib.Machine
import Nxweb.ServerProto.RequestBodySpec
import Nxweb.ServerProto.RequestHeaders

/-!
# Framing of a request body by its length

A client connection is followed from the first byte of a header block: `data_in_do_read`
collects the headers in any fragments, and then the consumer of the body reads with any sizes.
The bytes returned to the consumer should be exactly the first `Content-Length` bytes after the
header block.

A read does not stop at the end of the body. It returns what is left of the bytes that came with
the headers, and if that does not complete the body, all that has arrived at the socket, up to
the size asked for. The framing is kept if and only if no read of the run reaches beyond the end
of the body (`reception_framed_iff`). The invariant is `Reception.Inv`: what was delivered, what
is left of the first chunk and what has not been read of the socket make up the client's bytes.
-/

namespace Nxweb

open Lib

variable {env : ServerEnv}

/-! ### The connection and its events -/

/-- A client connection, the bytes the client sends, and the bytes returned to the consumer of
the body. -/
structure Reception where
  hsp : Hsp
  sock : Socket
  delivered : List UInt8 := []
  deriving DecidableEq, Repr

/-- What can happen: the socket becomes ready, the event loop reads headers into an arena with
some room, the consumer reads. Each read finds some number of bytes at the socket. -/
inductive ReceptionEvent where
  | arrival
  | headers (room avail : ℕ)
  | read (size avail : ℕ)
  deriving DecidableEq, Repr

/-- The connection after a read. -/
def Reception.afterRead (s : Reception) (r : BodyRead) : Reception where
  hsp := r.hsp
  sock := r.sock.getD s.sock
  delivered := s.delivered ++ r.data

/-- One event. -/
def Reception.step (env : ServerEnv) (s : Reception) : ReceptionEvent → Option Reception
  | .arrival => some { s with sock.ready := true }
  | .headers room avail =>
    if s.hsp.state = .waitingForRequest ∨ s.hsp.state = .receivingHeaders then
      (s.hsp.dataInReadHeaders env s.sock room avail).map fun (hsp, sock) => { s with hsp, sock }
    else none
  | .read size avail =>
    (s.hsp.reqBodyOutRead (some s.sock) size avail).map s.afterRead

/-- The offset of the body in the client's bytes. -/
def Hsp.startOfBody (hsp : Hsp) : ℕ := ((findEndOfHttpHeaders hsp.readBuf).map Prod.snd).getD 0

/-- The request has a body of known length. -/
def HttpRequest.Sized (req : HttpRequest) : Prop :=
  req.chunkedEncoding = false ∧ 0 < req.contentLength

/-- Of a body of known length, a part from its beginning on has been delivered, and the whole
body once it is complete; nothing else was delivered. -/
def Framed (stream : List UInt8) (s : Reception) : Prop :=
  s.hsp.req.Sized →
    let body := (stream.drop s.hsp.startOfBody).take s.hsp.req.contentLength.toNat
    s.delivered <+: body ∧ (s.hsp.state = .handling → s.delivered = body)

/-- The read stays inside the body: the part of the first chunk it takes is not longer than what
is missing, and neither is what it takes of the socket behind that. -/
def NoSurplus (s : Reception) : ReceptionEvent → Prop
  | .read size avail =>
    s.hsp.state = .receivingBody → s.hsp.req.Sized →
      let missing := s.hsp.req.contentLength.toNat - s.hsp.req.contentReceived
      let first := min size s.hsp.firstBodyChunk.length
      first ≤ missing ∧
        (first < missing → first + min (size - first) (s.sock.arrived avail).length ≤ missing)
  | _ => True

/-! ### One read -/

/-- A body of known length is complete when it has been counted. -/
theorem isRequestBodyComplete_count {req : HttpRequest} (hsized : req.Sized)
    (hmore : req.chunkedContentComplete = false) (n : ℕ) :
    (req.count n).isRequestBodyComplete = true ↔
      req.contentLength.toNat ≤ req.contentReceived + n := by
  have := hsized.2
  simp only [HttpRequest.isRequestBodyComplete, HttpRequest.count_contentLength,
    HttpRequest.count_contentReceived, HttpRequest.count_chunkedContentComplete, hmore,
    Bool.false_eq_true, or_false, decide_eq_true_eq]
  omega

/-- The bytes a read takes of the socket, behind `first` bytes of the first chunk. -/
def Reception.second (s : Reception) (size avail : ℕ) : List UInt8 :=
  let first := s.hsp.firstBodyChunk.take size
  if s.hsp.req.contentLength.toNat ≤ s.hsp.req.contentReceived + first.length then []
  else (s.sock.arrived avail).take (size - first.length)

/-- A read of a body of known length hands out what it takes. -/
theorem read_sized {s : Reception} {size avail : ℕ} {r : BodyRead}
    (hst : s.hsp.state = .receivingBody) (hsized : s.hsp.req.Sized)
    (hmore : s.hsp.req.chunkedContentComplete = false)
    (hmissing : s.hsp.req.contentReceived < s.hsp.req.contentLength.toNat)
    (hread : s.hsp.reqBodyOutRead (some s.sock) size avail = some r) :
    let data := s.hsp.firstBodyChunk.take size ++ s.second size avail
    r.data = data ∧
      (r.sock.getD s.sock).incoming = s.sock.incoming.drop (s.second size avail).length ∧
      ReadOutcome s.hsp size [] (s.hsp.req.count data.length) r := by
  have hincomplete : s.hsp.req.isRequestBodyComplete = false := by
    rw [← Bool.not_eq_true, ← s.hsp.req.count_zero, isRequestBodyComplete_count hsized hmore]
    omega
  unfold Reception.second
  dsimp only
  rcases reqBodyOutRead_cases hst hincomplete hread with
    ⟨hfirst, hdone, hdata, hsock, hout⟩ | ⟨hfirst, hdone, hsecond, hdata, hsock, hincoming, hout⟩
  · rw [receiveBody_plain hsized.1] at hfirst
    obtain ⟨rfl, rfl, rfl⟩ := hfirst
    rw [isRequestBodyComplete_count hsized hmore] at hdone
    rw [if_pos hdone, hsock, List.append_nil]
    exact ⟨hdata, rfl, hout⟩
  · rw [receiveBody_plain hsized.1] at hfirst
    obtain ⟨rfl, rfl, rfl⟩ := hfirst
    rw [receiveBody_plain (show (s.hsp.req.count _).chunkedEncoding = false from hsized.1)]
      at hsecond
    obtain ⟨rfl, rfl, rfl⟩ := hsecond
    rw [← Bool.not_eq_true, isRequestBodyComplete_count hsized hmore] at hdone
    rw [if_neg hdone, hsock, List.length_append, ← HttpRequest.count_count]
    exact ⟨hdata, hincoming, hout⟩

/-! ### The invariant -/

/-- Where the client's bytes are. -/
structure Reception.Inv (stream : List UInt8) (s : Reception) : Prop where
  waiting : s.hsp.state = .waitingForRequest → s.hsp.readBuf = []
  headers : s.hsp.state = .waitingForRequest ∨ s.hsp.state = .receivingHeaders →
    s.hsp.req = {} ∧ s.delivered = [] ∧ s.hsp.readBuf ++ s.sock.incoming = stream
  incomplete : s.hsp.state = .receivingBody → s.hsp.req.isRequestBodyComplete = false
  body : s.hsp.state = .receivingBody → s.hsp.req.Sized →
    s.hsp.req.chunkedContentComplete = false ∧
      s.hsp.req.contentReceived = s.delivered.length ∧
      s.delivered.length < s.hsp.req.contentLength.toNat ∧
      s.delivered ++ s.hsp.firstBodyChunk ++ s.sock.incoming = stream.drop s.hsp.startOfBody
  handling : s.hsp.state = .handling → Framed stream s
  sending : s.hsp.state = .sendingHeaders ∨ s.hsp.state = .sendingBody → ¬ s.hsp.req.Sized

/-- A request without a length has no framing to keep. -/
theorem not_sized_zero : ¬ ({} : HttpRequest).Sized := fun h => absurd h.2 (lt_irrefl 0)

/-- The invariant says more than the framing. -/
theorem Reception.Inv.framed {stream : List UInt8} {s : Reception} (hinv : s.Inv stream) :
    Framed stream s := by
  cases hst : s.hsp.state with
  | waitingForRequest =>
    exact fun h => absurd ((hinv.headers (.inl hst)).1 ▸ h) not_sized_zero
  | receivingHeaders =>
    exact fun h => absurd ((hinv.headers (.inr hst)).1 ▸ h) not_sized_zero
  | receivingBody =>
    intro hsized
    obtain ⟨-, -, hlt, hbytes⟩ := hinv.body hst hsized
    refine ⟨List.prefix_take_iff.mpr ⟨?_, hlt.le⟩, by simp [hst]⟩
    rw [← hbytes, List.append_assoc]
    exact List.prefix_append _ _
  | handling => exact hinv.handling hst
  | sendingHeaders => exact fun h => absurd h (hinv.sending (.inl hst))
  | sendingBody => exact fun h => absurd h (hinv.sending (.inr hst))

/-- What a read takes is the next part of the client's bytes. -/
theorem second_append {s : Reception} (size avail : ℕ) :
    s.hsp.firstBodyChunk ++ s.sock.incoming =
      s.hsp.firstBodyChunk.take size ++ s.second size avail ++ s.hsp.firstBodyChunk.drop size ++
        s.sock.incoming.drop (s.second size avail).length := by
  have hsecond : s.second size avail = s.sock.incoming.take (s.second size avail).length := by
    unfold Reception.second
    dsimp only
    split_ifs
    · rfl
    · exact s.sock.arrived_take_eq _ _
  by_cases hchunk : s.hsp.firstBodyChunk.drop size = []
  · have htake : s.hsp.firstBodyChunk.take size = s.hsp.firstBodyChunk :=
      List.take_of_length_le (List.drop_eq_nil_iff.mp hchunk)
    rw [hchunk, htake, List.append_nil, List.append_assoc]
    conv_rhs => rw [hsecond]
    rw [List.length_take, ← List.drop_eq_drop_min, List.take_append_drop]
  · -- the first chunk is longer than the read, so the socket is not asked
    have hnil : s.second size avail = [] := by
      have hlong : ¬ s.hsp.firstBodyChunk.length ≤ size := mt List.drop_eq_nil_iff.mpr hchunk
      have hzero : size - (s.hsp.firstBodyChunk.take size).length = 0 := by
        rw [List.length_take]
        omega
      unfold Reception.second
      dsimp only
      rw [hzero, List.take_zero, ite_self]
    simp [hnil]

/-- The invariant after a read of the body. -/
theorem Reception.Inv.of_read {stream : List UInt8} {s : Reception}
    (hst : s.hsp.state =
      if s.hsp.req.isRequestBodyComplete then .handling else .receivingBody)
    (hframed : Framed stream s)
    (hbody : s.hsp.state = .receivingBody → s.hsp.req.Sized →
      s.hsp.req.chunkedContentComplete = false ∧
        s.hsp.req.contentReceived = s.delivered.length ∧
        s.delivered.length < s.hsp.req.contentLength.toNat ∧
        s.delivered ++ s.hsp.firstBodyChunk ++ s.sock.incoming =
          stream.drop s.hsp.startOfBody) :
    s.Inv stream := by
  cases hdone : s.hsp.req.isRequestBodyComplete with
  | true =>
    rw [hdone, if_pos rfl] at hst
    constructor <;> simp [hst, hframed]
  | false =>
    rw [hdone, if_neg Bool.false_ne_true] at hst
    refine ⟨by simp [hst], by simp [hst], fun _ => hdone, hbody, by simp [hst], by simp [hst]⟩

/-- In the middle of a body of known length, the framing only depends on how much was delivered. -/
theorem framed_iff_length_le {stream : List UInt8} {s : Reception} (hsized : s.hsp.req.Sized)
    (hpre : s.delivered <+: stream.drop s.hsp.startOfBody)
    (hdone : s.hsp.state = .handling → s.hsp.req.contentLength.toNat ≤ s.delivered.length) :
    Framed stream s ↔ s.delivered.length ≤ s.hsp.req.contentLength.toNat := by
  constructor
  · intro h
    exact (List.prefix_take_iff.mp (h hsized).1).2
  · intro hle _
    refine ⟨List.prefix_take_iff.mpr ⟨hpre, hle⟩, fun hst => ?_⟩
    obtain ⟨rest, hrest⟩ := hpre
    rw [← hrest, ← Nat.le_antisymm hle (hdone hst), List.take_left]

/-- A read of the body keeps the framing exactly if it stays inside the body. -/
theorem read_framed_iff {stream : List UInt8} {s s' : Reception} {size avail : ℕ}
    (hinv : s.Inv stream) (hst : s.hsp.state = .receivingBody)
    (hstep : s.step env (.read size avail) = some s') :
    (Framed stream s' ↔ NoSurplus s (.read size avail)) ∧ (Framed stream s' → s'.Inv stream) := by
  obtain ⟨r, hread, rfl⟩ := Option.map_eq_some_iff.mp hstep
  have hcases := reqBodyOutRead_cases hst (hinv.incomplete hst) hread
  obtain ⟨hch, hlen, -, hcount⟩ := hcases.counts
  obtain ⟨errs, -, hout⟩ := hcases.exists_outcome
  have hsized' : r.hsp.req.Sized ↔ s.hsp.req.Sized := by
    simp only [HttpRequest.Sized, hch, hlen]
  have hstate := hout.state_eq
  have hsob : r.hsp.startOfBody = s.hsp.startOfBody := by
    simp only [Hsp.startOfBody, hout.readBuf_eq]
  by_cases hsized : s.hsp.req.Sized
  · obtain ⟨hmore, hcr, hlt, hbytes⟩ := hinv.body hst hsized
    obtain ⟨hdata, hincoming, hread'⟩ :=
      read_sized hst hsized hmore (hcr ▸ hlt) hread
    have htake := second_append (s := s) size avail
    have hbytes' : s.delivered ++ r.data ++ r.hsp.firstBodyChunk ++ (r.sock.getD s.sock).incoming =
        stream.drop r.hsp.startOfBody := by
      rw [hsob, ← hbytes, hdata, hincoming, hout.chunk_eq, List.append_assoc s.delivered
        s.hsp.firstBodyChunk, htake]
      simp only [List.append_assoc]
    have hcomplete : r.hsp.req.isRequestBodyComplete = true ↔
        s.hsp.req.contentLength.toNat ≤ s.delivered.length + r.data.length := by
      rw [hread'.req_eq, isRequestBodyComplete_count hsized hmore, hcr, hdata]
    have hiff : Framed stream (s.afterRead r) ↔
        s.delivered.length + r.data.length ≤ s.hsp.req.contentLength.toNat := by
      rw [framed_iff_length_le (hsized'.mpr hsized)]
      · simp only [Reception.afterRead, hlen, List.length_append]
      · refine ⟨r.hsp.firstBodyChunk ++ (r.sock.getD s.sock).incoming, ?_⟩
        simpa [Reception.afterRead] using hbytes'
      · simp only [Reception.afterRead, hlen, List.length_append, ← hcomplete]
        exact hout.handling_iff.mp
    refine ⟨hiff.trans ?_, fun hframed => .of_read hstate hframed fun hrecv _ => ?_⟩
    · -- how many bytes the two parts of the read are
      have hsecond : (s.second size avail).length =
          if s.hsp.req.contentLength.toNat ≤
            s.delivered.length + min size s.hsp.firstBodyChunk.length then 0
          else min (size - min size s.hsp.firstBodyChunk.length) (s.sock.arrived avail).length := by
        simp only [Reception.second, hcr, List.length_take]
        split_ifs <;> simp
      simp only [NoSurplus, hst, hsized, true_implies, hcr, hdata, List.length_append,
        List.length_take, hsecond]
      split_ifs <;> omega
    · have hnot := hout.receiving_iff.mp hrecv
      refine ⟨?_, ?_, ?_, hbytes'⟩
      · simpa [Reception.afterRead, hread'.req_eq] using hmore
      · simp only [Reception.afterRead, hcount, hcr, List.length_append]
      · simp only [Reception.afterRead, hlen, List.length_append]
        have := mt hcomplete.mpr (by simp [hnot])
        omega
  · refine ⟨⟨fun _ _ h => absurd h hsized, fun _ h => absurd (hsized'.mp h) hsized⟩,
      fun hframed => .of_read hstate hframed fun _ h => absurd (hsized'.mp h) hsized⟩

/-- A read before or after the body changes nothing that matters. -/
theorem read_idle {stream : List UInt8} {s s' : Reception} {size avail : ℕ}
    (hinv : s.Inv stream) (hst : s.hsp.state ≠ .receivingBody)
    (hstep : s.step env (.read size avail) = some s') : s'.Inv stream := by
  obtain ⟨r, hread, rfl⟩ := Option.map_eq_some_iff.mp hstep
  obtain ⟨hdata, hsock, hhsp⟩ := reqBodyOutRead_idle hst hread
  have hsame : s.afterRead r = { s with
      hsp := { s.hsp with
        reqBodyOutReady := r.hsp.reqBodyOutReady, dataInReady := r.hsp.dataInReady } } := by
    simp only [Reception.afterRead, hdata, hsock, List.append_nil, Option.getD_some]
    rw [← hhsp]
  rw [hsame]
  exact ⟨hinv.waiting, hinv.headers, hinv.incomplete, hinv.body, hinv.handling, hinv.sending⟩

/-! ### The headers -/

/-- Reading headers keeps the framing: nothing has been delivered yet. -/
theorem headers_inv {stream : List UInt8} {s s' : Reception} {room avail : ℕ}
    (hinv : s.Inv stream) (hstep : s.step env (.headers room avail) = some s') :
    s'.Inv stream := by
  obtain ⟨hst, hmap⟩ := Option.ite_none_right_eq_some.mp hstep
  obtain ⟨⟨hsp', sock'⟩, hread, rfl⟩ := Option.map_eq_some_iff.mp hmap
  obtain ⟨rfl, hcases⟩ := dataInReadHeaders_cases hread
  obtain ⟨hreq, hdel, hbytes⟩ := hinv.headers hst
  obtain ⟨hopen, hbuf, hreq'⟩ :=
    collectHeaders_spec (s.sock.dataRecvRead room avail).1 hst hinv.waiting
  rw [hreq] at hreq'
  generalize s.hsp.collectHeaders (s.sock.dataRecvRead room avail).1 = hsp₁ at *
  have hbytes' : hsp₁.readBuf ++ (s.sock.dataRecvRead room avail).2.incoming = stream := by
    rw [hbuf, Socket.dataRecvRead_data, Socket.dataRecvRead_incoming, List.append_assoc,
      List.take_append_drop, hbytes]
  cases hcases with
  | pending =>
    exact ⟨by simp [hopen], fun _ => ⟨hreq', hdel, hbytes'⟩, by simp [hopen], by simp [hopen],
      by simp [hopen], by simp [hopen]⟩
  | bad hbad =>
    obtain ⟨hsend, hsame, -, -⟩ := badRequest_spec hopen hbad
    exact ⟨by simp [hsend], by simp [hsend], by simp [hsend], by simp [hsend], by simp [hsend],
      fun _ => hsame.trans hreq' ▸ not_sized_zero⟩
  | @request e b head hfind hparse =>
    have hfresh := requestReceived_fresh hsp₁ head (hsp₁.readBuf.drop b)
    generalize hsp₁.requestReceived head.request (hsp₁.readBuf.drop b) = hsp' at *
    have hlen : hsp'.req.contentLength = head.request.contentLength := by rw [hfresh.req_eq]
    have hsob : hsp'.startOfBody = b := by
      simp [Hsp.startOfBody, hfresh.readBuf_eq, hfind]
    have hstate := hfresh.state_eq
    rw [← hlen] at hstate
    by_cases hzero : hsp'.req.contentLength = 0
    · rw [if_neg (not_not.mpr hzero)] at hstate
      exact ⟨by simp [hstate], by simp [hstate], by simp [hstate], by simp [hstate],
        fun _ h => absurd hzero h.2.ne', by simp [hstate]⟩
    · rw [if_pos hzero] at hstate
      have hcount : hsp'.req.contentReceived = 0 := by rw [hfresh.req_eq]; rfl
      have hmore : hsp'.req.chunkedContentComplete = false := by rw [hfresh.req_eq]; rfl
      refine ⟨by simp [hstate], by simp [hstate], fun _ => ?_, fun _ hsized => ?_,
        by simp [hstate], by simp [hstate]⟩
      · simp only [HttpRequest.isRequestBodyComplete, hmore, hcount]
        simp
      · have hpos : 0 < hsp'.req.contentLength := hsized.2
        refine ⟨hmore, by simp [hcount, hdel], by simpa [hdel] using hpos, ?_⟩
        simp only [hdel, List.nil_append, hsob, hfresh.chunk_eq, ← hbytes']
        rw [List.drop_append_of_le_length (findEndOfHttpHeaders_le hfind)]

/-! ### Whole runs -/

/-- A transition keeps the framing exactly if it is not a read that reaches beyond the body. -/
theorem reception_step_framed {stream : List UInt8} (s : Reception) (e : ReceptionEvent)
    (s' : Reception) (hinv : s.Inv stream) (hstep : s.step env e = some s') :
    (Framed stream s' ↔ NoSurplus s e) ∧ (Framed stream s' → s'.Inv stream) := by
  have hkeep : s'.Inv stream → NoSurplus s e →
      (Framed stream s' ↔ NoSurplus s e) ∧ (Framed stream s' → s'.Inv stream) :=
    fun hinv' hfits => ⟨⟨fun _ => hfits, fun _ => hinv'.framed⟩, fun _ => hinv'⟩
  cases e with
  | arrival =>
    obtain rfl := Option.some.inj hstep
    exact hkeep ⟨hinv.waiting, hinv.headers, hinv.incomplete, hinv.body, hinv.handling,
      hinv.sending⟩ trivial
  | headers room avail => exact hkeep (headers_inv hinv hstep) trivial
  | read size avail =>
    by_cases hst : s.hsp.state = .receivingBody
    · exact read_framed_iff hinv hst hstep
    · exact hkeep (read_idle hinv hst hstep) fun h => absurd h hst

/-- A connection that waits for a request, as `nxd_http_server_proto_connect` and
`request_cleanup` leave it. -/
def Reception.start (hsp : Hsp) (sock : Socket) : Reception where
  hsp := { hsp with state := .waitingForRequest, readBuf := [], req := {} }
  sock := sock

theorem Reception.start_inv (hsp : Hsp) (sock : Socket) :
    (Reception.start hsp sock).Inv sock.incoming := by
  constructor <;> simp [Reception.start]

/-- For every fragmentation of the client's bytes, whatever follows the body, and every sequence
of read sizes: what has been returned to the consumer of a body of `Content-Length` bytes is at
all times the beginning of the bytes after the header block, not longer than the body, and the
whole body once that is complete, if and only if no read reaches beyond the end of the body. -/
theorem reception_framed_iff (env : ServerEnv) (hsp : Hsp) (sock : Socket)
    (es : List ReceptionEvent) :
    Along (Reception.step env) (fun _ _ s' => Framed sock.incoming s') (.start hsp sock) es ↔
      Along (Reception.step env) (fun s e _ => NoSurplus s e) (.start hsp sock) es :=
  along_iff reception_step_framed es (Reception.start_inv hsp sock)

/-- A server whose parser finds a body of one byte. -/
def oneByteEnv : ServerEnv where
  revision := []
  parseHttpRequest := fun _ => some { postMethod := true, keepAlive := true, contentLength := 1 }
  openFile := fun _ => -1
  prepareResponseHeaders := fun _ => []

/-- A request with a body of one byte, and one byte of the next request. -/
def oneByteRequest : List UInt8 :=
  bytes "POST / HTTP/1.1\r\nHost: a\r\nContent-Length: 1\r\n\r\nab"

/-- Everything arrives at once, and the consumer reads with room for more than the body. -/
def oneByteRun : List ReceptionEvent := [.headers 4096 4096, .read 16384 0]

theorem oneByteRun_delivers :
    (run (Reception.step oneByteEnv) (.start {} { incoming := oneByteRequest }) oneByteRun).map
        (fun s => (s.hsp.req.chunkedEncoding, s.hsp.req.contentLength, s.delivered)) =
      some (false, 1, bytes "ab") := by
  decide +kernel

/-- In this run the consumer gets the byte behind the body as well. -/
theorem reception_surplus :
    (run (Reception.step oneByteEnv) (.start {} { incoming := oneByteRequest }) oneByteRun).map
        (fun s => (s.hsp.req.chunkedEncoding, s.hsp.req.contentLength, s.delivered)) =
      some (false, 1, bytes "ab") ∧
    ¬ Along (Reception.step oneByteEnv) (fun _ _ s' => Framed oneByteRequest s')
      (.start {} { incoming := oneByteRequest }) oneByteRun := by
  refine ⟨oneByteRun_delivers, fun h => ?_⟩
  obtain ⟨s, hrun, heq⟩ := Option.map_eq_some_iff.mp oneByteRun_delivers
  obtain ⟨hch, hlen, hdel⟩ : s.hsp.req.chunkedEncoding = false ∧ s.hsp.req.contentLength = 1 ∧
      s.delivered = bytes "ab" := by simpa using heq
  have hframed : Framed oneByteRequest s :=
    run_inv_of_along (I := Framed oneByteRequest) (fun _ _ _ _ _ hQ => hQ)
      (fun hsized => absurd hsized not_sized_zero) h hrun
  have hle := (List.prefix_take_iff.mp (hframed ⟨hch, by rw [hlen]; exact one_pos⟩).1).2
  rw [hdel, hlen] at hle
  revert hle
  decide

end Nxweb
