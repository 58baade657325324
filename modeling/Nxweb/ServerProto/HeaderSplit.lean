import Nxweb.Lib.Machine
import Nxweb.ServerProto.RequestBodySpec
import Nxweb.ServerProto.RequestHeaders

/-!
# Where the headers end

`data_in_do_read` scans all bytes of the header stream again after every read from the socket. The
search goes from left to right and looks back by three bytes at most, so what it finds in a
prefix of a stream is what it finds in the whole stream (`findEndOfHttpHeaders_take`). Hence the
way in which the stream is cut into reads has no influence on the header block that is parsed or
on the bytes behind it (`headerReading_step`).

The parser is called with the bytes in front of the end of the headers, and the arguments of its
calls are kept in the ghost field `parsed`.
-/

namespace Nxweb

open Lib

/-! ### The search -/

/-- The test that the search makes at a line feed. -/
def headersEndAt (buf : List UInt8) (p : ℕ) : Option (ℕ × ℕ) :=
  if buf[p]? = some lf then
    if buf[p - 1]? = some lf then some (p - 1, p + 1)
    else if buf[p - 3]? = some cr ∧ buf[p - 2]? = some lf ∧ buf[p - 1]? = some cr then
      some (p - 3, p + 1)
    else none
  else none

theorem findEndOfHttpHeaders_eq (buf : List UInt8) :
    findEndOfHttpHeaders buf = (List.range' 3 (buf.length - 3)).findSome? (headersEndAt buf) :=
  rfl

/-- The headers end in front of the line feed that was found, and the body starts behind it. -/
theorem headersEndAt_bounds {buf : List UInt8} {p e b : ℕ} (h : headersEndAt buf p = some (e, b)) :
    e ≤ p ∧ b = p + 1 := by
  unfold headersEndAt at h
  split_ifs at h
  · obtain ⟨rfl, rfl⟩ := Prod.mk.inj (Option.some.inj h)
    exact ⟨Nat.sub_le p 1, rfl⟩
  · obtain ⟨rfl, rfl⟩ := Prod.mk.inj (Option.some.inj h)
    exact ⟨Nat.sub_le p 3, rfl⟩

/-- The headers end in front of the body. -/
theorem findEndOfHttpHeaders_lt {buf : List UInt8} {e b : ℕ}
    (h : findEndOfHttpHeaders buf = some (e, b)) : e < b := by
  obtain ⟨p, -, hfound⟩ := List.exists_of_findSome?_eq_some h
  have hbounds := headersEndAt_bounds hfound
  omega

/-- The test looks at nothing behind the line feed. -/
theorem headersEndAt_take (buf : List UInt8) {n p : ℕ} (hp : p < n) :
    headersEndAt (buf.take n) p = headersEndAt buf p := by
  have hget : ∀ q ≤ p, (buf.take n)[q]? = buf[q]? := by
    intro q hq
    exact List.getElem?_take_of_lt (by omega)
  unfold headersEndAt
  rw [hget p le_rfl, hget (p - 1) (Nat.sub_le p 1), hget (p - 3) (Nat.sub_le p 3),
    hget (p - 2) (Nat.sub_le p 2)]

/-- The search in a prefix is the first part of the search. -/
theorem findEndOfHttpHeaders_split (buf : List UInt8) {n : ℕ} (hn : n ≤ buf.length) :
    findEndOfHttpHeaders buf = (findEndOfHttpHeaders (buf.take n)).or
      ((List.range' (max 3 n) (buf.length - max 3 n)).findSome? (headersEndAt buf)) := by
  have hrange : List.range' 3 (buf.length - 3) =
      List.range' 3 (n - 3) ++ List.range' (max 3 n) (buf.length - max 3 n) := by
    rcases le_or_gt buf.length 3 with hlen | hlen
    · have hn0 : n - 3 = 0 := by omega
      have hlen0 : buf.length - 3 = 0 := by omega
      have hmax : buf.length - max 3 n = 0 := by omega
      rw [hn0, hlen0, hmax]
      rfl
    · have hstart : max 3 n = 3 + 1 * (n - 3) := by omega
      have hsize : buf.length - 3 = (n - 3) + (buf.length - max 3 n) := by omega
      rw [hsize, hstart, List.range'_append]
  have hpre : findEndOfHttpHeaders (buf.take n) =
      (List.range' 3 (n - 3)).findSome? (headersEndAt buf) := by
    rw [findEndOfHttpHeaders_eq, List.length_take, min_eq_left hn]
    rw [← List.head?_filterMap, ← List.head?_filterMap]
    refine congrArg List.head? (List.filterMap_congr ?_)
    intro p hp
    rw [List.mem_range'] at hp
    exact headersEndAt_take buf (by omega)
  rw [hpre, findEndOfHttpHeaders_eq, hrange, List.findSome?_append]

/-- In a prefix that reaches to the body the search finds the same end, and in a shorter one it
finds none. -/
theorem findEndOfHttpHeaders_take {buf : List UInt8} {e b n : ℕ}
    (h : findEndOfHttpHeaders buf = some (e, b)) (hn : n ≤ buf.length) :
    findEndOfHttpHeaders (buf.take n) = if b ≤ n then some (e, b) else none := by
  have hsplit := findEndOfHttpHeaders_split buf hn
  rw [h] at hsplit
  cases hpre : findEndOfHttpHeaders (buf.take n) with
  | none =>
    rw [hpre, Option.none_or] at hsplit
    -- what is found behind the prefix makes the body start there
    obtain ⟨p, hp, hfound⟩ := List.exists_of_findSome?_eq_some hsplit.symm
    rw [List.mem_range'] at hp
    have hb := headersEndAt_bounds hfound
    rw [if_neg (by omega)]
  | some found =>
    obtain ⟨e', b'⟩ := found
    rw [hpre, Option.some_or, Option.some.injEq, Prod.mk.injEq] at hsplit
    obtain ⟨rfl, rfl⟩ := hsplit
    have hle := findEndOfHttpHeaders_le hpre
    rw [List.length_take] at hle
    rw [if_pos (by omega)]

/-- Bytes behind the body do not change what the search finds. -/
theorem findEndOfHttpHeaders_append {buf : List UInt8} {e b : ℕ} (rest : List UInt8)
    (h : findEndOfHttpHeaders buf = some (e, b)) :
    findEndOfHttpHeaders (buf ++ rest) = some (e, b) := by
  have hsplit := findEndOfHttpHeaders_split (buf ++ rest) (n := buf.length) (by simp)
  rw [List.take_left, h, Option.some_or] at hsplit
  exact hsplit

/-! ### Reading the headers -/

/-- A connection that receives headers, and the arguments of the calls of
`_nxweb_parse_http_request`. -/
structure HeaderReading where
  hsp : Hsp
  sock : Socket
  parsed : List (List UInt8) := []
  deriving DecidableEq, Repr

/-- The header bytes on which a call of `data_in_do_read` runs the parser. -/
def Hsp.parserArgument (hsp : Hsp) (data : List UInt8) : Option (List UInt8) :=
  if data = [] then none
  else
    (findEndOfHttpHeaders (hsp.collectHeaders data).readBuf).map fun (endOfHeaders, _) =>
      (hsp.collectHeaders data).readBuf.take endOfHeaders

/-- One call of `data_in_do_read` before the end of the headers, with room for `room` bytes and
after `avail` bytes have arrived. -/
def HeaderReading.step (env : ServerEnv) (r : HeaderReading) (read : ℕ × ℕ) :
    Option HeaderReading :=
  if r.hsp.state = .waitingForRequest ∨ r.hsp.state = .receivingHeaders then
    (r.hsp.dataInReadHeaders env r.sock read.1 read.2).map fun (hsp, sock) =>
      { hsp
        sock
        parsed := r.parsed ++
          (r.hsp.parserArgument (r.sock.dataRecvRead read.1 read.2).1).toList }
  else none

/-- What has become of the stream `s` whose header block ends at `e` and whose body starts at
`b`. -/
inductive HeaderSplit (env : ServerEnv) (s : List UInt8) (e b : ℕ) (r : HeaderReading) : Prop
  /-- Less than the header block has been read, and nothing was parsed. -/
  | pending (hstate : r.hsp.state = .waitingForRequest ∨ r.hsp.state = .receivingHeaders)
      (hbuf : r.hsp.state = .receivingHeaders → r.hsp.readBuf ++ r.sock.incoming = s)
      (hfirst : r.hsp.state = .waitingForRequest → r.sock.incoming = s)
      (hshort : s.length < b + r.sock.incoming.length) (hparsed : r.parsed = [])
  /-- The header block was parsed once, and what follows it is still there. -/
  | received {head : RequestHead} (hparsed : r.parsed = [s.take e])
      (hhead : env.parseHttpRequest (s.take e) = some head)
      (hreq : r.hsp.req =
        { head.request with sending100Continue := r.hsp.req.sending100Continue })
      (hstate : r.hsp.state = if head.request.contentLength ≠ 0 then .receivingBody else .handling)
      (hrest : r.hsp.firstBodyChunk ++ r.sock.incoming = s.drop b)
  /-- The header block was parsed once and refused. -/
  | refused (hparsed : r.parsed = [s.take e]) (hhead : env.parseHttpRequest (s.take e) = none)
      (hstate : r.hsp.state = .sendingHeaders)

/-- The bytes in the arena and those at the socket make up the stream. -/
theorem HeaderSplit.collect {s : List UInt8} {r : HeaderReading} (data rest : List UInt8)
    (hstate : r.hsp.state = .waitingForRequest ∨ r.hsp.state = .receivingHeaders)
    (hbuf : r.hsp.state = .receivingHeaders → r.hsp.readBuf ++ r.sock.incoming = s)
    (hfirst : r.hsp.state = .waitingForRequest → r.sock.incoming = s)
    (hdata : data ++ rest = r.sock.incoming) :
    (r.hsp.collectHeaders data).state = .receivingHeaders ∧
      (r.hsp.collectHeaders data).readBuf ++ rest = s := by
  unfold Hsp.collectHeaders
  split_ifs with hwait
  · exact ⟨rfl, hdata.trans (hfirst hwait)⟩
  · have hrecv := hstate.resolve_left hwait
    refine ⟨hrecv, ?_⟩
    show (r.hsp.readBuf ++ data) ++ rest = s
    rw [List.append_assoc, hdata]
    exact hbuf hrecv

/-- A bad request is always answered. -/
theorem badRequest_isSome (env : ServerEnv) (hsp : Hsp) : (hsp.badRequest env).isSome := by
  unfold Hsp.badRequest Hsp.startSendingResponse
  simp only [HttpResponse.sendHttpError, HttpResponse.init, Bool.false_eq_true, false_and, if_false]
  split_ifs <;> rfl

/-- What `data_in_do_read` does with the bytes that it has read, when the header block of the
stream is short enough. -/
theorem headerReading_step {env : ServerEnv} {s : List UInt8} {e b : ℕ} {r : HeaderReading}
    (hfind : findEndOfHttpHeaders s = some (e, b)) (hb : b < maxRequestHeadersSize)
    (hr : HeaderSplit env s e b r) (read : ℕ × ℕ)
    (hst : r.hsp.state = .waitingForRequest ∨ r.hsp.state = .receivingHeaders) :
    ∃ r', r.step env read = some r' ∧ HeaderSplit env s e b r' := by
  obtain ⟨hbuf, hfirst, hshort, hparsed⟩ : (r.hsp.state = .receivingHeaders →
      r.hsp.readBuf ++ r.sock.incoming = s) ∧
      (r.hsp.state = .waitingForRequest → r.sock.incoming = s) ∧
      s.length < b + r.sock.incoming.length ∧ r.parsed = [] := by
    cases hr with
    | pending _ hbuf hfirst hshort hparsed => exact ⟨hbuf, hfirst, hshort, hparsed⟩
    | received _ _ _ hstate _ =>
      rw [hstate] at hst
      split_ifs at hst <;> simp at hst
    | refused _ _ hstate =>
      rw [hstate] at hst
      simp at hst
  have hdata := r.sock.dataRecvRead_data read.1 read.2
  have hrest := r.sock.dataRecvRead_incoming read.1 read.2
  unfold HeaderReading.step Hsp.dataInReadHeaders Hsp.parserArgument
  rw [if_pos hst]
  generalize r.sock.dataRecvRead read.1 read.2 = rd at hdata hrest ⊢
  obtain ⟨data, sock⟩ := rd
  dsimp only at hdata hrest ⊢
  have hparts : data ++ sock.incoming = r.sock.incoming := by
    rw [hdata, hrest, List.take_append_drop]
  obtain ⟨hstate, hall⟩ := HeaderSplit.collect data sock.incoming hst hbuf hfirst hparts
  generalize r.hsp.collectHeaders data = hsp at hstate hall ⊢
  have hlen : s.length = hsp.readBuf.length + sock.incoming.length := by
    rw [← hall, List.length_append]
  -- the arena holds a prefix of the stream
  have hpre : hsp.readBuf = s.take hsp.readBuf.length := by
    rw [← hall, List.take_left]
  have hsearch := findEndOfHttpHeaders_take (n := hsp.readBuf.length) hfind (by omega)
  rw [← hpre] at hsearch
  by_cases hnil : data = []
  · refine ⟨⟨hsp, sock, r.parsed⟩, by simp [hnil], ?_⟩
    have hsame : sock.incoming = r.sock.incoming := by rw [← hparts, hnil, List.nil_append]
    refine .pending (.inr hstate) (fun _ => hall) (fun hwait => ?_) (hsame ▸ hshort) hparsed
    rw [hstate] at hwait
    cases hwait
  rcases Nat.lt_or_ge hsp.readBuf.length b with hlt | hge
  · -- the end of the headers has not been read yet
    rw [if_neg (by omega)] at hsearch
    refine ⟨⟨hsp, sock, r.parsed⟩, ?_, ?_⟩
    · simp [hnil, hsearch, show ¬ maxRequestHeadersSize ≤ hsp.readBuf.length by omega]
    · refine .pending (.inr hstate) (fun _ => hall) (fun hwait => ?_) ?_ hparsed
      · rw [hstate] at hwait
        cases hwait
      · show s.length < b + sock.incoming.length
        omega
  · rw [if_pos hge] at hsearch
    have htake : hsp.readBuf.take e = s.take e := by
      have hlt := findEndOfHttpHeaders_lt hfind
      rw [← hall, List.take_append_of_le_length (by omega)]
    cases hparse : env.parseHttpRequest (s.take e) with
    | none =>
      obtain ⟨hsp', hbad⟩ := Option.isSome_iff_exists.mp (badRequest_isSome env hsp)
      refine ⟨⟨hsp', sock, [s.take e]⟩, by simp [hnil, hsearch, htake, hparse, hbad, hparsed], ?_⟩
      exact .refused rfl hparse (badRequest_spec hstate hbad).1
    | some head =>
      refine ⟨⟨hsp.requestReceived head.request (hsp.readBuf.drop b), sock, [s.take e]⟩,
        by simp [hnil, hsearch, htake, hparse, hparsed], ?_⟩
      obtain ⟨hreq, hchunk, -, hstate'⟩ :=
        requestReceived_fresh hsp head (hsp.readBuf.drop b)
      refine .received rfl hparse hreq hstate' ?_
      show (hsp.requestReceived head.request (hsp.readBuf.drop b)).firstBodyChunk ++
        sock.incoming = s.drop b
      rw [hchunk, ← hall, List.drop_append_of_le_length hge]

/-- Nothing has been read. -/
theorem headerSplit_init {env : ServerEnv} {hsp : Hsp} {sock : Socket} {e b : ℕ}
    (hwait : hsp.state = .waitingForRequest)
    (hfind : findEndOfHttpHeaders sock.incoming = some (e, b)) :
    HeaderSplit env sock.incoming e b ⟨hsp, sock, []⟩ := by
  refine .pending (.inl hwait) (fun hrecv => ?_) (fun _ => rfl) ?_ rfl
  · rw [hwait] at hrecv
    cases hrecv
  · have hlt := findEndOfHttpHeaders_lt hfind
    show sock.incoming.length < b + sock.incoming.length
    omega

end Nxweb
