import Nxweb.Http.RequestMemory

/-!
# The header block is parsed where it was received

`data_in_do_read` calls `_nxweb_parse_http_request` on the arena that it reads into. Behind the
header block the arena has the bytes of the stream that were read together with it, and behind those
what it had before. The parser looks there if the last `Accept-Encoding` header is empty and ends
the block, and if the last `If-Modified-Since` header is at the end of a block that ends with two
line feeds. Then the result depends on how the stream was cut into reads. The header bytes that are
parsed and the bytes behind them never do (`headerReading_step`).

The objects that the parser allocates come from the other end of the arena and are not in the model.

## Main definitions

* `RequestReading.step`: `data_in_do_read` up to the end of the headers, with the arena;
* `SplitsAlike`: the cut has no influence;
* `ReadsKnownBytes`: the parser looks at nothing that depends on the cut.

## Main results

* `sameResult_iff`: when the parser returns the same for every read that has the header block;
* `splitsAlike_iff`: when the cut has no influence.
-/

namespace Nxweb

open Lib

/-! ### Reading into the arena -/

/-- What lies behind the terminator of the headers that end at `e`, when `buf` has been read into
the arena. -/
def behindHeaders (arena buf : List UInt8) (e : ℕ) : List UInt8 :=
  (buf ++ arena.drop buf.length).drop (e + 1)

/-- What the connection keeps of a request. -/
def RequestFields.head (req : RequestFields) : RequestHead where
  headMethod := req.headMethod
  getMethod := req.getMethod
  postMethod := req.postMethod
  otherMethod := req.otherMethod
  keepAlive := req.keepAlive
  uri := req.uri.map fun uri => ⟨cstr uri, zero_notMem_cstr uri⟩
  host := req.host.map fun host => ⟨cstr host, zero_notMem_cstr host⟩
  ifModifiedSince := req.ifModifiedSince
  contentLength := req.contentLength
  chunkedEncoding := req.chunkedEncoding
  expect := req.expect100Continue

/-- The server, where the parser returns this result. -/
def ServerEnv.returning (env : ServerEnv) (result : Except ℤ RequestFields) : ServerEnv :=
  { env with parseHttpRequest := fun _ => result.toOption.map RequestFields.head }

/-- A connection that receives headers, and the results of the parser. -/
structure RequestReading extends HeaderReading where
  results : List (Except ℤ RequestFields) := []

/-- One call of `data_in_do_read` before the end of the headers. The parser is run on the arena,
with the bytes that have been read. -/
def RequestReading.step (env : ServerEnv) (arena : List UInt8) (r : RequestReading)
    (read : ℕ × ℕ) : Option RequestReading :=
  let data := (r.sock.dataRecvRead read.1 read.2).1
  let buf := (r.hsp.collectHeaders data).readBuf
  (r.hsp.parserArgument data).elim
    -- the parser is not called
    ((r.toHeaderReading.step env read).map fun next => { next with results := r.results })
    fun block => do
      let result ← (parseHttpRequestAt (behindHeaders arena buf block.length) block).result
      let next ← r.toHeaderReading.step (env.returning result) read
      return { next with results := r.results ++ [result] }

/-! ### The property -/

/-- What has become of the stream `s` whose header block ends at `e` and whose body starts at `b`,
if the parser returns this result. -/
structure RequestSplit (env : ServerEnv) (s : List UInt8) (e b : ℕ)
    (result : Except ℤ RequestFields) (r : RequestReading) : Prop where
  split : HeaderSplit (env.returning result) s e b r.toHeaderReading
  results_eq : r.results = r.parsed.map fun _ => result

/-- Whatever the arena has held, with a zero byte somewhere behind the bytes of the stream, the
header block is parsed once and with one result, however the stream is cut into reads, and the bytes
behind it are kept. A read can always be made before that. -/
def SplitsAlike (env : ServerEnv) (hsp : Hsp) (sock : Socket) (e b : ℕ) : Prop :=
  ∀ arena, 0 ∈ arena.drop (sock.incoming.length + 3) → ∃ result, ∀ reads r,
    run (RequestReading.step env arena) { hsp, sock } reads = some r →
      RequestSplit env sock.incoming e b result r ∧
        (r.parsed = [] → ∀ read, (r.step env arena read).isSome)

/-- The parser returns the same, however many bytes have been read when it is called. -/
def SameResult (s : List UInt8) (e b : ℕ) : Prop :=
  ∀ arena, 0 ∈ arena.drop (s.length + 3) → ∃ result, ∀ n, b ≤ n → n ≤ s.length →
    (parseHttpRequestAt (behindHeaders arena (s.take n) e) (s.take e)).result = some result

/-- The request is refused, or the parser looks at no byte that may have been read or not. An
`Accept-Encoding` header that is empty and ends the block is followed by nothing. If the block ends
with two line feeds, the stream ends in front of the fourth byte from the value of the
`If-Modified-Since` header on, or this byte belongs to the block. -/
def ReadsKnownBytes (s : List UInt8) (e b : ℕ) : Prop :=
  (∃ code, parseHttpRequest (s.take e) = .error code) ∨
    (∀ h ∈ lastHeader .acceptEncoding (s.take e), h.toEnd = [] → s.length ≤ b) ∧
      ∀ h ∈ lastHeader .ifModifiedSince (s.take e), b = e + 2 → h.toEnd.length ≤ 1 →
        s.length ≤ b + 1 - h.toEnd.length

/-! ### One call -/

/-- Where the parser is not called, it does not matter. -/
theorem step_returning {r : HeaderReading} {read : ℕ × ℕ}
    (h : r.hsp.parserArgument (r.sock.dataRecvRead read.1 read.2).1 = none) (env : ServerEnv)
    (result : Except ℤ RequestFields) : r.step (env.returning result) read = r.step env read := by
  unfold HeaderReading.step
  split_ifs
  · congr 1
    unfold Hsp.dataInReadHeaders
    unfold Hsp.parserArgument at h
    generalize r.sock.dataRecvRead read.1 read.2 = rd at h ⊢
    obtain ⟨data, sock⟩ := rd
    dsimp only at h ⊢
    by_cases hdata : data = []
    · simp only [hdata, if_true]
    · rw [if_neg hdata, Option.map_eq_none_iff] at h
      simp only [if_neg hdata, h]
      rfl
  · rfl

/-- The headers end inside the stream. -/
theorem length_take_endOfHeaders {s : List UInt8} {e b : ℕ}
    (hfind : findEndOfHttpHeaders s = some (e, b)) : (s.take e).length = e := by
  have he := findEndOfHttpHeaders_lt hfind
  have hb := findEndOfHttpHeaders_le hfind
  rw [List.length_take]
  omega

/-- Where it is called, it is called on the header block, and the arena holds the part of the stream
that has been read. -/
theorem parserArgument_eq_some {env : ServerEnv} {s : List UInt8} {e b : ℕ} {r : HeaderReading}
    {read : ℕ × ℕ} {block : List UInt8} (hfind : findEndOfHttpHeaders s = some (e, b))
    (hr : HeaderSplit env s e b r)
    (hst : r.hsp.state = .waitingForRequest ∨ r.hsp.state = .receivingHeaders)
    (h : r.hsp.parserArgument (r.sock.dataRecvRead read.1 read.2).1 = some block) :
    r.parsed = [] ∧ block = s.take e ∧ ∃ n, b ≤ n ∧ n ≤ s.length ∧
      (r.hsp.collectHeaders (r.sock.dataRecvRead read.1 read.2).1).readBuf = s.take n := by
  cases hr with
  | received _ _ _ hstate _ =>
    rw [hstate] at hst
    split_ifs at hst <;> simp at hst
  | refused _ _ hstate =>
    rw [hstate] at hst
    simp at hst
  | pending _ hbuf hfirst _ hparsed =>
    have hdata := r.sock.dataRecvRead_data read.1 read.2
    have hrest := r.sock.dataRecvRead_incoming read.1 read.2
    unfold Hsp.parserArgument at h
    generalize r.sock.dataRecvRead read.1 read.2 = rd at h hdata hrest ⊢
    obtain ⟨data, sock⟩ := rd
    dsimp only at h hdata hrest ⊢
    have hparts : data ++ sock.incoming = r.sock.incoming := by
      rw [hdata, hrest, List.take_append_drop]
    obtain ⟨-, hall⟩ := HeaderSplit.collect data sock.incoming hst hbuf hfirst hparts
    generalize r.hsp.collectHeaders data = hsp at h hall ⊢
    have hpre : hsp.readBuf = s.take hsp.readBuf.length := by rw [← hall, List.take_left]
    have hlen : hsp.readBuf.length ≤ s.length := by
      rw [← hall, List.length_append]
      omega
    have hsearch := findEndOfHttpHeaders_take hfind hlen
    rw [← hpre] at hsearch
    obtain ⟨-, hblock⟩ := Option.ite_none_left_eq_some.mp h
    obtain ⟨found, hfound, rfl⟩ := Option.map_eq_some_iff.mp hblock
    rw [hfound] at hsearch
    obtain ⟨hb, heq⟩ := Option.ite_none_right_eq_some.mp hsearch.symm
    obtain rfl := Option.some.inj heq
    have he := findEndOfHttpHeaders_lt hfind
    refine ⟨hparsed, ?_, hsp.readBuf.length, hb, hlen, hpre⟩
    show hsp.readBuf.take e = s.take e
    rw [hpre, List.take_take, min_eq_left (by omega)]

namespace RequestReading

variable {env : ServerEnv} {arena : List UInt8} {r : RequestReading} {read : ℕ × ℕ}

/-- A call that does not find the end of the headers. -/
theorem step_of_none (h : r.hsp.parserArgument (r.sock.dataRecvRead read.1 read.2).1 = none) :
    r.step env arena read =
      (r.toHeaderReading.step env read).map fun next => { next with results := r.results } := by
  simp only [step, h, Option.elim_none]

/-- A call that finds it. -/
theorem step_of_some {block buf : List UInt8}
    (h : r.hsp.parserArgument (r.sock.dataRecvRead read.1 read.2).1 = some block)
    (hbuf : (r.hsp.collectHeaders (r.sock.dataRecvRead read.1 read.2).1).readBuf = buf) :
    r.step env arena read =
      (parseHttpRequestAt (behindHeaders arena buf block.length) block).result.bind fun result =>
        (r.toHeaderReading.step (env.returning result) read).bind fun next =>
          some { next with results := r.results ++ [result] } := by
  simp only [step, h, hbuf, Option.elim_some]
  rfl

/-- Only headers are read. -/
theorem state_of_step {r' : RequestReading} (h : r.step env arena read = some r') :
    r.hsp.state = .waitingForRequest ∨ r.hsp.state = .receivingHeaders := by
  by_contra hst
  have hstep : ∀ env : ServerEnv, r.toHeaderReading.step env read = none := fun _ => if_neg hst
  cases harg : r.hsp.parserArgument (r.sock.dataRecvRead read.1 read.2).1 with
  | none =>
    rw [step_of_none harg, hstep] at h
    cases h
  | some block =>
    rw [step_of_some harg rfl] at h
    obtain ⟨result, -, hnext⟩ := Option.bind_eq_some_iff.mp h
    rw [hstep] at hnext
    cases hnext

end RequestReading

/-- A first read that has the whole header block. -/
theorem parserArgument_take {hsp : Hsp} {sock : Socket} {e b n : ℕ}
    (hwait : hsp.state = .waitingForRequest)
    (hfind : findEndOfHttpHeaders sock.incoming = some (e, b)) (hbn : b ≤ n)
    (hns : n ≤ sock.incoming.length) :
    hsp.parserArgument (sock.dataRecvRead n n).1 = some (sock.incoming.take e) ∧
      (hsp.collectHeaders (sock.dataRecvRead n n).1).readBuf = sock.incoming.take n := by
  have he := findEndOfHttpHeaders_lt hfind
  have hdata : (sock.dataRecvRead n n).1 = sock.incoming.take n := by
    rw [Socket.dataRecvRead_data, min_self]
  have hbuf : (hsp.collectHeaders (sock.incoming.take n)).readBuf = sock.incoming.take n := by
    rw [Hsp.collectHeaders, if_pos hwait]
    rfl
  have hne : sock.incoming.take n ≠ [] := by
    rw [← List.length_pos_iff, List.length_take]
    omega
  rw [hdata]
  refine ⟨?_, hbuf⟩
  rw [Hsp.parserArgument, if_neg hne, hbuf, findEndOfHttpHeaders_take hfind hns, if_pos hbn]
  show some ((sock.incoming.take n).take e) = some (sock.incoming.take e)
  rw [List.take_take, min_eq_left (by omega)]

/-- One call keeps the split. -/
theorem requestReading_step {env : ServerEnv} {arena s : List UInt8} {e b : ℕ}
    {result : Except ℤ RequestFields} {r : RequestReading}
    (hfind : findEndOfHttpHeaders s = some (e, b)) (hb : b < maxRequestHeadersSize)
    (hresult : ∀ n, b ≤ n → n ≤ s.length →
      (parseHttpRequestAt (behindHeaders arena (s.take n) e) (s.take e)).result = some result)
    (hr : RequestSplit env s e b result r) (read : ℕ × ℕ)
    (hst : r.hsp.state = .waitingForRequest ∨ r.hsp.state = .receivingHeaders) :
    ∃ r', r.step env arena read = some r' ∧ RequestSplit env s e b result r' := by
  obtain ⟨next, hnext, hsplit⟩ := headerReading_step hfind hb hr.split read hst
  have hparsed : next.parsed = r.parsed ++
      (r.hsp.parserArgument (r.sock.dataRecvRead read.1 read.2).1).toList := by
    unfold HeaderReading.step at hnext
    rw [if_pos hst] at hnext
    obtain ⟨_, -, rfl⟩ := Option.map_eq_some_iff.mp hnext
    rfl
  cases harg : r.hsp.parserArgument (r.sock.dataRecvRead read.1 read.2).1 with
  | none =>
    rw [step_returning harg] at hnext
    rw [harg, Option.toList_none, List.append_nil] at hparsed
    refine ⟨{ next with results := r.results }, ?_, hsplit, ?_⟩
    · rw [RequestReading.step_of_none harg, hnext]
      rfl
    · show r.results = next.parsed.map fun _ => result
      rw [hparsed]
      exact hr.results_eq
  | some block =>
    obtain ⟨hnil, rfl, n, hbn, hns, hbuf⟩ := parserArgument_eq_some hfind hr.split hst harg
    have hlen := length_take_endOfHeaders hfind
    rw [harg, hnil] at hparsed
    refine ⟨{ next with results := r.results ++ [result] }, ?_, hsplit, ?_⟩
    · rw [RequestReading.step_of_some harg hbuf, hlen, hresult n hbn hns, Option.bind_some, hnext,
        Option.bind_some]
    · show r.results ++ [result] = next.parsed.map fun _ => result
      rw [hparsed, hr.results_eq, hnil]
      rfl

section Split

variable {env : ServerEnv} {hsp : Hsp} {sock : Socket} {e b : ℕ}

/-- The cut has no influence if and only if the parser returns the same for every cut. -/
theorem splitsAlike_iff_sameResult (env : ServerEnv) (hwait : hsp.state = .waitingForRequest)
    (hfind : findEndOfHttpHeaders sock.incoming = some (e, b)) (hb : b < maxRequestHeadersSize) :
    SplitsAlike env hsp sock e b ↔ SameResult sock.incoming e b := by
  refine forall_congr' fun arena => forall_congr' fun _ => exists_congr fun result => ?_
  constructor
  · intro h n hbn hns
    have hstart := (h [] { hsp, sock } rfl).2 rfl (n, n)
    obtain ⟨r, hr⟩ := Option.isSome_iff_exists.mp hstart
    obtain ⟨⟨-, hresults⟩, -⟩ := h [(n, n)] r (run_single hr)
    -- this read has the whole header block
    obtain ⟨harg, hbuf⟩ := parserArgument_take hwait hfind hbn hns
    have hlen := length_take_endOfHeaders hfind
    rw [RequestReading.step_of_some harg hbuf, hlen] at hr
    obtain ⟨found, hfound, hrest⟩ := Option.bind_eq_some_iff.mp hr
    obtain ⟨next, hnext, hr'⟩ := Option.bind_eq_some_iff.mp hrest
    obtain rfl := Option.some.inj hr'
    have hmem : found ∈ next.parsed.map fun _ => result := by
      rw [← hresults]
      exact List.mem_singleton_self found
    obtain ⟨-, -, rfl⟩ := List.mem_map.mp hmem
    exact hfound
  · intro h reads r hrun
    have hsplit : RequestSplit env sock.incoming e b result r := by
      refine run_inv (I := RequestSplit env sock.incoming e b result) ?_ ?_ hrun
      · intro r₁ read r₂ hr hstep
        have hst := RequestReading.state_of_step hstep
        obtain ⟨r', hr', hsplit⟩ := requestReading_step hfind hb h hr read hst
        obtain rfl := Option.some.inj (hr'.symm.trans hstep)
        exact hsplit
      · exact ⟨headerSplit_init hwait hfind, rfl⟩
    refine ⟨hsplit, fun hnone read => ?_⟩
    obtain ⟨hheaders, -⟩ := id hsplit
    cases hheaders with
    | pending hst =>
      obtain ⟨r', hr', -⟩ := requestReading_step hfind hb h hsplit read hst
      rw [hr']
      rfl
    | received hparsed => simp [hparsed] at hnone
    | refused hparsed => simp [hparsed] at hnone

end Split

/-! ### What lies behind the block -/

/-- A block ends with two line feeds, or with two whole line ends. -/
theorem drop_endOfHeaders {s : List UInt8} {e b : ℕ}
    (hfind : findEndOfHttpHeaders s = some (e, b)) :
    b = e + 2 ∧ s.drop e = lf :: lf :: s.drop b ∨
      b = e + 4 ∧ s.drop e = cr :: lf :: cr :: lf :: s.drop b := by
  obtain ⟨p, hp, hfound⟩ := List.exists_of_findSome?_eq_some hfind
  rw [List.mem_range'] at hp
  have hdrop : ∀ {i c}, s[i]? = some c → s.drop i = c :: s.drop (i + 1) := by
    intro i c hc
    obtain ⟨hlt, rfl⟩ := List.getElem?_eq_some_iff.mp hc
    exact List.drop_eq_getElem_cons hlt
  split_ifs at hfound with hlf hlflf hcrlf
  · obtain ⟨rfl, rfl⟩ := Prod.mk.inj (Option.some.inj hfound)
    refine .inl ⟨by omega, ?_⟩
    rw [hdrop hlflf, show p - 1 + 1 = p by omega, hdrop hlf]
  · obtain ⟨hcr, hlf', hcr'⟩ := hcrlf
    obtain ⟨rfl, rfl⟩ := Prod.mk.inj (Option.some.inj hfound)
    refine .inr ⟨by omega, ?_⟩
    rw [hdrop hcr, show p - 3 + 1 = p - 2 by omega, hdrop hlf', show p - 2 + 1 = p - 1 by omega,
      hdrop hcr', show p - 1 + 1 = p by omega, hdrop hlf]

section Arena

variable {arena s : List UInt8} {e n i : ℕ}

/-- The arena with the first `n` bytes of the stream. -/
theorem drop_behindHeaders (hns : n ≤ s.length) (k : ℕ) :
    (behindHeaders arena (s.take n) e).drop k = (s.take n ++ arena.drop n).drop (e + 1 + k) := by
  rw [behindHeaders, List.length_take, min_eq_left hns, List.drop_drop]

/-- What has not been read is what the arena had before. -/
theorem drop_arena_of_le (hni : n ≤ i) (hns : n ≤ s.length) :
    (s.take n ++ arena.drop n).drop i = arena.drop i := by
  have hlen : (s.take n).length = n := by
    rw [List.length_take, min_eq_left hns]
  rw [List.drop_append, List.drop_eq_nil_of_le (by omega), List.nil_append, List.drop_drop, hlen,
    Nat.add_sub_cancel' hni]

/-- What has been read is the stream. -/
theorem drop_arena_of_lt {c : UInt8} (hc : s[i]? = some c) (hin : i < n) (hns : n ≤ s.length) :
    (s.take n ++ arena.drop n).drop i = c :: (s.take n ++ arena.drop n).drop (i + 1) := by
  have hget : (s.take n ++ arena.drop n)[i]? = some c := by
    have hlen : i < (s.take n).length := by
      rw [List.length_take]
      omega
    rw [List.getElem?_append_left hlen, List.getElem?_take_of_lt hin, hc]
  obtain ⟨hlt, heq⟩ := List.getElem?_eq_some_iff.mp hget
  rw [List.drop_eq_getElem_cons hlt, heq]

/-- Behind the terminator there is the rest of the line ends, and the body. -/
theorem behindHeaders_eq {b : ℕ} (hfind : findEndOfHttpHeaders s = some (e, b)) :
    ∃ ends : List UInt8, (ends = [lf] ∨ ends = [lf, cr, lf]) ∧ b = e + 1 + ends.length ∧
      ∀ arena n, b ≤ n → n ≤ s.length →
        behindHeaders arena (s.take n) e = ends ++ (s.take n ++ arena.drop n).drop b := by
  have hget : ∀ k, s[e + k]? = (s.drop e)[k]? := fun k => List.getElem?_drop.symm
  have hbehind : ∀ {arena n}, n ≤ s.length → behindHeaders arena (s.take n) e =
      (s.take n ++ arena.drop n).drop (e + 1) := fun hns => drop_behindHeaders hns 0
  rcases drop_endOfHeaders hfind with ⟨rfl, hdrop⟩ | ⟨rfl, hdrop⟩
  · refine ⟨[lf], .inl rfl, rfl, fun arena n hbn hns => ?_⟩
    rw [hbehind hns, drop_arena_of_lt (c := lf) (by rw [hget, hdrop]; rfl) (by omega) hns]
    rfl
  · refine ⟨[lf, cr, lf], .inr rfl, rfl, fun arena n hbn hns => ?_⟩
    rw [hbehind hns, drop_arena_of_lt (c := lf) (by rw [hget, hdrop]; rfl) (by omega) hns,
      drop_arena_of_lt (c := cr) (by rw [Nat.add_assoc, hget, hdrop]; rfl) (by omega) hns,
      drop_arena_of_lt (c := lf) (by rw [Nat.add_assoc, Nat.add_assoc, hget, hdrop]; rfl) (by omega)
        hns]
    rfl

theorem zero_mem_drop_behindHeaders (h : 0 ∈ arena.drop (s.length + 3)) (hns : n ≤ s.length) (k : ℕ)
    (hk : e + 1 + k ≤ s.length + 3) : 0 ∈ (behindHeaders arena (s.take n) e).drop k := by
  rw [drop_behindHeaders hns]
  have harena : (s.take n ++ arena.drop n).drop (s.length + 3) = arena.drop (s.length + 3) :=
    drop_arena_of_le (by omega) hns
  exact List.drop_subset_drop_left _ hk (harena ▸ h)

theorem zero_mem_behindHeaders (h : 0 ∈ arena.drop (s.length + 3)) (hns : n ≤ s.length)
    (he : e + 1 ≤ s.length + 3) : 0 ∈ behindHeaders arena (s.take n) e := by
  have hmem := zero_mem_drop_behindHeaders h hns 0 he
  rwa [List.drop_zero] at hmem

end Arena

/-! ### When the result is the same -/

section Result

variable {arena s : List UInt8} {e b n : ℕ}

/-- A date that is read from bytes that do not depend on the cut. -/
theorem exists_date_eq (hfind : findEndOfHttpHeaders s = some (e, b)) (h : PlacedHeader)
    (hlast : b = e + 2 → h.toEnd.length ≤ 1 → s.length ≤ b + 1 - h.toEnd.length) :
    ∃ date, ∀ n, b ≤ n → n ≤ s.length →
      h.date (behindHeaders arena (s.take n) e) = date := by
  by_cases hlen : 3 ≤ h.toEnd.length
  · exact ⟨parseHttpTime h.toEnd, fun n _ _ => if_pos hlen⟩
  simp only [PlacedHeader.date, if_neg hlen]
  obtain ⟨ends, hends, hb, hbehind⟩ := behindHeaders_eq hfind
  by_cases hshort : b = e + 2 ∧ h.toEnd.length ≤ 1
  · -- the arena has what it had before
    have hle := hlast hshort.1 hshort.2
    refine ⟨dateFrom (arena.drop (e + 1 + (2 - h.toEnd.length))), fun n hbn hns => ?_⟩
    rw [drop_behindHeaders hns, drop_arena_of_le (by omega) hns]
  · -- a byte of the line ends is not the comma
    have hlt : 2 - h.toEnd.length < ends.length := by
      rcases hends with rfl | rfl <;> simp only [List.length_cons, List.length_nil] at hb ⊢ <;>
        omega
    have hall : ∀ c ∈ ends, c ≠ 44 := by rcases hends with rfl | rfl <;> decide
    have hcomma := hall _ (List.getElem_mem hlt)
    refine ⟨0, fun n hbn hns => ?_⟩
    rw [hbehind arena n hbn hns, List.drop_append_of_le_length hlt.le,
      List.drop_eq_getElem_cons hlt, List.cons_append, dateFrom_eq_zero hcomma]

/-- The parser returns the same if it looks at no byte that may have been read or not. -/
theorem sameResult_of_readsKnownBytes (hfind : findEndOfHttpHeaders s = some (e, b))
    (h : ReadsKnownBytes s e b) : SameResult s e b := by
  intro arena hzero
  rcases h with ⟨code, hcode⟩ | ⟨hflag, hdate⟩
  · exact ⟨.error code, fun n _ _ => result_parseHttpRequestAt_error hcode _⟩
  have hb := findEndOfHttpHeaders_le hfind
  have he := findEndOfHttpHeaders_lt hfind
  cases hparse : parseHttpRequest (s.take e) with
  | error code => exact ⟨.error code, fun n _ _ => result_parseHttpRequestAt_error hparse _⟩
  | ok req =>
    obtain ⟨flag, hflag⟩ : ∃ flag, ∀ n, b ≤ n → n ≤ s.length →
        (acceptGzipEncodingAt (behindHeaders arena (s.take n) e) (s.take e)).result =
          some flag := by
      by_cases hends : ∀ h ∈ lastHeader .acceptEncoding (s.take e), h.toEnd ≠ []
      · obtain ⟨flag, hresult⟩ := exists_forall_result_acceptGzipEncodingAt hends
        exact ⟨flag, fun n _ _ => hresult _⟩
      · -- all of the stream has been read
        push Not at hends
        obtain ⟨a, ha, hend⟩ := hends
        have hle := hflag a ha hend
        refine ⟨flagBehind (cstr (behindHeaders arena (s.take b) e)), fun n hbn hns => ?_⟩
        obtain rfl : n = b := by omega
        have hmem := zero_mem_behindHeaders (e := e) hzero hns (by omega)
        exact result_acceptGzipEncodingAt ha hend hmem
    obtain ⟨date, hdate⟩ : ∃ date, ∀ n, b ≤ n → n ≤ s.length →
        (lastHeader .ifModifiedSince (s.take e)).elim 0
          (·.date (behindHeaders arena (s.take n) e)) = date := by
      cases hlast : lastHeader .ifModifiedSince (s.take e) with
      | none => exact ⟨0, fun _ _ _ => rfl⟩
      | some h => exact exists_date_eq hfind h (hdate h hlast)
    refine ⟨.ok { req with acceptGzipEncoding := flag, ifModifiedSince := date },
      fun n hbn hns => ?_⟩
    have hmem := zero_mem_drop_behindHeaders (e := e) hzero hns 2 (by omega)
    rw [result_parseHttpRequestAt hparse hmem (hflag n hbn hns), hdate n hbn hns]

/-- Two reads that have the header block give the same two fields. -/
theorem SameResult.fields_eq (h : SameResult s e b) {req : RequestFields}
    (hparse : parseHttpRequest (s.take e) = .ok req) (he : e < b) {arena : List UInt8}
    (hzero : 0 ∈ arena.drop (s.length + 3)) {n m : ℕ} (hbn : b ≤ n) (hns : n ≤ s.length)
    (hbm : b ≤ m) (hms : m ≤ s.length) :
    (acceptGzipEncodingAt (behindHeaders arena (s.take n) e) (s.take e)).result =
        (acceptGzipEncodingAt (behindHeaders arena (s.take m) e) (s.take e)).result ∧
      (lastHeader .ifModifiedSince (s.take e)).elim 0
          (·.date (behindHeaders arena (s.take n) e)) =
        (lastHeader .ifModifiedSince (s.take e)).elim 0
          (·.date (behindHeaders arena (s.take m) e)) := by
  obtain ⟨result, hresult⟩ := h arena hzero
  have hfields : ∀ n, b ≤ n → n ≤ s.length → ∃ flag,
      (acceptGzipEncodingAt (behindHeaders arena (s.take n) e) (s.take e)).result = some flag ∧
        result = .ok { req with
          acceptGzipEncoding := flag
          ifModifiedSince := (lastHeader .ifModifiedSince (s.take e)).elim 0
            (·.date (behindHeaders arena (s.take n) e)) } := by
    intro n hbn hns
    have hmem := zero_mem_behindHeaders (e := e) hzero hns (by omega)
    obtain ⟨flag, hflag⟩ := exists_result_acceptGzipEncodingAt hmem (s.take e)
    have hmem := zero_mem_drop_behindHeaders (e := e) hzero hns 2 (by omega)
    have heq := (hresult n hbn hns).symm.trans (result_parseHttpRequestAt hparse hmem hflag)
    exact ⟨flag, hflag, Option.some.inj heq⟩
  obtain ⟨flag, hflag, hok⟩ := hfields n hbn hns
  obtain ⟨flag', hflag', hok'⟩ := hfields m hbm hms
  have heq := Except.ok.inj (hok.symm.trans hok')
  obtain rfl : flag = flag' := congrArg RequestFields.acceptGzipEncoding heq
  exact ⟨hflag.trans hflag'.symm, congrArg RequestFields.ifModifiedSince heq⟩

end Result

/-! ### When it is not -/

/-- An arena that has held a text from some place on. -/
def heldText (s : List UInt8) (i : ℕ) (text : List UInt8) : List UInt8 :=
  List.replicate i 0 ++ (text ++ List.replicate (s.length + 4) 0)

theorem zero_mem_heldText (s : List UInt8) (i : ℕ) (text : List UInt8) :
    0 ∈ (heldText s i text).drop (s.length + 3) := by
  have hzero : (0 : UInt8) ∈ (List.replicate (s.length + 4) (0 : UInt8)).drop (s.length + 3) := by
    rw [List.drop_replicate, show s.length + 4 - (s.length + 3) = 1 by omega]
    exact List.mem_singleton_self 0
  rw [heldText, ← List.append_assoc, List.drop_append]
  exact List.mem_append_right _ (List.drop_subset_drop_left _ (Nat.sub_le _ _) hzero)

theorem drop_heldText (s : List UInt8) (i : ℕ) (text : List UInt8) :
    (heldText s i text).drop i = text ++ List.replicate (s.length + 4) 0 :=
  List.drop_left' (List.length_replicate ..)

/-- The word is found, unless the byte in front of it is a terminator. -/
theorem flagBehind_gzip {ends : List UInt8} (hends : ends = [lf] ∨ ends = [lf, cr, lf]) (c : UInt8)
    (s : List UInt8) :
    flagBehind (cstr (ends ++ c :: (bytes ",gzip" ++ 0 :: s))) = decide (c ≠ 0) := by
  have hzero : 0 ∉ ends := by rcases hends with rfl | rfl <;> decide
  by_cases hc : c = 0
  · subst hc
    rw [cstr_append_zero hzero]
    rcases hends with rfl | rfl <;> decide +kernel
  · have hword : 0 ∉ ends ++ c :: bytes ",gzip" := by
      rw [List.mem_append, List.mem_cons, not_or, not_or]
      exact ⟨hzero, Ne.symm hc, by decide⟩
    have hall : ∀ i : Fin 256, i ≠ 0 →
        flagBehind ([lf] ++ UInt8.ofNat i :: bytes ",gzip") = true ∧
          flagBehind ([lf, cr, lf] ++ UInt8.ofNat i :: bytes ",gzip") = true := by decide +kernel
    have hpos : (⟨c.toNat, c.toNat_lt⟩ : Fin 256) ≠ 0 := by
      intro heq
      exact hc (UInt8.toNat_inj.mp (congrArg Fin.val heq))
    have hflag := hall ⟨c.toNat, c.toNat_lt⟩ hpos
    simp only [UInt8.ofNat_toNat] at hflag
    rw [← List.cons_append, ← List.append_assoc, cstr_append_zero hword, decide_eq_true hc]
    rcases hends with rfl | rfl
    · exact hflag.1
    · exact hflag.2

/-- The date is read, if it begins with the comma. -/
theorem dateFrom_cons (c : UInt8) (s : List UInt8) :
    dateFrom (c :: (bytes " 24 Jan 2012 13:05:54 GMT" ++ 0 :: s)) =
      if c = 44 then 1327410354 else 0 := by
  split_ifs with hc
  · have hzero : 0 ∉ c :: bytes " 24 Jan 2012 13:05:54 GMT" := by
      rw [hc]
      decide +kernel
    rw [dateFrom, ← List.cons_append, cstr_append_zero hzero, hc]
    decide +kernel
  · exact dateFrom_eq_zero hc _

section Result

variable {s : List UInt8} {e b : ℕ} {req : RequestFields}

/-- A byte of the body makes a difference to the flag. -/
theorem SameResult.length_le_of_empty (h : SameResult s e b)
    (hfind : findEndOfHttpHeaders s = some (e, b)) (hparse : parseHttpRequest (s.take e) = .ok req)
    {a : PlacedHeader} (ha : lastHeader .acceptEncoding (s.take e) = some a) (hend : a.toEnd = []) :
    s.length ≤ b := by
  by_contra hlt
  rw [Nat.not_le] at hlt
  have he := findEndOfHttpHeaders_lt hfind
  obtain ⟨ends, hends, -, hbehind⟩ := behindHeaders_eq hfind
  -- this byte has been read or not
  have hflag : ∀ c,
      flagBehind (cstr (ends ++ c :: (bytes ",gzip" ++ List.replicate (s.length + 4) 0))) =
      flagBehind (cstr (ends ++ s[b] :: (bytes ",gzip" ++ List.replicate (s.length + 4) 0))) := by
    intro c
    have hzero := zero_mem_heldText s b (c :: bytes ",gzip")
    generalize harena : heldText s b (c :: bytes ",gzip") = arena at hzero
    have hresult : ∀ n ≤ s.length,
        (acceptGzipEncodingAt (behindHeaders arena (s.take n) e) (s.take e)).result =
          some (flagBehind (cstr (behindHeaders arena (s.take n) e))) := by
      intro n hns
      have hmem := zero_mem_behindHeaders (e := e) hzero hns (by omega)
      exact result_acceptGzipEncodingAt ha hend hmem
    have hread := (h.fields_eq hparse he hzero (n := b) le_rfl hlt.le (m := b + 1) (by omega) hlt).1
    rw [hresult b hlt.le, hresult (b + 1) hlt, hbehind _ b le_rfl hlt.le,
      hbehind _ (b + 1) (by omega) hlt, drop_arena_of_le le_rfl hlt.le,
      drop_arena_of_lt (List.getElem?_eq_getElem hlt) (by omega) hlt,
      drop_arena_of_le le_rfl hlt, ← List.drop_drop (i := 1), ← harena, drop_heldText,
      List.drop_one] at hread
    exact Option.some.inj hread
  have hread := hflag (if s[b] = 0 then 44 else 0)
  rw [List.replicate_succ, flagBehind_gzip hends, flagBehind_gzip hends] at hread
  split_ifs at hread with hzero <;> simp [hzero] at hread

/-- The fourth byte of a date makes a difference to it. -/
theorem SameResult.length_le_of_short (h : SameResult s e b)
    (hparse : parseHttpRequest (s.take e) = .ok req) {a : PlacedHeader}
    (ha : lastHeader .ifModifiedSince (s.take e) = some a) (hb : b = e + 2)
    (hshort : a.toEnd.length ≤ 1) : s.length ≤ b + 1 - a.toEnd.length := by
  by_contra hlt
  obtain ⟨i, hi⟩ : ∃ i, i = e + 1 + (2 - a.toEnd.length) := ⟨_, rfl⟩
  have his : i < s.length := by omega
  -- this byte has been read or not
  have hdate : ∀ c,
      dateFrom (c :: (bytes " 24 Jan 2012 13:05:54 GMT" ++ List.replicate (s.length + 4) 0)) =
        dateFrom (s[i] ::
          (bytes " 24 Jan 2012 13:05:54 GMT" ++ List.replicate (s.length + 4) 0)) := by
    intro c
    have hzero := zero_mem_heldText s i (c :: bytes " 24 Jan 2012 13:05:54 GMT")
    have hread := (h.fields_eq hparse (by omega) hzero (n := i) (by omega) his.le (m := i + 1)
      (by omega) his).2
    rw [ha, Option.elim_some, Option.elim_some, PlacedHeader.date, PlacedHeader.date,
      if_neg (by omega), if_neg (by omega), drop_behindHeaders his.le, drop_behindHeaders his, ← hi,
      drop_arena_of_le le_rfl his.le,
      drop_arena_of_lt (List.getElem?_eq_getElem his) (by omega) his, drop_arena_of_le le_rfl his,
      ← List.drop_drop (i := 1), drop_heldText, List.drop_one] at hread
    exact hread
  have hread := hdate (if s[i] = 44 then 0 else 44)
  rw [List.replicate_succ, dateFrom_cons, dateFrom_cons] at hread
  split_ifs at hread with hcomma <;> simp_all

end Result

/-! ### The result -/

/-- The parser returns the same for every cut if and only if it refuses the request or looks at no
byte that may have been read or not. -/
theorem sameResult_iff {s : List UInt8} {e b : ℕ} (hfind : findEndOfHttpHeaders s = some (e, b)) :
    SameResult s e b ↔ ReadsKnownBytes s e b := by
  refine ⟨fun h => ?_, sameResult_of_readsKnownBytes hfind⟩
  cases hparse : parseHttpRequest (s.take e) with
  | error code => exact .inl ⟨code, hparse⟩
  | ok req =>
    exact .inr ⟨fun a ha hend => h.length_le_of_empty hfind hparse ha hend,
      fun a ha hb hshort => h.length_le_of_short hparse ha hb hshort⟩

/-- For every stream whose header block is short enough, the way in which it is cut into reads has
no influence on the request and on the bytes behind its headers if and only if the parser refuses
the request or looks at no byte that may have been read or not. -/
theorem splitsAlike_iff (env : ServerEnv) {hsp : Hsp} {sock : Socket} {e b : ℕ}
    (hwait : hsp.state = .waitingForRequest)
    (hfind : findEndOfHttpHeaders sock.incoming = some (e, b)) (hb : b < maxRequestHeadersSize) :
    SplitsAlike env hsp sock e b ↔ ReadsKnownBytes sock.incoming e b :=
  (splitsAlike_iff_sameResult env hwait hfind hb).trans (sameResult_iff hfind)

/-- A server without files. -/
def bareEnv : ServerEnv where
  revision := []
  parseHttpRequest := fun _ => none
  openFile := fun _ => -1
  prepareResponseHeaders := fun _ => []

/-- A request with both headers, and a byte of the next one. -/
def gzipConditionalGet : List UInt8 :=
  bytes "GET / HTTP/1.1\r\nHost: a\r\nIf-Modified-Since: Tue, 24 Jan 2012 13:05:54 GMT\r\n" ++
    bytes "Accept-Encoding: gzip\r\n\r\nG"

theorem splitsAlike_gzipConditionalGet :
    SplitsAlike bareEnv {} { incoming := gzipConditionalGet } 96 100 :=
  (splitsAlike_iff bareEnv rfl (by decide +kernel) (by decide)).mpr
    (.inr ⟨by decide +kernel, by decide +kernel⟩)

/-- With its body, the request accepts an encoding that it does not accept without. -/
theorem not_splitsAlike_emptyEncodings :
    findEndOfHttpHeaders emptyEncodings = some (61, 65) ∧
      ¬ SplitsAlike bareEnv {} { incoming := emptyEncodings } 61 65 := by
  have hfind : findEndOfHttpHeaders emptyEncodings = some (61, 65) := by decide +kernel
  refine ⟨hfind, fun h => ?_⟩
  have hsame := (splitsAlike_iff_sameResult bareEnv rfl hfind (by decide)).mp h
  obtain ⟨result, hresult⟩ := hsame (List.replicate 100 0) (by decide +kernel)
  -- the read stops in front of the body, or behind it
  have hheaders := congrArg (Option.map fun r => r.toOption.map RequestFields.acceptGzipEncoding)
    (hresult 65 le_rfl (by decide +kernel))
  have hall := congrArg (Option.map fun r => r.toOption.map RequestFields.acceptGzipEncoding)
    (hresult 73 (by decide) (by decide +kernel))
  exact absurd (hheaders.trans hall.symm) (by decide +kernel)

end Nxweb
