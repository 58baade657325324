import Nxweb.Filters.CacheDisk

/-!
# Cached responses are restored

A response is stored by `fc_store_begin`, its body as it passes by `fc_store_append`, and the file is
named by `fc_store_close`. `fc_read_header` and `fc_read_data` make a response of the file again.

All fields that are stored come back, and the file range is the body. Of the header lines that
`_nxweb_prepare_response_headers` adds, only those of the list are stored, not the raw text that a
response has if it comes from a cache itself, and they are printed behind those of the response that
they are read into.

## Main definitions

* `CacheableResponse`: a response with its body;
* `storeResponse`, `readBack`: writing and reading a file;
* `Restores`: what is read is the response.

## Main results

* `readBack_restores_iff`: when a response is restored.
-/

namespace Nxweb

open Lib

/-! ### Header lines -/

/-- The lines that `_nxweb_add_extra_response_headers` prints. -/
def headerLines (headers : List (List UInt8 × List UInt8)) : List UInt8 :=
  (addExtraResponseHeaders headers).flatMap fun f => headerText f ++ crlf

namespace ResponseFields

/-- The extra header lines of a response: those of the list, and the raw text. -/
def extraHeaderLines (resp : ResponseFields) : List UInt8 :=
  headerLines resp.headers ++ resp.extraRawHeaders.getD []

end ResponseFields

/-- The fields that are printed. The version of the protocol is that of the request. -/
def HttpResponse.fields (http11 : Bool) (resp : HttpResponse) : ResponseFields where
  contentLength := resp.contentLength
  keepAlive := resp.keepAlive
  http11 := http11
  chunkedEncoding := resp.chunkedEncoding
  gzipEncoded := resp.gzipEncoded
  ssiOn := resp.ssiOn
  templatesOn := resp.templatesOn
  noCache := resp.noCache
  cachePrivate := resp.cachePrivate
  status := resp.status
  contentType := resp.contentType
  contentCharset := resp.contentCharset
  cacheControl := resp.cacheControl
  etag := resp.etag
  headers := resp.headers
  extraRawHeaders := resp.extraRawHeaders
  date := resp.date
  lastModified := resp.lastModified
  expires := resp.expires
  maxAge := resp.maxAge
  statusCode := resp.statusCode

/-! ### The strings of a response -/

/-- A string is put behind the data, with a zero behind it. Its place is `0` if there is none. -/
def addString (s : Option (List UInt8)) (data : List UInt8) : ℕ × List UInt8 :=
  match s with
  | some s => (data.length, data ++ s ++ [0])
  | none => (0, data)

/-- The string is read back from the data, whatever is put behind it. -/
theorem addString_spec {s : Option (List UInt8)} {data : List UInt8} (hdata : data ≠ [])
    (hs : ∀ t ∈ s, 0 ∉ t) :
    (addString s data).2 ≠ [] ∧ ∀ final, (addString s data).2 <+: final →
      data <+: final ∧ FcFilterData.dataString final (addString s data).1 = s := by
  cases s with
  | none => exact ⟨hdata, fun final h => ⟨h, rfl⟩⟩
  | some t =>
    refine ⟨by simp [addString], ?_⟩
    rintro _ ⟨more, rfl⟩
    refine ⟨⟨t ++ [0] ++ more, by simp [addString]⟩, ?_⟩
    have hpos : data.length ≠ 0 := by simpa using hdata
    have hdrop : (data ++ t ++ [0] ++ more).drop data.length = t ++ 0 :: more := by
      rw [List.append_assoc, List.append_assoc, List.drop_left]
      simp
    simp only [addString, FcFilterData.dataString, if_neg hpos, hdrop]
    rw [cstr_append_zero (hs t rfl)]

/-- The strings of a response. -/
def HttpResponse.strings (resp : HttpResponse) : List (List UInt8) :=
  resp.contentType.toList ++ resp.contentCharset.toList ++ resp.cacheControl.toList ++
    resp.extraRawHeaders.toList ++ resp.headers.flatMap fun f => [f.1, f.2]

theorem zero_notMem_headerLines {headers : List (List UInt8 × List UInt8)}
    (h : ∀ f ∈ headers, 0 ∉ f.1 ∧ 0 ∉ f.2) : 0 ∉ headerLines headers := by
  intro hzero
  obtain ⟨f, hf, hzero⟩ := List.mem_flatMap.mp hzero
  obtain ⟨hname, hvalue⟩ := h f (List.mem_filter.mp hf).1
  have hsep : 0 ∉ bytes ": " := by decide
  have hcrlf : 0 ∉ crlf := by decide
  simp [headerText, hname, hvalue, hsep, hcrlf] at hzero

/-- The header and the data of a cache file say what a response does. -/
structure FcFileHeader.Describes (hdr : FcFileHeader) (data : List UInt8) (resp : HttpResponse) :
    Prop where
  signature : hdr.signature = nxfcSignature
  headerSize : hdr.headerSize = fcHeaderSize
  dataSize : hdr.dataSize = data.length
  contentOffset : hdr.contentOffset = fcHeaderSize + data.length
  contentLength : hdr.contentLength = resp.contentLength
  statusCode : hdr.statusCode = resp.statusCode
  lastModified : hdr.lastModified = resp.lastModified
  gzipEncoded : hdr.gzipEncoded = resp.gzipEncoded
  ssiOn : hdr.ssiOn = resp.ssiOn
  templatesOn : hdr.templatesOn = resp.templatesOn
  contentType : FcFilterData.dataString data hdr.contentType = resp.contentType
  contentCharset : FcFilterData.dataString data hdr.contentCharset = resp.contentCharset
  extraRawHeaders :
    (FcFilterData.dataString data hdr.extraRawHeaders).getD [] = headerLines resp.headers

/-- What `fc_store_begin` writes describes the response. -/
theorem cacheData_describes {resp : HttpResponse} (hzero : ∀ s ∈ resp.strings, 0 ∉ s) :
    resp.cacheData.1.Describes resp.cacheData.2 resp := by
  simp only [HttpResponse.strings, List.mem_append, Option.mem_toList, List.mem_flatMap] at hzero
  have hheaders : 0 ∉ headerLines resp.headers := by
    refine zero_notMem_headerLines fun f hf => ⟨?_, ?_⟩
    · exact hzero _ (.inr ⟨f, hf, by simp⟩)
    · exact hzero _ (.inr ⟨f, hf, by simp⟩)
  have hne₀ : ([0] : List UInt8) ≠ [] := by simp
  obtain ⟨hne₁, h₁⟩ := addString_spec hne₀ fun t ht => hzero t (.inl (.inl (.inl (.inl ht))))
  obtain ⟨hne₂, h₂⟩ := addString_spec hne₁ fun t ht => hzero t (.inl (.inl (.inl (.inr ht))))
  obtain ⟨hne₃, h₃⟩ := addString_spec hne₂ fun t ht => hzero t (.inl (.inl (.inr ht)))
  let extra := if resp.headers = [] then none else some (headerLines resp.headers)
  have hextra : ∀ t ∈ extra, 0 ∉ t := by
    intro t ht
    simp only [extra] at ht
    split_ifs at ht
    · cases ht
    · obtain rfl := Option.some.inj ht
      exact hheaders
  obtain ⟨-, h₄⟩ := addString_spec hne₃ hextra
  obtain ⟨hpre₃, hstring₄⟩ := h₄ _ List.prefix_rfl
  obtain ⟨hpre₂, hstring₃⟩ := h₃ _ hpre₃
  obtain ⟨hpre₁, hstring₂⟩ := h₂ _ hpre₂
  obtain ⟨-, hstring₁⟩ := h₁ _ hpre₁
  refine ⟨rfl, rfl, rfl, rfl, rfl, rfl, rfl, rfl, rfl, rfl, hstring₁, hstring₂,
    (congrArg (·.getD []) hstring₄).trans ?_⟩
  simp only [extra]
  split_ifs with hnil
  · rw [hnil]
    rfl
  · rfl

/-! ### Storing and reading -/

/-- A response that the filter stores, with its body as it passes by. A body whose length is known
has that length. -/
structure CacheableResponse where
  resp : HttpResponse
  chunks : List (List UInt8)
  statusCode : resp.statusCode = 0 ∨ resp.statusCode = 200
  storable : ¬ (resp.noCache ∨ resp.cachePrivate)
  contentLength : 0 ≤ resp.contentLength → resp.contentLength = chunks.flatten.length
  strings : ∀ s ∈ resp.strings, 0 ∉ s

/-- The body. -/
def CacheableResponse.body (r : CacheableResponse) : List UInt8 := r.chunks.flatten

variable {W : Type}

namespace FcFilterData

/-- The body is stored. -/
def storeChunks (sys : FileCacheSystem W) (chunks : List (List UInt8)) (fc : FcFilterData) (w : W) :
    Option (FcFilterData × W) :=
  match chunks with
  | [] => some (fc, w)
  | chunk :: chunks =>
    match fc.storeAppend sys chunk w with
    | (true, fc, w) => storeChunks sys chunks fc w
    | (false, _) => none

/-- A response is stored, from `fc_store_begin` to `fc_store_close`, `none` if that fails. -/
def storeResponse (sys : FileCacheSystem W) (links : FileCacheLinks W) (fc : FcFilterData)
    (r : CacheableResponse) (w : W) : Option W :=
  match fc.storeBegin sys r.resp w with
  | (false, _) => none
  | (true, fc, w) =>
    (storeChunks sys r.chunks fc w).bind fun (fc, w) =>
      match fc.storeClose sys links w with
      | (true, _, w) => some w
      | (false, _) => none

/-- A response is read into `resp`, by `fc_read_header` and `fc_read_data`, `none` if that fails. -/
def readBack (sys : FileCacheSystem W) (fc : FcFilterData) (resp : HttpResponse) (w : W) :
    Option (FcFilterData × HttpResponse × W) :=
  match fc.readHeader sys w with
  | (false, _) => none
  | (true, fc, w) =>
    match fc.readData sys resp w with
    | (true, r) => some r
    | (false, _) => none

end FcFilterData

/-- The bytes that a file range of a response stands for, `none` if it does not begin behind the
header. -/
def CacheDisk.range (d : CacheDisk) (fd start stop : ℤ) : Option (List UInt8) :=
  (d.opened fd).bind fun (i, _) =>
    if start < fcHeaderSize then none else some (d.bytesAt i start.toNat (stop - start).toNat)

/-- What has been read is the response that was stored. -/
structure Restores (r : CacheableResponse) (d : CacheDisk) (resp : HttpResponse) : Prop where
  statusCode : resp.statusCode = r.resp.statusCode
  contentType : resp.contentType = r.resp.contentType
  contentCharset : resp.contentCharset = r.resp.contentCharset
  lastModified : resp.lastModified = r.resp.lastModified
  gzipEncoded : resp.gzipEncoded = r.resp.gzipEncoded
  ssiOn : resp.ssiOn = r.resp.ssiOn
  templatesOn : resp.templatesOn = r.resp.templatesOn
  contentLength : resp.contentLength = r.body.length
  range : d.range resp.sendfileFd resp.sendfileOffset resp.sendfileEnd = some r.body
  lines : ∀ http11, (resp.fields http11).extraHeaderLines =
    (r.resp.fields http11).extraHeaderLines

variable (server : ServerEnv) {d : CacheDisk} {i : ℕ} {hdr : FcFileHeader} {content : List UInt8}

/-- The body is written behind the data. -/
theorem storeChunks_writes (chunks : List (List UInt8)) (fc : FcFilterData)
    (h : d.Writing fc.fd i hdr content) :
    ∃ d', fc.storeChunks (cacheDiskSystem server) chunks d = some (fc, d') ∧
      d'.Writing fc.fd i hdr (content ++ chunks.flatten) ∧ d'.names = d.names := by
  induction chunks generalizing d content with
  | nil => exact ⟨d, rfl, by simpa using h, rfl⟩
  | cons chunk chunks ih =>
    obtain ⟨d₁, hwrite, hwriting, hnames⟩ := h.writeData chunk
    obtain ⟨d', hstore, hwriting', hnames'⟩ := ih hwriting
    refine ⟨d', ?_, by simpa using hwriting', hnames'.trans hnames⟩
    have happend : fc.storeAppend (cacheDiskSystem server) chunk d = (true, fc, d₁) := by
      simp [FcFilterData.storeAppend, cacheDiskSystem, hwrite]
    rw [FcFilterData.storeChunks, happend]
    exact hstore

/-- The header and the data are written into a new file. -/
theorem storeBegin_writes {fc : FcFilterData} {tmpFpath : List UInt8}
    (htmp : fc.tmpFpath = some tmpFpath) (hfree : d.names tmpFpath = none) (resp : HttpResponse) :
    ∃ (fd : ℕ+) (d' : CacheDisk) (i : ℕ),
      fc.storeBegin (cacheDiskSystem server) resp d =
        (true, { fc with fd := (fd : ℕ), hdr := resp.cacheData.1 }, d') ∧
      d'.Writing (fd : ℕ) i resp.cacheData.1 resp.cacheData.2 ∧ d'.names tmpFpath = some i := by
  obtain ⟨fd, d₁, hopen, hname, hopened, hfile⟩ := CacheDisk.openCreate_of_free hfree
  obtain ⟨d₂, hheader, hwriting, hnames⟩ :=
    CacheDisk.writeHeader_of_new hopened hfile resp.cacheData.1
  obtain ⟨d₃, hdata, hwriting', hnames'⟩ := hwriting.writeData resp.cacheData.2
  refine ⟨fd, d₃, d.nextFile, ?_, hwriting', ?_⟩
  · simp [FcFilterData.storeBegin, cacheDiskSystem, htmp, hopen, hheader, hdata]
  · rw [hnames', hnames, hname]

/-- The file gets its name. -/
theorem storeClose_stores (fc : FcFilterData) {fpath tmpFpath : List UInt8}
    (hpath : fc.cacheFpath = some fpath) (htmp : fc.tmpFpath = some tmpFpath)
    (hne : tmpFpath ≠ fpath) (hname : d.names tmpFpath = some i)
    (hwriting : d.Writing fc.fd i hdr content) :
    ∃ fc' d', fc.storeClose (cacheDiskSystem server) cacheDiskLinks d = (true, fc', d') ∧
      d'.Stored fpath hdr content := by
  let d₁ := ((d.touch i fc.expiresTime).close fc.fd).unlink fpath
  let d₂ := { d₁ with names := Function.update d₁.names fpath (some i) }
  have htouch : d.futimes fc.fd fc.expiresTime = d.touch i fc.expiresTime := by
    simp [CacheDisk.futimes, hwriting.opened]
  have hlink : (((d.touch i fc.expiresTime).close fc.fd).unlink fpath).link tmpFpath fpath =
      (true, d₂) := by
    simp [CacheDisk.link, d₂, d₁, CacheDisk.unlink, CacheDisk.close, CacheDisk.touch,
      Function.update_of_ne hne, hname]
  refine ⟨{ fc with fd := 0 }, d₂.unlink tmpFpath, ?_, i, ?_, ?_, ?_⟩
  · simp only [FcFilterData.storeClose, FcFilterData.closeFd, cacheDiskSystem, cacheDiskLinks,
      htouch, hpath, htmp, Option.getD_some, hlink]
  · simp [CacheDisk.unlink, d₂, Function.update_of_ne hne.symm]
  · simp [CacheDisk.unlink, d₂, d₁, CacheDisk.close, CacheDisk.touch, hwriting.header]
  · simp [CacheDisk.unlink, d₂, d₁, CacheDisk.close, CacheDisk.touch, hwriting.content]

/-- A file that has been stored is read. -/
theorem readBack_eq {fc : FcFilterData} {fpath : List UInt8} (hfd : fc.fd = 0)
    (hpath : fc.cacheFpath = some fpath) {data body : List UInt8}
    (hstored : d.Stored fpath hdr (data ++ body)) (hsignature : hdr.signature = nxfcSignature)
    (hsize : hdr.headerSize = fcHeaderSize) (hdata : hdr.dataSize = data.length)
    (into : HttpResponse) :
    ∃ (fc' : FcFilterData) (d' : CacheDisk) (fd : ℕ+) (i : ℕ) (info : Stat) (pos : ℕ),
      fc.readBack (cacheDiskSystem server) into d =
        some (fc', { fc with fd := (fd : ℕ), hdr, cacheFinfo := info }.cachedResponse
          (if hdr.contentLength < 0 then
            { hdr with contentLength := info.stSize - hdr.contentOffset } else hdr) data into, d') ∧
      info.stSize = fcHeaderSize + data.length + body.length ∧
      d'.opened (fd : ℕ) = some (i, pos) ∧ (d'.files i).content = data ++ body := by
  obtain ⟨fd, d₁, i, hopen, hopened, hheader, hcontent⟩ := hstored.openRead
  let info : Stat := { stIno := i, stMtime := (d₁.files i).mtime, stSize := (d₁.files i).size }
  have hstat : d₁.fstat (fd : ℕ) = some info := by
    simp [CacheDisk.fstat, hopened, info]
  obtain ⟨d₂, hread, hopened₂, hfiles₂⟩ := CacheDisk.readHeader_of_start hopened
  rw [hheader] at hread
  have hbytes : d₂.bytesAt i fcHeaderSize hdr.dataSize = data := by
    simp [CacheDisk.bytesAt, hfiles₂, hcontent, hdata]
  have hlen : (d₂.bytesAt i fcHeaderSize hdr.dataSize).length = hdr.dataSize := by
    rw [hbytes, hdata]
  obtain ⟨d₃, hreadData, hopened₃, hfiles₃⟩ := CacheDisk.readData_of_opened hopened₂ hlen
  rw [hbytes] at hreadData
  have hopenedHeader : fc.readHeader (cacheDiskSystem server) d =
      (true, { fc with fd := (fd : ℕ), cacheFinfo := info, hdr }, d₂) := by
    simp [FcFilterData.readHeader, FcFilterData.readOpened, cacheDiskSystem, hfd, hpath, hopen,
      hstat, hread, hsignature, hsize]
  let hdr' := if hdr.contentLength < 0 then
    { hdr with contentLength := info.stSize - hdr.contentOffset } else hdr
  refine ⟨{ fc with fd := 0, hdr := hdr', cacheFinfo := info, inputFd := into.sendfileFd }, d₃, fd,
    i, info, fcHeaderSize + hdr.dataSize, ?_, ?_, hopened₃, ?_⟩
  · rw [FcFilterData.readBack, hopenedHeader]
    simp only [FcFilterData.readData, cacheDiskSystem, hreadData]
    rfl
  · change (d₁.files i).size = _
    rw [CacheDisk.size_of_header hheader, hcontent, List.length_append, Nat.add_assoc]
  · rw [hfiles₃, hfiles₂, hcontent]

/-- A response that is made of a cache file has the fields of the one that the file describes, and
its file range is the body. Its extra header lines are those of the list, behind those of the response
that is read into. -/
theorem restores_cachedResponse_iff {r : CacheableResponse} {data : List UInt8} {fc : FcFilterData}
    {into : HttpResponse} {pos : ℕ} (hdescribes : hdr.Describes data r.resp)
    (hsize : fc.cacheFinfo.stSize = fcHeaderSize + data.length + r.body.length)
    (hopened : d.opened fc.fd = some (i, pos)) (hcontent : (d.files i).content = data ++ r.body) :
    Restores r d (fc.cachedResponse
        (if hdr.contentLength < 0 then
          { hdr with contentLength := fc.cacheFinfo.stSize - hdr.contentOffset } else hdr) data into) ↔
      headerLines into.headers ++ headerLines r.resp.headers =
        headerLines r.resp.headers ++ r.resp.extraRawHeaders.getD [] := by
  -- a length that is not known is that of the rest of the file
  have hlength : (if hdr.contentLength < 0 then
      { hdr with contentLength := fc.cacheFinfo.stSize - hdr.contentOffset } else hdr) =
      { hdr with contentLength := r.body.length } := by
    split_ifs with hneg
    · congr 1
      rw [hsize, hdescribes.contentOffset]
      push_cast
      ring
    · rw [hdescribes.contentLength] at hneg
      have hknown := r.contentLength (not_lt.mp hneg)
      rw [← hdescribes.contentLength] at hknown
      rw [CacheableResponse.body, ← hknown]
  have hlines : ∀ http11 (resp : HttpResponse), (resp.fields http11).extraHeaderLines =
      headerLines resp.headers ++ resp.extraRawHeaders.getD [] := fun _ _ => rfl
  rw [hlength]
  constructor
  · intro h
    have hsame := h.lines true
    rw [hlines, hlines] at hsame
    simpa only [FcFilterData.cachedResponse, hdescribes.extraRawHeaders] using hsame
  · intro h
    refine ⟨hdescribes.statusCode, hdescribes.contentType, hdescribes.contentCharset,
      hdescribes.lastModified, hdescribes.gzipEncoded, hdescribes.ssiOn, hdescribes.templatesOn, rfl,
      ?_, fun http11 => ?_⟩
    · have hstart : ¬ hdr.contentOffset < fcHeaderSize := by
        rw [hdescribes.contentOffset]
        omega
      have hskip : hdr.contentOffset.toNat - fcHeaderSize = data.length := by
        rw [hdescribes.contentOffset]
        omega
      simp only [FcFilterData.cachedResponse, CacheDisk.range, hopened, Option.bind_some,
        if_neg hstart, CacheDisk.bytesAt, hskip, hcontent, List.drop_left]
      simp
    · rw [hlines, hlines]
      simpa only [FcFilterData.cachedResponse, hdescribes.extraRawHeaders] using h

/-- A response that is stored and read back into another one has its fields, and the file range is
its body. Its extra header lines are printed as before exactly if the lines of the one it is read
into, put in front of those of its list, make the same text as its raw lines behind the latter. -/
theorem readBack_restores_iff (server : ServerEnv) (r : CacheableResponse) {d : CacheDisk}
    {fc : FcFilterData} {fpath : List UInt8} (hpath : fc.cacheFpath = some fpath)
    (htmp : fc.tmpFpath = some (fpath ++ bytes ".tmp"))
    (hfree : d.names (fpath ++ bytes ".tmp") = none) :
    ∃ d₁, fc.storeResponse (cacheDiskSystem server) cacheDiskLinks r d = some d₁ ∧
      ∀ (fc₁ : FcFilterData) (into : HttpResponse), fc₁.fd = 0 → fc₁.cacheFpath = some fpath →
        ∃ fc₂ resp d₂, fc₁.readBack (cacheDiskSystem server) into d₁ = some (fc₂, resp, d₂) ∧
          (Restores r d₂ resp ↔ headerLines into.headers ++ headerLines r.resp.headers =
            headerLines r.resp.headers ++ r.resp.extraRawHeaders.getD []) := by
  have hne : fpath ++ bytes ".tmp" ≠ fpath := fun h => by
    have hlength := congrArg List.length h
    rw [List.length_append] at hlength
    exact absurd hlength (by simp [bytes])
  obtain ⟨fd, d₀, i, hbegin, hwriting, hname⟩ := storeBegin_writes server htmp hfree r.resp
  obtain ⟨d₀', hchunks, hwriting', hnames⟩ := storeChunks_writes server r.chunks
    { fc with fd := (fd : ℕ), hdr := r.resp.cacheData.1 } hwriting
  rw [← hnames] at hname
  obtain ⟨fc', d₁, hclose, hstored⟩ := storeClose_stores server
    { fc with fd := (fd : ℕ), hdr := r.resp.cacheData.1 } hpath htmp hne hname hwriting'
  refine ⟨d₁, ?_, fun fc₁ into hfd₁ hpath₁ => ?_⟩
  · rw [FcFilterData.storeResponse, hbegin]
    simp only [hchunks, Option.bind_some, hclose]
  have hdescribes := cacheData_describes r.strings
  obtain ⟨fc₂, d₂, fd₁, i₁, info, pos, hread, hsize, hopened, hcontent⟩ :=
    readBack_eq server hfd₁ hpath₁ hstored hdescribes.signature hdescribes.headerSize
      hdescribes.dataSize into
  exact ⟨fc₂, _, d₂, hread, restores_cachedResponse_iff hdescribes hsize hopened hcontent⟩

/-! ### Two responses -/

/-- The functions of a server that are not called here. -/
def quietServer : ServerEnv where
  revision := []
  parseHttpRequest := fun _ => none
  openFile := fun _ => -1
  prepareResponseHeaders := fun _ => []

/-- The data of a filter that stores a response. -/
def cssCache : FcFilterData where
  cacheDir := bytes "gzip"
  cacheFpath := some (bytes "gzip/a.css.nxc")
  tmpFpath := some (bytes "gzip/a.css.nxc.tmp")

/-- A style sheet of unknown length, with a header of a backend in its list. -/
def styleSheet : CacheableResponse where
  resp :=
    { statusCode := 200, contentLength := -1, contentType := some (bytes "text/css")
      headers := [(bytes "X-Frame-Options", bytes "DENY")] }
  chunks := [bytes "a\x7b", bytes "\x7d"]
  statusCode := .inr rfl
  storable := by decide
  contentLength := by decide
  strings := by decide

/-- It is restored in a response without headers of its own. -/
theorem readBack_restores_iff_styleSheet :
    ∃ d₁, cssCache.storeResponse (cacheDiskSystem quietServer) cacheDiskLinks styleSheet {} =
        some d₁ ∧
      ∀ (fc₁ : FcFilterData) (into : HttpResponse), fc₁.fd = 0 →
        fc₁.cacheFpath = some (bytes "gzip/a.css.nxc") →
        ∃ fc₂ resp d₂, fc₁.readBack (cacheDiskSystem quietServer) into d₁ = some (fc₂, resp, d₂) ∧
          (Restores styleSheet d₂ resp ↔
            headerLines into.headers ++ headerLines styleSheet.resp.headers =
              headerLines styleSheet.resp.headers ++
                styleSheet.resp.extraRawHeaders.getD []) :=
  readBack_restores_iff quietServer styleSheet rfl rfl rfl

/-- The same response as another cache has restored it. -/
def cachedStyleSheet : CacheableResponse where
  resp :=
    { statusCode := 200, contentLength := -1, contentType := some (bytes "text/css")
      extraRawHeaders := some (bytes "X-Frame-Options: DENY\r\n") }
  chunks := [bytes "a\x7b", bytes "\x7d"]
  statusCode := .inr rfl
  storable := by decide
  contentLength := by decide
  strings := by decide

/-- It loses its header. -/
theorem cachedStyleSheet_not_restored :
    ∃ d₁, cssCache.storeResponse (cacheDiskSystem quietServer) cacheDiskLinks cachedStyleSheet {} =
        some d₁ ∧
      ∃ fc₂ resp d₂,
        { cssCache with tmpFpath := none }.readBack (cacheDiskSystem quietServer) {} d₁ =
          some (fc₂, resp, d₂) ∧
        (resp.fields true).extraHeaderLines = [] ∧
        (cachedStyleSheet.resp.fields true).extraHeaderLines =
          bytes "X-Frame-Options: DENY\r\n" ∧
        ¬ Restores cachedStyleSheet d₂ resp := by
  refine ⟨_, rfl, _, _, _, rfl, rfl, rfl, fun h => ?_⟩
  exact absurd (h.lines true) (by decide)

end Nxweb
