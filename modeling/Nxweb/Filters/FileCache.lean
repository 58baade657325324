import Mathlib.Data.PNat.Basic
import Nxweb.Http.ResponseText
import Nxweb.Server.SelectHandler
import Nxweb.ServerProto.RequestHeaders
import Nxweb.Uri.Path

/-!
# The file cache

Model of `filters/file_cache_filter.c`. A filter of this kind keeps responses in files. Asked for a
response, it serves one that has not expired; one that has expired is revalidated: the filter puts
its date in the place of the condition of the client, and looks at the answer of the backend when
the response comes by. A response that may be kept is written to the file as it passes.

The system calls are parameters, and act on the `world` of the exchange. A descriptor that a call
returns is positive, since `0` is taken. The streams of the filter have no state here, and its
assertions about descriptors and cached headers are left out.

## Main definitions

* `FcFileHeader`, `FcFilterData`: the header of a cache file, and `fc_filter_data`;
* `FcFilterData.readHeader`, `readData`, `serve`: reading a cache file;
* `serveFromFileCache`, `revalidateFileCache`, `storeFileCache`: `_nxweb_fc_serve_from_cache`,
  `_nxweb_fc_revalidate` and `_nxweb_fc_store`;
* `fileCacheFilter`: the filter.
-/

namespace Nxweb

open Lib

/-- `NXFC_SIGNATURE`. -/
def nxfcSignature : ℕ := 0x6366786e

/-- `FC_HEADER_SIZE`. -/
def fcHeaderSize : ℕ := 96

/-- `fc_file_header`. A string is the place in the data where it starts, `0` if there is none. -/
structure FcFileHeader where
  signature : ℕ := 0
  headerSize : ℕ := 0
  gzipEncoded : Bool := false
  ssiOn : Bool := false
  templatesOn : Bool := false
  statusCode : ℤ := 0
  lastModified : ℤ := 0
  expires : ℤ := 0
  maxAge : ℤ := 0
  contentOffset : ℤ := 0
  contentLength : ℤ := 0
  contentType : ℕ := 0
  contentCharset : ℕ := 0
  cacheControl : ℕ := 0
  extraRawHeaders : ℕ := 0
  dataSize : ℕ := 0
  deriving DecidableEq, Repr

/-- `fc_filter_data`. -/
structure FcFilterData where
  revalidationMode : Bool := false
  expiresTime : ℤ := 0
  ifModifiedSinceOriginal : ℤ := 0
  /-- The cache file; `0` if there is none, and `-1` if it could not be opened. -/
  fd : ℤ := 0
  cacheDir : List UInt8
  cacheFpath : Option (List UInt8) := none
  tmpFpath : Option (List UInt8) := none
  cacheFinfo : Stat := {}
  inputFd : ℤ := 0
  hdr : FcFileHeader := {}
  deriving DecidableEq, Repr

/-- The system calls, the clock of the loop, and the connection to the rest of the server. A read
or a write that does not move all bytes fails. -/
structure FileCacheSystem (W : Type) where
  openRead : List UInt8 → W → Option ℕ+ × W
  openCreate : List UInt8 → W → Option ℕ+ × W
  fstat : ℤ → W → Option Stat
  lseek : ℤ → ℕ → W → Bool × W
  readHeader : ℤ → W → Option FcFileHeader × W
  readData : ℤ → ℕ → W → Option (List UInt8) × W
  writeHeader : ℤ → FcFileHeader → W → Bool × W
  writeData : ℤ → List UInt8 → W → Bool × W
  close : ℤ → W → W
  unlink : List UInt8 → W → W
  utime : List UInt8 → ℤ → W → W
  mkpath : List UInt8 → W → Bool × W
  currentHttpTime : W → ℤ
  /-- `nxe_connect_streams`, to the `data_in` of the filter. -/
  connectDataIn : W → W
  server : ServerEnv

variable {W P : Type}

namespace FcFilterData

/-! ### Reading a cache file -/

/-- `close(fcdata->fd); fcdata->fd=0`. -/
def closeFd (sys : FileCacheSystem W) (fc : FcFilterData) (w : W) : FcFilterData × W :=
  ({ fc with fd := 0 }, sys.close fc.fd w)

/-- The part of `fc_read_header` behind `open`. -/
def readOpened (sys : FileCacheSystem W) (fc : FcFilterData) (w : W) : Bool × FcFilterData × W :=
  match sys.fstat fc.fd w with
  | none => (false, fc.closeFd sys w)
  | some info =>
    let fc := { fc with cacheFinfo := info }
    match sys.readHeader fc.fd w with
    | (none, w) => (false, fc.closeFd sys w)
    | (some hdr, w) =>
      let fc := { fc with hdr }
      if hdr.signature ≠ nxfcSignature ∨ hdr.headerSize ≠ fcHeaderSize then
        (false, fc.closeFd sys (sys.unlink (fc.cacheFpath.getD []) w))
      else (true, fc, w)

/-- `fc_read_header`; the flag is false for the result `-1`. -/
def readHeader (sys : FileCacheSystem W) (fc : FcFilterData) (w : W) : Bool × FcFilterData × W :=
  if fc.fd ≠ 0 ∧ fc.fd ≠ -1 then
    let (done, w) := sys.lseek fc.fd fcHeaderSize w
    (done, fc, w)
  else
    match sys.openRead (fc.cacheFpath.getD []) w with
    | (none, w) => (false, { fc with fd := -1 }, w)
    | (some fd, w) => { fc with fd := (fd : ℕ) }.readOpened sys w

/-- A string in the data of a cache file. -/
def dataString (data : List UInt8) (start : ℕ) : Option (List UInt8) :=
  if start = 0 then none else some (cstr (data.drop start))

/-- The response that `fc_read_data` takes from a cache file. -/
def cachedResponse (fc : FcFilterData) (hdr : FcFileHeader) (data : List UInt8)
    (resp : HttpResponse) : HttpResponse :=
  { resp with
    statusCode := hdr.statusCode
    status := some (bytes "OK")
    contentLength := hdr.contentLength
    lastModified := hdr.lastModified
    gzipEncoded := hdr.gzipEncoded
    ssiOn := hdr.ssiOn
    templatesOn := hdr.templatesOn
    contentType := dataString data hdr.contentType
    contentCharset := dataString data hdr.contentCharset
    extraRawHeaders := dataString data hdr.extraRawHeaders
    sendfileInfo := fc.cacheFinfo
    sendfilePath := fc.cacheFpath
    sendfileFd := fc.fd
    sendfileOffset := hdr.contentOffset
    sendfileEnd := hdr.contentOffset + hdr.contentLength
    mtype := none
    chunkedEncoding := false
    chunkedAutoencode := false
    content := none
    etag := none
    maxAge := 0
    cacheControl := some (bytes "must-revalidate")
    expires := fc.cacheFinfo.stMtime
    contentOut := some .fb }

/-- `fc_read_data`; the flag is false for the result `-1`. The record keeps the places of the
strings, which are not looked at again. -/
def readData (sys : FileCacheSystem W) (fc : FcFilterData) (resp : HttpResponse) (w : W) :
    Bool × FcFilterData × HttpResponse × W :=
  match sys.readData fc.fd fc.hdr.dataSize w with
  | (none, w) =>
    let (fc, w) := fc.closeFd sys w
    (false, fc, resp, w)
  | (some data, w) =>
    let hdr :=
      if fc.hdr.contentLength < 0 then
        { fc.hdr with contentLength := fc.cacheFinfo.stSize - fc.hdr.contentOffset }
      else fc.hdr
    (true, { fc with hdr, inputFd := resp.sendfileFd, fd := 0 },
      fc.cachedResponse hdr data resp, w)

/-- `fc_serve`. -/
def serve (sys : FileCacheSystem W) (fc : FcFilterData) (curTime : ℤ) (ex : Exchange W) :
    NxwebResult × FcFilterData × Exchange W :=
  match fc.readHeader sys ex.world with
  | (false, fc, world) => (.next, fc, { ex with world })
  | (true, fc, world) =>
    match fc.readData sys ex.resp world with
    | (false, fc, resp, world) => (.next, fc, { ex with resp, world })
    | (true, fc, resp, world) =>
      let resp := if resp.expires ≤ curTime then { resp with expires := 0 } else resp
      (.ok, fc, { ex with resp, world })

/-! ### Asking the cache -/

/-- `fc_build_cache_fpath`. -/
def buildCacheFpath (fc : FcFilterData) (cacheKey : List UInt8) : FcFilterData :=
  let key := if cacheKey.take 3 = bytes "../" then cacheKey.drop 2 else cacheKey
  let key := if key.head? = some slash then key else slash :: key
  { fc with cacheFpath := some (fc.cacheDir ++ key ++ bytes ".nxc") }

/-- `fc_initiate_revalidation`. -/
def initiateRevalidation (fc : FcFilterData) (ex : Exchange W) :
    NxwebResult × FcFilterData × Exchange W :=
  (.revalidate,
    { fc with ifModifiedSinceOriginal := ex.req.ifModifiedSince, revalidationMode := true },
    { ex with req := { ex.req with ifModifiedSince := fc.hdr.lastModified } })

end FcFilterData

/-- `_nxweb_fc_serve_from_cache`. -/
def serveFromFileCache (sys : FileCacheSystem W) (cacheKey : Option (List UInt8))
    (fc : FcFilterData) (checkTime : ℤ) (ex : Exchange W) :
    NxwebResult × FcFilterData × Exchange W :=
  match cacheKey with
  | none => (.next, fc, ex)
  | some key =>
    match (fc.buildCacheFpath key).readHeader sys ex.world with
    | (false, fc, world) =>
      let ex := { ex with world }
      if ex.req.ifModifiedSince ≠ 0 then
        (.next, { fc with ifModifiedSinceOriginal := ex.req.ifModifiedSince },
          { ex with req := { ex.req with ifModifiedSince := 0 } })
      else (.next, fc, ex)
    | (true, fc, world) =>
      let ex := { ex with world }
      if fc.cacheFinfo.stMtime < checkTime then fc.initiateRevalidation ex
      else fc.serve sys checkTime ex

/-! ### The response of the backend -/

/-- The condition of the client is put back. -/
def FcFilterData.restoreCondition (fc : FcFilterData) (ifModifiedSince : ℤ) : ℤ :=
  if fc.ifModifiedSinceOriginal ≠ 0 ∨ fc.revalidationMode then fc.ifModifiedSinceOriginal
  else ifModifiedSince

/-- The new time of expiry that a `304` of the backend gives, `0` if it gives none. -/
def HttpResponse.newExpiresTime (resp : HttpResponse) (curTime : ℤ) : ℤ :=
  if 0 < resp.maxAge then curTime + resp.maxAge
  else if resp.expires ≠ 0 ∧ curTime < resp.expires then resp.expires
  else 0

/-- The cached response is used for that of the backend. -/
def serveStale (sys : FileCacheSystem W) (fc : FcFilterData) (curTime : ℤ) (ex : Exchange W) :
    NxwebResult × FcFilterData × Exchange W :=
  match fc.serve sys curTime ex with
  | (.ok, fc, ex) => (.ok, fc, ex)
  | (_, fc, ex) =>
    let resp := ex.resp.sendHttpError sys.server.revision 500 (bytes "Internal Server Error")
    (.error, fc, { ex with resp })

/-- `_nxweb_fc_revalidate`. -/
def revalidateFileCache (sys : FileCacheSystem W) (fc : FcFilterData) (ex : Exchange W) :
    NxwebResult × FcFilterData × Exchange W :=
  let ex := { ex with req := { ex.req with
    ifModifiedSince := fc.restoreCondition ex.req.ifModifiedSince } }
  if ¬ fc.revalidationMode then (.next, fc, ex)
  else
    let curTime := sys.currentHttpTime ex.world
    if ex.resp.statusCode = 304 then
      let expiresTime := ex.resp.newExpiresTime curTime
      match serveStale sys fc curTime ex with
      | (.ok, fc, ex) =>
        -- the previous `max_age` is used if there is no new one
        let expiresTime :=
          if expiresTime = 0 ∧ 0 < fc.hdr.maxAge then curTime + fc.hdr.maxAge else expiresTime
        if expiresTime ≠ 0 then
          (.ok, fc, { ex with
            resp := { ex.resp with expires := expiresTime }
            world := sys.utime (fc.cacheFpath.getD []) expiresTime ex.world })
        else (.ok, fc, ex)
      | r => r
    else if ex.resp.statusCode.tdiv 100 = 5 then serveStale sys fc curTime ex
    else if fc.fd ≠ 0 ∧ fc.fd ≠ -1 then
      let (fc, world) := fc.closeFd sys ex.world
      (.next, fc, { ex with world })
    else (.next, fc, ex)

/-! ### Storing a response -/

/-- The strings of a response in the data of a cache file, with the header that says where they
are. -/
def HttpResponse.cacheData (resp : HttpResponse) : FcFileHeader × List UInt8 :=
  let add (s : Option (List UInt8)) (data : List UInt8) : ℕ × List UInt8 :=
    match s with
    | some s => (data.length, data ++ s ++ [0])
    | none => (0, data)
  let (contentType, data) := add resp.contentType [0]
  let (contentCharset, data) := add resp.contentCharset data
  let (cacheControl, data) := add resp.cacheControl data
  let extra := (addExtraResponseHeaders resp.headers).flatMap fun f => headerText f ++ crlf
  let (extraRawHeaders, data) := add (if resp.headers = [] then none else some extra) data
  ({ signature := nxfcSignature
     headerSize := fcHeaderSize
     gzipEncoded := resp.gzipEncoded
     ssiOn := resp.ssiOn
     templatesOn := resp.templatesOn
     statusCode := resp.statusCode
     contentLength := resp.contentLength
     lastModified := resp.lastModified
     expires := resp.expires
     maxAge := resp.maxAge
     contentType, contentCharset, cacheControl, extraRawHeaders
     dataSize := data.length
     contentOffset := fcHeaderSize + data.length }, data)

/-- `fc_store_abort`. -/
def FcFilterData.storeAbort (sys : FileCacheSystem W) (fc : FcFilterData) (w : W) :
    FcFilterData × W :=
  ({ fc with tmpFpath := none, fd := -1 },
    sys.unlink (fc.tmpFpath.getD []) (sys.close fc.fd w))

/-- `fc_store_begin`; the flag is false for the result `-1`. A file that cannot be created is not
an error. -/
def FcFilterData.storeBegin (sys : FileCacheSystem W) (fc : FcFilterData) (resp : HttpResponse)
    (w : W) : Bool × FcFilterData × W :=
  match sys.openCreate (fc.tmpFpath.getD []) w with
  | (none, w) => (true, { fc with fd := -1 }, w)
  | (some fd, w) =>
    let (hdr, data) := resp.cacheData
    let fc := { fc with fd := (fd : ℕ), hdr }
    match sys.writeHeader fc.fd hdr w with
    | (false, w) => (false, fc.storeAbort sys w)
    | (true, w) =>
      match sys.writeData fc.fd data w with
      | (false, w) => (false, fc.storeAbort sys w)
      | (true, w) => (true, fc, w)

/-- `fc_store_append`; the flag is false for the result `-1`. -/
def FcFilterData.storeAppend (sys : FileCacheSystem W) (fc : FcFilterData) (ptr : List UInt8)
    (w : W) : Bool × FcFilterData × W :=
  match sys.writeData fc.fd ptr w with
  | (false, w) => (false, fc.storeAbort sys w)
  | (true, w) => (true, fc, w)

/-- The system calls that only `fc_store_close` makes. -/
structure FileCacheLinks (W : Type) where
  futimes : ℤ → ℤ → W → W
  link : List UInt8 → List UInt8 → W → Bool × W

/-- `fc_store_close`; the flag is false for the result `-1`. -/
def FcFilterData.storeClose (sys : FileCacheSystem W) (links : FileCacheLinks W) (fc : FcFilterData)
    (w : W) : Bool × FcFilterData × W :=
  let (fc, w) := fc.closeFd sys (links.futimes fc.fd fc.expiresTime w)
  let tmpFpath := fc.tmpFpath.getD []
  let cacheFpath := fc.cacheFpath.getD []
  match links.link tmpFpath cacheFpath (sys.unlink cacheFpath w) with
  | (false, w) => (false, { fc with tmpFpath := none }, sys.unlink tmpFpath w)
  | (true, w) => (true, fc, sys.unlink tmpFpath w)

/-- The time until which a response may be used, `none` if it may not be kept. -/
def HttpResponse.storeUntil (resp : HttpResponse) (curTime : ℤ) : Option ℤ :=
  if resp.maxAge ≠ 0 then some (curTime + resp.maxAge)
  else if resp.expires ≠ 0 then some resp.expires
  -- it is kept, and revalidated at the next request
  else if resp.lastModified ≠ 0 then some (curTime - 5)
  else none

/-- The part of `_nxweb_fc_store` that writes a new cache file. -/
def storeAs (sys : FileCacheSystem W) (fc : FcFilterData) (fpath : List UInt8)
    (curTime expiresTime : ℤ) (ex : Exchange W) : NxwebResult × FcFilterData × Exchange W :=
  let tmpFpath := fpath ++ bytes ".tmp"
  let fc := { fc with tmpFpath := some tmpFpath }
  match sys.mkpath tmpFpath ex.world with
  | (false, world) => (.ok, fc, { ex with world })
  | (true, world) =>
    let resp := { ex.resp with
      lastModified := if ex.resp.lastModified = 0 then curTime else ex.resp.lastModified
      etag := none }
    match { fc with expiresTime }.storeBegin sys resp world with
    | (false, fc, world) => (.ok, fc, { ex with resp, world })
    | (true, fc, world) =>
      (.ok, fc, { ex with
        resp := { resp with contentOut := some .dataOut }, world := sys.connectDataIn world })

/-- `_nxweb_fc_store`. -/
def storeFileCache (sys : FileCacheSystem W) (fc : FcFilterData) (ex : Exchange W) :
    NxwebResult × FcFilterData × Exchange W :=
  match fc.cacheFpath with
  | none => (.ok, fc, ex)
  | some fpath =>
    if ex.resp.statusCode ≠ 0 ∧ ex.resp.statusCode ≠ 200 then (.ok, fc, ex)
    else if ex.resp.noCache ∨ ex.resp.cachePrivate then (.ok, fc, ex)
    else
      let ex := { ex with resp := ex.resp.setupContentOut sys.server }
      if ex.resp.contentOut = none then (.ok, fc, ex)
      else
        let curTime := sys.currentHttpTime ex.world
        match ex.resp.storeUntil curTime with
        | none => (.next, fc, ex)
        | some expiresTime =>
          -- nothing new to store
          if fc.hdr.headerSize ≠ 0 ∧ fc.hdr.lastModified = ex.resp.lastModified then (.ok, fc, ex)
          else storeAs sys fc fpath curTime expiresTime ex

/-! ### The filter -/

/-- The data of a filter: `fdata->fcache`, and what filters of other kinds add. -/
structure FilterPriv (P : Type) where
  fcache : Option FcFilterData := none
  other : Option P := none

/-- A function of the cache, called with the data of a filter. The pointer is not null, since
`fc_init` has set it. -/
def FilterData.onFcache (fdata : FilterData (FilterPriv P))
    (f : FcFilterData → Exchange W → NxwebResult × FcFilterData × Exchange W) (ex : Exchange W) :
    NxwebResult × FilterData (FilterPriv P) × Exchange W :=
  match fdata.priv.fcache with
  | none => (.error, fdata, ex)
  | some fc =>
    let (r, fc, ex) := f fc ex
    (r, { fdata with priv := { fdata.priv with fcache := some fc } }, ex)

/-- `fc_do_filter`. -/
def fcDoFilter (sys : FileCacheSystem W) (fc : FcFilterData) (ex : Exchange W) :
    NxwebResult × FcFilterData × Exchange W :=
  match revalidateFileCache sys fc ex with
  | (.next, fc, ex) => storeFileCache sys fc ex
  | r => r

/-- `fc_finalize`. The buffer of the file has no state here. -/
def fcFinalize (sys : FileCacheSystem W) (fc : FcFilterData) (w : W) : W :=
  let w :=
    if fc.fd ≠ 0 ∧ fc.fd ≠ -1 then
      match fc.tmpFpath with
      | some tmp => sys.unlink tmp (sys.close fc.fd w)
      | none => sys.close fc.fd w
    else w
  if fc.inputFd ≠ 0 ∧ fc.inputFd ≠ -1 then sys.close fc.inputFd w else w

/-- `file_cache_filter` with its `cache_dir`. The function `fc_translate_cache_key` has no `return`
statement; `translated` is what it returns. -/
def fileCacheFilter (sys : FileCacheSystem W) (cacheDir : List UInt8) (translated : NxwebResult) :
    Filter W (FilterPriv P) where
  init := fun ex => (some { priv := { fcache := some { cacheDir } } }, ex)
  translateCacheKey := some fun fdata key ex =>
    (translated, { fdata with cacheKey := some key }, ex)
  serveFromCache := some fun fdata checkTime ex =>
    fdata.onFcache (fun fc ex => serveFromFileCache sys fdata.cacheKey fc checkTime ex) ex
  doFilter := some fun fdata ex => fdata.onFcache (fcDoFilter sys) ex
  finalize := some fun fdata ex =>
    match fdata.priv.fcache with
    | some fc => { ex with world := fcFinalize sys fc ex.world }
    | none => ex

end Nxweb
