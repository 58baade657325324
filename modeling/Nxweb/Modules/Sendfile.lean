import Nxweb.Http.Message
import Nxweb.Uri.PathCorrectness

/-!
# The file of a request

Model of `sendfile_generate_cache_key` (`modules/sendfile.c`). The handler turns the path of a
request into the path of a file: it puts its directory in front of the path, decodes the path
in place, appends the name of the index file to a directory, and normalises the result. The
file path is also the cache key.

The document root is confined to paths that the normalisation can close with a terminator. The
path that it is given, decoded and with the index file appended, is empty, or its last segment
decides (`sendfileGenerateCacheKey_confined_iff`): a name is copied together with the
terminator, but after an empty segment, `.` or `..` the bytes that stood behind the kept segments
stay in the file path and can climb out of the root.

## Main definitions

* `SendfileHandler`: the configuration of the handler;
* `documentRoot`: the directory, with the host name in the place of `{host}`;
* `sendfileGenerateCacheKey`: the callback;
* `requestPath`: the path before normalisation.
-/

namespace Nxweb

open Lib

/-- The fields of `nxweb_handler` that the callback reads. -/
structure SendfileHandler where
  dir : CStr
  indexFile : CStr
  charset : Option (List UInt8) := none
  deriving DecidableEq, Repr

/-- `strstr`: the text in front of the first occurrence of `pat` and the text behind it. -/
def strstr (pat : List UInt8) : List UInt8 → Option (List UInt8 × List UInt8)
  | [] => if pat = [] then some ([], []) else none
  | c :: s =>
    if pat.isPrefixOf (c :: s) then some ([], (c :: s).drop pat.length)
    else (strstr pat s).map fun (before, after) => (c :: before, after)

/-- The placeholder for the host name in the directory of a handler. -/
def hostPlaceholder : List UInt8 := bytes "\x7bhost\x7d"

/-- The document root of a request. `none` is a read through a null pointer, `some none` a host
name that is refused. The flag `_NXWEB_HOST_DEPENDENT_DIR` is set by `_nxweb_register_handler`
if the directory has the placeholder. -/
def documentRoot (h : SendfileHandler) (host : Option CStr) : Option (Option (List UInt8)) :=
  match strstr hostPlaceholder h.dir.toList with
  | none => some (some h.dir.toList)
  | some (before, after) => do
    let host ← host
    if host.toList.head? = some dot ∨ slash ∈ host.toList then return none
    -- the port is cut off
    return some (before ++ host.toList.takeWhile (· ≠ 58) ++ after)

/-- The region that the normalisation is called on: the path without its query string, decoded,
with the index file appended to a directory. `room` is what the arena holds behind the
terminator of the path. -/
def requestPath (h : SendfileHandler) (pathInfo : CStr) (room : List UInt8) : List UInt8 :=
  let mem := urlDecode (pathInfo.toList.takeWhile (· ≠ 63) ++ 0 :: room)
  let path := cstr mem
  if path.getLast? = some slash then
    let path := path ++ h.indexFile.toList ++ [0]
    path ++ mem.drop path.length
  else mem

/-- `sendfile_generate_cache_key`, with the lookup of a mime type by the extension of a path. -/
def sendfileGenerateCacheKey (mimeTypeByExt : List UInt8 → Option MimeType)
    (h : SendfileHandler) (req : HttpRequest) (resp : HttpResponse) (room : List UInt8) :
    Option (NxwebResult × HttpResponse) := do
  if ¬ req.getMethod ∨ req.contentLength ≠ 0 then return (.next, resp)
  match ← documentRoot h req.host with
  | none => return (.next, resp)
  | some root =>
    let pathInfo ← req.pathInfo
    let (code, mem) ← removeDotsFromUriPath (requestPath h pathInfo room)
    if code ≠ 0 then return (.next, resp)
    let fpath := cstr (root ++ mem)
    let resp := { resp with
      cacheKey := some fpath, sendfilePath := some fpath, mtype := mimeTypeByExt fpath }
    match resp.mtype with
    | none => return (.ok, resp)
    | some mtype =>
      let resp := { resp with contentType := some mtype.mime }
      return (.ok, if mtype.charsetRequired then { resp with contentCharset := h.charset } else resp)

/-! ### The document root -/

/-- What stands around an occurrence is part of the string. -/
theorem strstr_subset {pat s before after : List UInt8} (h : strstr pat s = some (before, after)) :
    before ⊆ s ∧ after ⊆ s := by
  induction s generalizing before with
  | nil =>
    simp only [strstr] at h
    split_ifs at h
    simp_all
  | cons c s ih =>
    simp only [strstr] at h
    split_ifs at h with hpat
    · simp only [Option.some.injEq, Prod.mk.injEq] at h
      obtain ⟨rfl, rfl⟩ := h
      exact ⟨by simp, List.drop_subset _ _⟩
    · obtain ⟨⟨b, a⟩, hrec, heq⟩ := Option.map_eq_some_iff.mp h
      simp only [Prod.mk.injEq] at heq
      obtain ⟨rfl, rfl⟩ := heq
      obtain ⟨hb, ha⟩ := ih hrec
      exact ⟨List.cons_subset_cons c hb, fun x hx => List.mem_cons_of_mem c (ha hx)⟩

/-- The document root is a string. -/
theorem zero_notMem_documentRoot {h : SendfileHandler} {host : Option CStr} {root : List UInt8}
    (hroot : documentRoot h host = some (some root)) : 0 ∉ root := by
  have hdir := h.dir.zero_notMem
  unfold documentRoot at hroot
  split at hroot
  · cases hroot
    exact hdir
  next before after hstr =>
    obtain ⟨hb, ha⟩ := strstr_subset hstr
    cases host with
    | none => simp at hroot
    | some host =>
      simp only [Option.bind_eq_bind, Option.bind_some, Option.pure_def] at hroot
      split_ifs at hroot
      · simp at hroot
      · simp only [Option.some.injEq] at hroot
        rw [← hroot]
        simp only [List.mem_append, not_or]
        exact ⟨⟨fun h0 => hdir (hb h0), fun h0 => host.zero_notMem (List.takeWhile_subset _ h0)⟩,
          fun h0 => hdir (ha h0)⟩

/-! ### Confinement -/

/-- If the request is accepted, the file path lies under the document root: resolved behind the
root segment by segment, it never leaves it. -/
def FileConfined (mimeTypeByExt : List UInt8 → Option MimeType) (h : SendfileHandler)
    (req : HttpRequest) (resp : HttpResponse) (room : List UInt8) : Prop :=
  ∀ root resp', documentRoot h req.host = some (some root) →
    sendfileGenerateCacheKey mimeTypeByExt h req resp room = some (.ok, resp') →
    ∃ path, resp'.sendfilePath = some (root ++ path) ∧ Confined slash dot path

/-- How a path ends: `none` if it is empty, else its last segment. -/
def pathEnding (path : List UInt8) : Option (List UInt8) :=
  if path = [] then none else (path.splitOn slash).getLast?

/-- An accepted request has the document root in front of what the normalisation leaves. -/
theorem sendfileGenerateCacheKey_ok {mimeTypeByExt : List UInt8 → Option MimeType}
    {h : SendfileHandler} {req : HttpRequest} {resp resp' : HttpResponse} {room root : List UInt8}
    {pathInfo : CStr} (hroot : documentRoot h req.host = some (some root))
    (hpath : req.pathInfo = some pathInfo)
    (hok : sendfileGenerateCacheKey mimeTypeByExt h req resp room = some (.ok, resp')) :
    ∃ mem, removeDotsFromUriPath (requestPath h pathInfo room) = some (0, mem) ∧
      resp'.sendfilePath = some (root ++ cstr mem) := by
  unfold sendfileGenerateCacheKey at hok
  simp only [hroot, hpath, Option.bind_eq_bind, Option.bind_some, Option.pure_def] at hok
  split_ifs at hok
  · simp at hok
  · obtain ⟨⟨code, mem⟩, hdots, hrest⟩ := Option.bind_eq_some_iff.mp hok
    simp only at hrest
    split_ifs at hrest with hcode
    · simp at hrest
    · rw [cstr_append (zero_notMem_documentRoot hroot)] at hrest
      refine ⟨mem, by rw [hdots, not_not.mp hcode], ?_⟩
      cases hmime : mimeTypeByExt (root ++ cstr mem) with
      | none =>
        simp only [hmime, Option.some.injEq, Prod.mk.injEq, true_and] at hrest
        rw [← hrest]
      | some mtype =>
        simp only [hmime, Option.some.injEq, Prod.mk.injEq, true_and] at hrest
        rw [← hrest]
        split_ifs <;> rfl

/-- The region the normalisation is called on is a string with its terminator. -/
theorem exists_requestPath_eq (h : SendfileHandler) (pathInfo : CStr) (room : List UInt8) :
    ∃ tail, requestPath h pathInfo room = cstr (requestPath h pathInfo room) ++ 0 :: tail := by
  have hregion : ∀ xs ys : List UInt8,
      ∃ tail, xs ++ 0 :: ys = cstr (xs ++ 0 :: ys) ++ 0 :: tail := by
    intro xs ys
    induction xs with
    | nil => exact ⟨ys, rfl⟩
    | cons x xs ih =>
      obtain ⟨tail, htail⟩ := ih
      by_cases hx : x = 0
      · exact ⟨xs ++ 0 :: ys, by simp [hx]⟩
      · refine ⟨tail, ?_⟩
        have hcons := @cstr_append [x] (by simpa using Ne.symm hx) (xs ++ 0 :: ys)
        rw [List.singleton_append] at hcons
        rw [List.cons_append, hcons, List.singleton_append, List.cons_append, ← htail]
  unfold requestPath
  simp only
  split_ifs
  · rw [List.append_assoc _ [0], List.singleton_append]
    exact hregion _ _
  · rw [urlDecode]
    simp only [List.append_assoc, List.singleton_append]
    exact hregion _ _

/-- A path that ends in a name, or is empty, is confined. -/
theorem fileConfined_of_name {mimeTypeByExt : List UInt8 → Option MimeType} {h : SendfileHandler}
    {req : HttpRequest} {resp : HttpResponse} {room : List UInt8} {pathInfo : CStr}
    (hpath : req.pathInfo = some pathInfo)
    (hend : ∀ s, pathEnding (cstr (requestPath h pathInfo room)) = some s →
      segmentKind dot s = .name) : FileConfined mimeTypeByExt h req resp room := by
  intro root resp' hroot hok
  obtain ⟨mem, hdots, hfile⟩ := sendfileGenerateCacheKey_ok hroot hpath hok
  refine ⟨cstr mem, hfile, ?_⟩
  obtain ⟨tail, hregion⟩ := exists_requestPath_eq h pathInfo room
  rw [hregion] at hdots
  by_cases hnil : cstr (requestPath h pathInfo room) = []
  · rw [hnil] at hdots
    have hmem : (0 : UInt8) :: tail = mem := by simpa [removeDotsFromUriPath] using hdots
    rw [← hmem, cstr_zero_cons]
    exact confined_nil slash dot
  · obtain ⟨ss, s, hsplit⟩ : ∃ ss s,
        (cstr (requestPath h pathInfo room)).splitOn slash = ss ++ [s] :=
      ⟨_, _, (List.dropLast_append_getLast (List.splitOn_ne_nil slash _)).symm⟩
    have hs : segmentKind dot s = .name := by
      apply hend
      rw [pathEnding, if_neg hnil, hsplit, List.getLast?_concat]
    obtain ⟨code, mem', hdots', hconf⟩ := @removeDotsFromUriPath_of_name _ tail _ _
      (zero_notMem_cstr _) hsplit hs
    rw [hdots'] at hdots
    obtain ⟨rfl, rfl⟩ : code = 0 ∧ mem' = mem := by simpa using hdots
    exact hconf rfl

/-- A GET request for a path. -/
def getRequest (path : List UInt8) (h : 0 ∉ path) : HttpRequest where
  getMethod := true
  pathInfo := some ⟨path, h⟩

/-- A handler that serves the directory `www` and appends nothing to directories. -/
def wwwHandler : SendfileHandler where
  dir := ⟨bytes "www", by decide⟩
  indexFile := ⟨[], by decide⟩

/-- A request that is accepted with a file path that is not confined. -/
theorem not_fileConfined {path : List UInt8} {h0 : 0 ∉ path} {room : List UInt8}
    (fpath : List UInt8)
    (hdots : (removeDotsFromUriPath (requestPath wwwHandler ⟨path, h0⟩ room)).map
      (fun r => (r.1, cstr r.2)) = some (0, fpath)) (hpath : ¬ Confined slash dot fpath) :
    ¬ FileConfined (fun _ => none) wwwHandler (getRequest path h0) {} room := by
  intro hconf
  obtain ⟨⟨code, mem⟩, hmem, heq⟩ := Option.map_eq_some_iff.mp hdots
  obtain ⟨rfl, rfl⟩ := Prod.mk.inj heq
  have hroot : documentRoot wwwHandler none = some (some (bytes "www")) := by decide
  have hok : sendfileGenerateCacheKey (fun _ => none) wwwHandler (getRequest path h0) {} room =
      some (.ok, { cacheKey := some (cstr (bytes "www" ++ mem))
                   sendfilePath := some (cstr (bytes "www" ++ mem)) }) := by
    simp [sendfileGenerateCacheKey, getRequest, hroot, hmem]
  obtain ⟨path', hfile', hpath'⟩ := hconf _ _ hroot hok
  rw [Option.some.injEq, cstr_append (by decide), List.append_cancel_left_eq] at hfile'
  exact hpath (hfile' ▸ hpath')

/-- The path `/a/b/../../xxx/.` is accepted, and the file path leaves the directory. -/
theorem not_fileConfined_dot : ¬ FileConfined (fun _ => none) wwwHandler
    (getRequest (bytes "/a/b/../../xxx/.") (by decide)) {} [] :=
  not_fileConfined (bytes "/xxx/../../xxx/.") (by decide +kernel) (by decide +kernel)

/-- Each ending that is no name has a path whose old bytes climb. -/
theorem exists_not_fileConfined {s : List UInt8} (hs : segmentKind dot s ≠ .name) :
    ∃ path h0 room, pathEnding (cstr (requestPath wwwHandler ⟨path, h0⟩ room)) = some s ∧
      ¬ FileConfined (fun _ => none) wwwHandler (getRequest path h0) {} room := by
  have hcase : s = [] ∨ s = [dot] ∨ s = [dot, dot] := by
    by_contra hcon
    simp only [not_or] at hcon
    simp [segmentKind, hcon] at hs
  rcases hcase with rfl | rfl | rfl
  · exact ⟨bytes "/a/b/../../xxx/", by decide, [], by decide +kernel,
      not_fileConfined (bytes "/xxx/../../xxx/") (by decide +kernel) (by decide +kernel)⟩
  · exact ⟨bytes "/a/b/../../xxx/.", by decide, [], by decide +kernel,
      not_fileConfined (bytes "/xxx/../../xxx/.") (by decide +kernel) (by decide +kernel)⟩
  · -- the byte behind the terminator is a zero, where the loop stops
    exact ⟨bytes "/a/b/c/d/../../../../xxx/zz/..", by decide, [0], by decide +kernel,
      not_fileConfined (bytes "/xxx/zz//../../../../xxx/zz/..") (by decide +kernel)
        (by decide +kernel)⟩

/-- Which endings of the path keep the file under the document root: all requests whose path
ends in a given way are confined if and only if that ending is a name, or the path is empty. -/
theorem fileConfined_iff (ending : Option (List UInt8)) :
    (∀ mimeTypeByExt h req resp room pathInfo, req.pathInfo = some pathInfo →
      pathEnding (cstr (requestPath h pathInfo room)) = ending →
      FileConfined mimeTypeByExt h req resp room) ↔
    ∀ s, ending = some s → segmentKind dot s = .name := by
  constructor
  · rintro hall s rfl
    by_contra hkind
    obtain ⟨path, h0, room, hend, hnot⟩ := exists_not_fileConfined hkind
    exact hnot (hall _ _ _ _ _ _ rfl hend)
  · intro hname mimeTypeByExt h req resp room pathInfo hpath hend
    exact fileConfined_of_name hpath fun s hs => hname s (hend ▸ hs)

end Nxweb
