import Nxweb.Http.Message
import Nxweb.Uri.FilePath

/-!
# Cache keys of the proxy handler

Model of `proxy_generate_cache_key` (`modules/http_proxy.c`). The key of a cacheable request is
the encoded host, the mark `_s` for a secure connection, and the encoded URI, one behind the
other.

The encoding loses nothing but the difference between a separator of the string and an inserted
one, and the concatenation loses where the host ends. Two keys are therefore different exactly if
the concatenations of the strings before escaping are (`cacheKey_ne_iff`). Hosts with a
separator, hosts that end in `_s`, and long segments give different requests the same key.
-/

namespace Nxweb

open Lib

/-- The mark of a secure connection. -/
def secureMark (secure : Bool) : List UInt8 := if secure then bytes "_s" else []

/-- `proxy_generate_cache_key`: the callback always succeeds, and sets the cache key of the
response if the request can be cached. -/
def proxyGenerateCacheKey (secure : Bool) (req : HttpRequest) (resp : HttpResponse) :
    NxwebResult × HttpResponse :=
  if ¬ req.getMethod ∨ req.contentLength ≠ 0 then (.ok, resp)
  else
    let host := (req.host.map CStr.toList).getD []
    let uri := (req.uri.map CStr.toList).getD []
    (.ok, { resp with
      cacheKey := some (encodeFilePath host ++ secureMark secure ++ encodeFilePath uri) })

/-- A request that can be cached, as the request parser accepts it: a GET or HEAD request
without body, with a lower-case host and a URI that starts with a separator. -/
structure CacheableRequest where
  host : CStr
  secure : Bool
  uri : CStr
  host_ne_nil : host.toList ≠ []
  host_lower : ∀ c ∈ host.toList, ¬ (65 ≤ c ∧ c ≤ 90)
  uri_head : uri.toList.head? = some slash
  deriving DecidableEq

namespace CacheableRequest

/-- The request record. -/
def toRequest (r : CacheableRequest) : HttpRequest where
  getMethod := true
  host := some r.host
  uri := some r.uri

/-- The cache key the handler gives to the request. -/
def cacheKey (r : CacheableRequest) : Option (List UInt8) :=
  (proxyGenerateCacheKey r.secure r.toRequest {}).2.cacheKey

/-- Host, mark and URI one behind the other, with separators inserted into long segments. -/
def text (r : CacheableRequest) : List UInt8 :=
  breakLong r.host.toList ++ secureMark r.secure ++ breakLong r.uri.toList

/-- The key is the escaped text. -/
theorem cacheKey_eq (r : CacheableRequest) : r.cacheKey = some (escapePath true r.text) := by
  have huri : (breakLong r.uri.toList).head? ≠ some dot := by
    have h := r.uri_head
    cases hr : r.uri.toList with
    | nil => simp [hr] at h
    | cons c s =>
      obtain rfl : c = slash := by simpa [hr] using h
      simp [breakLong, breakLongFrom, show slash ≠ dot by decide]
  have hmark : (secureMark r.secure).head? ≠ some dot := by
    cases r.secure <;> decide
  have hkept : escapePath true (secureMark r.secure) = secureMark r.secure := by
    cases r.secure <;> decide
  rw [text, escapePath_append huri, escapePath_append hmark, hkept,
    ← encodeFilePath_eq_escapePath, ← encodeFilePath_eq_escapePath]
  rfl

/-- Two requests get different keys if and only if their texts are different. -/
theorem cacheKey_ne_iff (a b : CacheableRequest) :
    (a ≠ b → a.cacheKey ≠ b.cacheKey) ↔ (a ≠ b → a.text ≠ b.text) := by
  refine imp_congr_right fun _ => not_congr ?_
  rw [cacheKey_eq, cacheKey_eq, Option.some.injEq]
  exact ⟨escapePath_injective, congrArg _⟩

/-- Host `a/b` with URI `/c`, and host `a` with URI `/b/c`, share the key `a/b/c`. -/
theorem cacheKey_collision : ∃ a b : CacheableRequest,
    a.host.toList = bytes "a/b" ∧ a.secure = false ∧ a.uri.toList = bytes "/c" ∧
    b.host.toList = bytes "a" ∧ b.secure = false ∧ b.uri.toList = bytes "/b/c" ∧
    a ≠ b ∧ a.cacheKey = b.cacheKey :=
  ⟨⟨⟨bytes "a/b", by decide⟩, false, ⟨bytes "/c", by decide⟩, by decide,
      by decide +kernel, by decide⟩,
    ⟨⟨bytes "a", by decide⟩, false, ⟨bytes "/b/c", by decide⟩, by decide, by decide +kernel,
      by decide⟩,
    rfl, rfl, rfl, rfl, rfl, rfl, by decide, by decide⟩

end CacheableRequest

end Nxweb
