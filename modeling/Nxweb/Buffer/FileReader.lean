import Mathlib.Tactic
import Nxweb.Bytes

/-!
# File reader

Model of `nx_file_reader.c` and `nx_file_reader.h`. A file reader gives out spans of a file from a
window that it keeps between calls: a short piece that it has read, or a part of the file that is
mapped into memory, which begins at the start of a page.

What the operating system does is a parameter (`FileCalls`). A file that nobody modifies is read and
mapped as it is (`FileCalls.Serves`). Sizes and offsets are far from `2 ^ 64`.

* `FileReader`: a reader with its window;
* `FileCalls.toMemPtr`: `nx_file_reader_to_mem_ptr`;
* `FileCalls.readRange`: a range that is consumed bit by bit, each call asking for the rest.

The result is `readRange_exact`: whatever the reader has been used for before, the spans are those of
the file.
-/

namespace Nxweb

/-! ### The functions -/

/-- `NX_FILE_READER_MALLOC_SIZE`. -/
def fileReaderMallocSize : ℕ := 32768

/-- `NX_FILE_READER_MMAP_THRESHOLD`. -/
def fileReaderMmapThreshold : ℕ := 32768 * 8

/-- `NX_FILE_READER_MMAP_SIZE`. -/
def fileReaderMmapSize : ℕ := 67108864

/-- What the operating system answers to calls with a descriptor, an offset and a size. -/
structure FileCalls where
  /-- `sysconf(_SC_PAGE_SIZE)`, a power of two. -/
  pageSize : ℕ
  /-- Whether `lseek` gets to the offset. -/
  lseek : ℕ → ℕ → Bool
  /-- What `read` puts into memory, `none` for its error value `-1`. -/
  read : ℕ → ℕ → ℕ → Option (List UInt8)
  /-- The memory that `mmap` provides, `none` if it fails. -/
  mmap : ℕ → ℕ → ℕ → Option (List UInt8)
  /-- What memory from `nx_alloc` holds before it is written. -/
  alloc : ℕ → List UInt8

/-- `nx_file_reader`, as it is after `nx_file_reader_init`. -/
structure FileReader where
  fd : ℕ := 0
  /-- The memory at `mbuf`. -/
  mbuf : List UInt8 := []
  mbufOffset : ℕ := 0
  mbufSize : ℕ := 0
  fileSize : ℕ := 0
  mmapped : Bool := false
  /-- How many windows have been loaded, for the record. -/
  loads : ℕ := 0
  deriving DecidableEq, Repr

/-- `nx_file_reader_finalize`. The other fields are left as they are. -/
def FileReader.finalize (fr : FileReader) : FileReader :=
  if fr.fd ≠ 0 then { fr with fd := 0, mbuf := [] } else fr

/-- The memory after `memset(fr->mbuf, ' ', fr->mbuf_size)`. -/
def FileReader.fillSpaces (fr : FileReader) : FileReader :=
  { fr with mbuf := List.replicate fr.mbufSize 32 }

/-- `load_page`. -/
def FileCalls.loadPage (sys : FileCalls) (fr : FileReader) (offset : ℕ) : FileReader :=
  if fr.fileSize - offset ≤ fileReaderMmapThreshold then
    let fr := { fr with
      mmapped := false
      mbufOffset := offset
      mbufSize := min fileReaderMallocSize (fr.fileSize - offset)
      loads := fr.loads + 1 }
    if sys.lseek fr.fd fr.mbufOffset then
      match sys.read fr.fd fr.mbufOffset fr.mbufSize with
      | some data => if data.length < fr.mbufSize then fr.fillSpaces else { fr with mbuf := data }
      -- `-1` is compared as an unsigned number, and passes for a complete read
      | none => { fr with mbuf := sys.alloc fr.mbufSize }
    else fr.fillSpaces
  else
    -- `offset & PAGE_SIZE_MASK`
    let mbufOffset := offset / sys.pageSize * sys.pageSize
    let fr := { fr with
      mmapped := true
      mbufOffset
      mbufSize := min fileReaderMmapSize (fr.fileSize - mbufOffset)
      loads := fr.loads + 1 }
    match sys.mmap fr.fd fr.mbufOffset fr.mbufSize with
    | some data => { fr with mbuf := data }
    | none => { fr with mmapped := false }.fillSpaces

/-- Whether the reader has a window that is of no use. -/
def FileReader.stale (fr : FileReader) (fd fileSize offset : ℕ) : Bool :=
  fr.fd ≠ 0 ∧ (fd ≠ fr.fd ∨ fr.fileSize ≠ fileSize ∨ offset < fr.mbufOffset ∨
    fr.mbufOffset + fr.mbufSize ≤ offset)

/-- `nx_file_reader_get_mbuf_ptr`: the reader, the memory from the returned pointer on, and `*size`. -/
def FileCalls.getMbufPtr (sys : FileCalls) (fr : FileReader) (fd fileSize offset : ℕ) :
    FileReader × List UInt8 × ℕ :=
  if fileSize ≤ offset then (fr, [], 0)
  else
    let fr := if fr.stale fd fileSize offset then fr.finalize else fr
    let fr := if fr.fd = 0 then sys.loadPage { fr with fd, fileSize } offset else fr
    (fr, fr.mbuf.drop (offset - fr.mbufOffset), fr.mbufSize - (offset - fr.mbufOffset))

/-- The arguments `ptr`, `size` and `flags` of `nx_file_reader_to_mem_ptr` when it returns: the memory
that `ptr` points to (`none` if it has not been set), `*size`, and `NXEF_EOF`. -/
structure FileSpan where
  mem : Option (List UInt8)
  size : ℕ
  eof : Bool
  deriving DecidableEq, Repr

/-- `nx_file_reader_to_mem_ptr`, for the offset and the size that the caller asks for. -/
def FileCalls.toMemPtr (sys : FileCalls) (fr : FileReader) (fd offs size : ℕ) (eof : Bool) :
    FileReader × FileSpan :=
  if fd = 0 then (fr, ⟨none, size, eof⟩)
  else
    let (fr, mem, frSize) := sys.getMbufPtr fr fd (offs + size) offs
    -- `NXEF_EOF` is cleared and the size is set if less is available than asked for
    if frSize ≠ size then (fr, ⟨some mem, frSize, false⟩) else (fr, ⟨some mem, size, eof⟩)

/-- The bytes of a span. -/
def FileSpan.bytes (span : FileSpan) : List UInt8 := (span.mem.getD []).take span.size

/-! ### Uses of a reader -/

/-- What a reader can be used for. -/
inductive FileReaderOp where
  | toMemPtr (fd offs size : ℕ) (eof : Bool)
  | finalize
  deriving DecidableEq, Repr

/-- A reader after it has been used. -/
def FileCalls.exec (sys : FileCalls) (fr : FileReader) : FileReaderOp → FileReader
  | .toMemPtr fd offs size eof => (sys.toMemPtr fr fd offs size eof).1
  | .finalize => fr.finalize

/-- A call that asks for the rest of a range. -/
structure RangeCall where
  /-- The reader before and after the call. -/
  before : FileReader
  after : FileReader
  /-- Where the rest begins. -/
  offset : ℕ
  /-- Whether the caller has set `NXEF_EOF`. -/
  asked : Bool
  span : FileSpan
  /-- What the caller consumes of the span. -/
  consumed : List UInt8
  deriving DecidableEq, Repr

/-- A range is consumed from `offset` on: for each call, whether the caller sets `NXEF_EOF`, and how
much it consumes at most. -/
def FileCalls.readRange (sys : FileCalls) (fd stop : ℕ) :
    FileReader → ℕ → List (Bool × ℕ) → List RangeCall
  | _, _, [] => []
  | fr, offset, (asked, most) :: calls =>
    let (fr', span) := sys.toMemPtr fr fd offset (stop - offset) asked
    let consumed := span.bytes.take most
    ⟨fr, fr', offset, asked, span, consumed⟩ ::
      sys.readRange fd stop fr' (offset + consumed.length) calls

/-- What the operating system answers for files that nobody modifies, by descriptor. -/
structure FileCalls.Serves (sys : FileCalls) (files : ℕ → List UInt8) : Prop where
  /-- A page is not empty, and no larger than a window. -/
  pageSize_pos : 0 < sys.pageSize
  pageSize_le : sys.pageSize ≤ fileReaderMmapSize
  lseek : ∀ fd offset, offset ≤ (files fd).length → sys.lseek fd offset = true
  read : ∀ fd offset size, offset + size ≤ (files fd).length →
    sys.read fd offset size = some (((files fd).drop offset).take size)
  /-- Only whole pages can be mapped. -/
  mmap : ∀ fd offset size, sys.pageSize ∣ offset → 0 < size → offset + size ≤ (files fd).length →
    sys.mmap fd offset size = some (((files fd).drop offset).take size)

/-! ### The window -/

section Window

variable {sys : FileCalls} {files : ℕ → List UInt8} {fr : FileReader}

/-- A reader that is in use has a window in its range. If the range is one of the file, the window is a
part of the file. -/
structure FileReader.Valid (files : ℕ → List UInt8) (fr : FileReader) : Prop where
  inRange : fr.fd ≠ 0 → fr.mbufOffset + fr.mbufSize ≤ fr.fileSize
  window : fr.fd ≠ 0 → fr.fileSize ≤ (files fr.fd).length →
    fr.mbuf = ((files fr.fd).drop fr.mbufOffset).take fr.mbufSize

theorem FileReader.valid_init (files : ℕ → List UInt8) : ({} : FileReader).Valid files :=
  ⟨fun h => absurd rfl h, fun h => absurd rfl h⟩

@[simp] theorem FileReader.finalize_fd (fr : FileReader) : fr.finalize.fd = 0 := by
  unfold FileReader.finalize
  split_ifs with h
  · rfl
  · exact not_not.mp h

@[simp] theorem FileReader.finalize_loads (fr : FileReader) : fr.finalize.loads = fr.loads := by
  unfold FileReader.finalize
  split_ifs <;> rfl

theorem FileReader.valid_finalize (files : ℕ → List UInt8) (fr : FileReader) :
    fr.finalize.Valid files :=
  ⟨fun h => absurd fr.finalize_fd h, fun h => absurd fr.finalize_fd h⟩

@[simp] theorem FileReader.fillSpaces_fd (fr : FileReader) : fr.fillSpaces.fd = fr.fd := rfl

@[simp] theorem FileReader.fillSpaces_fileSize (fr : FileReader) :
    fr.fillSpaces.fileSize = fr.fileSize := rfl

/-- A page is loaded around the offset, and as a part of the file if the range is one. -/
structure PageLoaded (files : ℕ → List UInt8) (fr : FileReader) (offset : ℕ) (fr' : FileReader) :
    Prop where
  fd_eq : fr'.fd = fr.fd
  fileSize_eq : fr'.fileSize = fr.fileSize
  loads_eq : fr'.loads = fr.loads + 1
  offset_ge : fr'.mbufOffset ≤ offset
  offset_lt : offset < fr'.mbufOffset + fr'.mbufSize
  inRange : fr'.mbufOffset + fr'.mbufSize ≤ fr'.fileSize
  window : fr'.fileSize ≤ (files fr'.fd).length →
    fr'.mbuf = ((files fr'.fd).drop fr'.mbufOffset).take fr'.mbufSize

theorem pageLoaded (hsys : sys.Serves files) {offset : ℕ} (hoffset : offset < fr.fileSize) :
    PageLoaded files fr offset (sys.loadPage fr offset) := by
  unfold FileCalls.loadPage
  by_cases hshort : fr.fileSize - offset ≤ fileReaderMmapThreshold
  · -- a short piece is read
    rw [if_pos hshort]
    set size := min fileReaderMallocSize (fr.fileSize - offset) with hsize
    have hpos : 0 < size := lt_min (by decide) (by omega)
    have hlt : offset < offset + size := by omega
    have hle : offset + size ≤ fr.fileSize := by omega
    have hread : fr.fileSize ≤ (files fr.fd).length → sys.lseek fr.fd offset = true ∧
        sys.read fr.fd offset size = some (((files fr.fd).drop offset).take size) := fun hlen =>
      ⟨hsys.lseek _ _ (by omega), hsys.read _ _ _ (by omega)⟩
    simp only
    split_ifs with hseek
    · split
      · rename_i data hdata
        split_ifs with hless
        · refine ⟨rfl, rfl, rfl, le_rfl, hlt, hle, ?_⟩
          intro (hlen : fr.fileSize ≤ (files fr.fd).length)
          -- the file is long enough to be read in full
          have heq := Option.some.inj (hdata.symm.trans (hread hlen).2)
          rw [heq, List.length_take, List.length_drop] at hless
          exact absurd hless (by omega)
        · refine ⟨rfl, rfl, rfl, le_rfl, hlt, hle, ?_⟩
          intro hlen
          exact Option.some.inj (hdata.symm.trans (hread hlen).2)
      · rename_i hnone
        refine ⟨rfl, rfl, rfl, le_rfl, hlt, hle, ?_⟩
        intro hlen
        cases hnone.symm.trans (hread hlen).2
    · refine ⟨rfl, rfl, rfl, le_rfl, hlt, hle, ?_⟩
      intro hlen
      exact absurd (hread hlen).1 hseek
  · -- a part of the file is mapped, from the start of a page on
    rw [if_neg hshort]
    set start := offset / sys.pageSize * sys.pageSize with hstart
    set size := min fileReaderMmapSize (fr.fileSize - start) with hsize
    have hge : start ≤ offset := Nat.div_mul_le_self _ _
    have hpage : offset < start + sys.pageSize := by
      have h := Nat.lt_div_mul_add (a := offset) hsys.pageSize_pos
      omega
    have hlt : offset < start + size := by
      have h := hsys.pageSize_le
      omega
    have hle : start + size ≤ fr.fileSize := by omega
    have hmap : fr.fileSize ≤ (files fr.fd).length →
        sys.mmap fr.fd start size = some (((files fr.fd).drop start).take size) := fun hlen =>
      hsys.mmap _ _ _ (Nat.dvd_mul_left _ _) (by omega) (by omega)
    simp only
    split
    · rename_i data hdata
      refine ⟨rfl, rfl, rfl, hge, hlt, hle, ?_⟩
      intro hlen
      exact Option.some.inj (hdata.symm.trans (hmap hlen))
    · rename_i hnone
      refine ⟨rfl, rfl, rfl, hge, hlt, hle, ?_⟩
      intro hlen
      cases hnone.symm.trans (hmap hlen)

/-- A span is given out of a window that lies around the offset: the one of the reader before, which
was loaded for the same descriptor and the same end, or a new one. -/
structure SpanTaken (files : ℕ → List UInt8) (fr : FileReader) (fd fileSize offset : ℕ)
    (r : FileReader × List UInt8 × ℕ) : Prop where
  valid : r.1.Valid files
  fd_eq : r.1.fd = fd
  fileSize_eq : r.1.fileSize = fileSize
  offset_ge : r.1.mbufOffset ≤ offset
  offset_lt : offset < r.1.mbufOffset + r.1.mbufSize
  mem_eq : r.2.1 = r.1.mbuf.drop (offset - r.1.mbufOffset)
  size_eq : r.2.2 = r.1.mbufSize - (offset - r.1.mbufOffset)
  reuse : r.1 = fr ∨ r.1.loads = fr.loads + 1

theorem spanTaken (hsys : sys.Serves files) (hvalid : fr.Valid files) {fd fileSize offset : ℕ}
    (hoffset : offset < fileSize) :
    SpanTaken files fr fd fileSize offset (sys.getMbufPtr fr fd fileSize offset) := by
  rw [FileCalls.getMbufPtr, if_neg (not_le.mpr hoffset)]
  by_cases hkeep : fr.fd ≠ 0 ∧ ¬ fr.stale fd fileSize offset = true
  · -- the window is of use
    obtain ⟨hopen, hstale⟩ := hkeep
    simp only [if_neg hstale, if_neg hopen]
    simp only [FileReader.stale, decide_eq_true_eq, not_and, not_or, not_not, not_lt, not_le] at hstale
    obtain ⟨hfd', hsize, hge, hlt⟩ := hstale hopen
    exact ⟨hvalid, hfd'.symm, hsize, hge, hlt, rfl, rfl, .inl rfl⟩
  · -- whether it is of no use or there is none, a page is loaded
    have hclosed : (if fr.stale fd fileSize offset then fr.finalize else fr).fd = 0 := by
      split_ifs with hstale
      · exact fr.finalize_fd
      · exact of_not_not fun hopen => hkeep ⟨hopen, hstale⟩
    have hloads : (if fr.stale fd fileSize offset then fr.finalize else fr).loads = fr.loads := by
      split_ifs
      · exact fr.finalize_loads
      · rfl
    simp only
    generalize (if fr.stale fd fileSize offset then fr.finalize else fr) = fr' at hclosed hloads ⊢
    simp only [if_pos hclosed]
    have hload : offset < { fr' with fd, fileSize }.fileSize := hoffset
    obtain ⟨hfd', hsize, hload, hge, hlt, hrange, hwindow⟩ := pageLoaded hsys hload
    exact ⟨⟨fun _ => hrange, fun _ => hwindow⟩, hfd', hsize, hge, hlt, rfl, rfl,
      .inr (hload.trans (congrArg (· + 1) hloads))⟩

end Window

/-! ### What a call gives -/

/-- The span of a call for the rest of a range, from `offset` on: it consists of bytes of the file and
is empty at the end only, `NXEF_EOF` survives if it reaches the end, and a window is reused only if it
lies around the offset and was loaded for the same descriptor and the same end. -/
structure ExactSpan (content : List UInt8) (fd stop offset : ℕ) (asked : Bool) (fr fr' : FileReader)
    (span : FileSpan) : Prop where
  length_eq : span.bytes.length = span.size
  bytes_eq : span.bytes = (content.drop offset).take span.size
  size_le : offset + span.size ≤ stop
  size_pos : offset < stop → 0 < span.size
  eof_iff : span.eof = true ↔ asked = true ∧ offset + span.size = stop
  reuse : offset < stop → fr'.loads = fr.loads → fr' = fr ∧ fr.fd = fd ∧ fr.fileSize = stop ∧
    fr.mbufOffset ≤ offset ∧ offset < fr.mbufOffset + fr.mbufSize

section Call

variable {sys : FileCalls} {files : ℕ → List UInt8} {fr : FileReader}

theorem valid_toMemPtr (hsys : sys.Serves files) (hvalid : fr.Valid files) (fd offs size : ℕ)
    (eof : Bool) : (sys.toMemPtr fr fd offs size eof).1.Valid files := by
  rw [FileCalls.toMemPtr]
  split_ifs with hfd
  · exact hvalid
  · have hget : (sys.getMbufPtr fr fd (offs + size) offs).1.Valid files := by
      rcases Nat.lt_or_ge offs (offs + size) with hlt | hge
      · exact (spanTaken hsys hvalid hlt).valid
      · rw [FileCalls.getMbufPtr, if_pos hge]
        exact hvalid
    simp only
    split_ifs <;> exact hget

theorem exactSpan (hsys : sys.Serves files) (hvalid : fr.Valid files) {fd stop offset : ℕ}
    (hfd : fd ≠ 0) (hoffset : offset ≤ stop) (hstop : stop ≤ (files fd).length) (asked : Bool) :
    ExactSpan (files fd) fd stop offset asked fr (sys.toMemPtr fr fd offset (stop - offset) asked).1
      (sys.toMemPtr fr fd offset (stop - offset) asked).2 := by
  rw [FileCalls.toMemPtr, if_neg hfd, Nat.add_sub_cancel' hoffset]
  rcases Nat.eq_or_lt_of_le hoffset with rfl | hlt
  · -- at the end of the range nothing is left
    rw [FileCalls.getMbufPtr, if_pos le_rfl]
    simp only [Nat.sub_self, ne_eq, not_true, if_false]
    exact ⟨rfl, rfl, le_rfl, fun h => absurd h (lt_irrefl _), by simp,
      fun h => absurd h (lt_irrefl _)⟩
  · obtain ⟨hvalid', hfd', hsize', hge, hlt', hmem, hsize, hreuse⟩ := spanTaken hsys hvalid hlt
    generalize sys.getMbufPtr fr fd stop offset = r at *
    obtain ⟨fr', mem, frSize⟩ := r
    simp only at *
    have hopen : fr'.fd ≠ 0 := hfd' ▸ hfd
    have hrange := hvalid'.inRange hopen
    have hwindow := hvalid'.window hopen (by rw [hfd', hsize']; exact hstop)
    -- the window, from the offset on
    have hbytes : mem.take frSize = ((files fd).drop offset).take frSize := by
      rw [hmem, hwindow, hfd', List.drop_take, List.drop_drop, Nat.add_sub_cancel' hge, hsize,
        List.take_take, Nat.min_self]
    have hlen : (mem.take frSize).length = frSize := by
      rw [hbytes, List.length_take, List.length_drop]
      omega
    have hreuse' : fr'.loads = fr.loads → fr' = fr ∧ fr.fd = fd ∧ fr.fileSize = stop ∧
        fr.mbufOffset ≤ offset ∧ offset < fr.mbufOffset + fr.mbufSize := by
      intro hloads
      rcases hreuse with rfl | hnew
      · exact ⟨rfl, hfd', hsize', hge, hlt'⟩
      · omega
    by_cases hless : frSize ≠ stop - offset
    · rw [if_pos hless]
      exact ⟨hlen, hbytes, by simp only; omega, fun _ => by simp only; omega,
        by simp only [Bool.false_eq_true, false_iff, not_and]; omega, fun _ => hreuse'⟩
    · obtain rfl := not_not.mp hless
      rw [if_neg hless]
      exact ⟨hlen, hbytes, by simp only; omega, fun _ => by simp only; omega,
        by simp only [iff_self_and]; omega, fun _ => hreuse'⟩

theorem valid_exec (hsys : sys.Serves files) (hvalid : fr.Valid files) (op : FileReaderOp) :
    (sys.exec fr op).Valid files := by
  cases op with
  | toMemPtr fd offs size eof => exact valid_toMemPtr hsys hvalid fd offs size eof
  | finalize => exact fr.valid_finalize files

theorem valid_foldl_exec (hsys : sys.Serves files) (hvalid : fr.Valid files)
    (ops : List FileReaderOp) : (ops.foldl sys.exec fr).Valid files := by
  induction ops generalizing fr with
  | nil => exact hvalid
  | cons op ops ih => exact ih (valid_exec hsys hvalid op)

end Call

/-! ### A range that is consumed -/

/-- The calls cover the range from `offset` on: each begins behind what has been consumed before it,
which is the file up to there, and its span is exact. -/
def RangeExact (content : List UInt8) (fd stop offset : ℕ) (calls : List RangeCall) : Prop :=
  ∀ pre call post, calls = pre ++ call :: post →
    call.offset = offset + (pre.flatMap (·.consumed)).length ∧
    pre.flatMap (·.consumed) = (content.drop offset).take (pre.flatMap (·.consumed)).length ∧
    call.consumed <+: call.span.bytes ∧
    ExactSpan content fd stop call.offset call.asked call.before call.after call.span

theorem rangeExact_readRange {sys : FileCalls} {files : ℕ → List UInt8} {fr : FileReader}
    (hsys : sys.Serves files) (hvalid : fr.Valid files) {fd stop offset : ℕ} (hfd : fd ≠ 0)
    (hoffset : offset ≤ stop) (hstop : stop ≤ (files fd).length) (pattern : List (Bool × ℕ)) :
    RangeExact (files fd) fd stop offset (sys.readRange fd stop fr offset pattern) := by
  induction pattern generalizing fr offset with
  | nil =>
    intro pre call post hcalls
    exact absurd hcalls.symm (List.append_ne_nil_of_right_ne_nil _ (List.cons_ne_nil _ _))
  | cons turn pattern ih =>
    obtain ⟨asked, most⟩ := turn
    have hspan := exactSpan hsys hvalid hfd hoffset hstop asked
    have hvalid' := valid_toMemPtr hsys hvalid fd offset (stop - offset) asked
    intro pre call post hcalls
    simp only [FileCalls.readRange] at hcalls
    generalize sys.toMemPtr fr fd offset (stop - offset) asked = r at *
    obtain ⟨fr', span⟩ := r
    simp only at *
    have hconsumed : (span.bytes.take most).length ≤ span.size := by
      rw [List.length_take, hspan.length_eq]
      exact Nat.min_le_right _ _
    cases pre with
    | nil =>
      obtain ⟨rfl, -⟩ := List.cons.inj hcalls
      exact ⟨rfl, rfl, List.take_prefix _ _, hspan⟩
    | cons first pre =>
      obtain ⟨rfl, htail⟩ := List.cons.inj hcalls
      have hle := hspan.size_le
      obtain ⟨hstart, hpre, hprefix, hexact⟩ := ih hvalid' (by omega) pre call post htail
      refine ⟨?_, ?_, hprefix, hexact⟩
      · rw [hstart, List.flatMap_cons, List.length_append, Nat.add_assoc]
      · -- what is consumed first, and what is consumed then
        have hfirst : span.bytes.take most =
            ((files fd).drop offset).take (span.bytes.take most).length := by
          conv_lhs => rw [hspan.bytes_eq, List.take_take]
          rw [List.length_take, hspan.length_eq]
        rw [List.flatMap_cons, List.length_append, List.take_add, List.drop_drop, ← hpre, ← hfirst]

/-- Whatever a reader has been used for before, the spans of a range that is consumed are those of the
file. -/
theorem readRange_exact {sys : FileCalls} {files : ℕ → List UInt8} (hsys : sys.Serves files)
    (ops : List FileReaderOp) {fd stop offset : ℕ} (hfd : fd ≠ 0) (hoffset : offset ≤ stop)
    (hstop : stop ≤ (files fd).length) (pattern : List (Bool × ℕ)) :
    RangeExact (files fd) fd stop offset
      (sys.readRange fd stop (ops.foldl sys.exec {}) offset pattern) :=
  rangeExact_readRange hsys (valid_foldl_exec hsys (FileReader.valid_init files) ops) hfd hoffset hstop pattern

/-- A system that reads and maps the files as they are. -/
def FileCalls.ofFiles (files : ℕ → List UInt8) : FileCalls where
  pageSize := 4096
  lseek _ _ := true
  read fd offset size := some (((files fd).drop offset).take size)
  mmap fd offset size := some (((files fd).drop offset).take size)
  alloc size := List.replicate size 0

theorem FileCalls.serves_ofFiles (files : ℕ → List UInt8) : (FileCalls.ofFiles files).Serves files where
  pageSize_pos := show 0 < 4096 by decide
  pageSize_le := show 4096 ≤ 67108864 by decide
  lseek _ _ _ := rfl
  read _ _ _ _ := rfl
  mmap _ _ _ _ _ _ := rfl

/-- A file that is consumed byte by byte, by a reader that has been used for another one. -/
theorem readRange_exact_twoFiles :
    RangeExact (bytes "abc") 3 3 1
      ((FileCalls.ofFiles fun _ => bytes "abc").readRange 3 3
        ([FileReaderOp.toMemPtr 4 0 2 true].foldl (FileCalls.ofFiles fun _ => bytes "abc").exec {}) 1
        [(true, 1), (true, 1), (true, 1)]) :=
  readRange_exact (FileCalls.serves_ofFiles fun _ => bytes "abc") _ (by decide) (by decide)
    (by decide) _

end Nxweb
