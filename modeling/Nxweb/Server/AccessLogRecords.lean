import Nxweb.Server.AccessLog

/-!
# The access log keeps whole records

A record that fits is appended to the block behind the ones that are there, and fills it up at most.
So every block that is flushed consists of whole records, and they come in the order of the calls.

The block pointer and the room that is left say the same as long as there is a block. Without one,
they are out of date, and both are set when a block is allocated.

## Main results

* `accessLog_records`: what the log holds after any sequence of calls.
-/

namespace Nxweb

/-! ### Blocks of whole records -/

theorem WholeRecords.flush {blocks records : List (List UInt8)} {pending : List UInt8}
    (h : WholeRecords blocks pending records) : WholeRecords (blocks ++ [pending]) [] records := by
  obtain ⟨groups, last, rfl, rfl, rfl⟩ := h
  exact ⟨groups ++ [last], [], by simp, rfl, by simp⟩

theorem WholeRecords.append {blocks records : List (List UInt8)} {pending : List UInt8}
    (h : WholeRecords blocks pending records) (record : List UInt8) :
    WholeRecords blocks (pending ++ record) (records ++ [record]) := by
  obtain ⟨groups, last, rfl, rfl, rfl⟩ := h
  exact ⟨groups, last ++ [record], rfl, by simp, by simp⟩

/-! ### The size of a record -/

section Size

variable {frags : List LogFragment}

theorem recordSize_cons (frag : LogFragment) :
    recordSize (frag :: frags) = frag.content.length + 1 + recordSize frags := by
  rw [recordSize, List.map_cons, List.sum_cons, recordSize]

theorem recordSize_reverse : recordSize frags.reverse = recordSize frags := by
  rw [recordSize, recordSize, List.map_reverse, List.sum_reverse]

theorem recordSize_pos (h : frags ≠ []) : 0 < recordSize frags := by
  obtain ⟨frag, frags, rfl⟩ := List.exists_cons_of_ne_nil h
  rw [recordSize_cons]
  omega

/-- The sum is exact as long as it is an `int`. -/
theorem recSize_eq (h : recordSize frags < 2 ^ 31) : recSize frags = recordSize frags := by
  have hfold : ∀ (fs : List LogFragment) (n : ℕ), n + recordSize fs < 2 ^ 31 →
      fs.foldl (fun n frag => (n + (frag.content.length + 1)).bmod (2 ^ 32)) (n : ℤ) =
        (n + recordSize fs : ℕ) := by
    intro fs
    induction fs with
    | nil => exact fun n _ => rfl
    | cons frag fs ih =>
      intro n hn
      rw [recordSize_cons] at hn ⊢
      have hstep : ((n : ℤ) + (frag.content.length + 1)).bmod (2 ^ 32) =
          (n + (frag.content.length + 1) : ℕ) := by
        rw [Int.bmod_eq_of_le] <;> omega
      rw [List.foldl_cons, hstep, ih _ (by omega), Nat.add_assoc]
  rw [recSize]
  exact (hfold frags 0 (by omega)).trans (by rw [Nat.zero_add])

end Size

/-! ### Appending a record -/

section Append

variable {cur : LogCursor} {frags : List LogFragment}

/-- The bytes that have been filled. -/
def LogCursor.filled (cur : LogCursor) : List UInt8 := cur.block.bytes.take cur.ptr

theorem LogBlock.copy_eq (block : LogBlock) {p : ℕ} {data : List UInt8}
    (h : p + data.length ≤ accessLogBlockSize) :
    ∃ block', block.copy p data = some block' ∧
      block'.bytes.take (p + data.length) = block.bytes.take p ++ data := by
  refine ⟨_, dif_pos h, List.take_left' ?_⟩
  rw [List.length_append, List.length_take, block.length_eq]
  omega

theorem LogCursor.put_eq (frag : LogFragment)
    (h : cur.ptr + (frag.content.length + 1) ≤ accessLogBlockSize) :
    ∃ cur', cur.put frag = some cur' ∧ cur'.ptr = cur.ptr + (frag.content.length + 1) ∧
      cur'.avail = cur.avail - (frag.content.length + 1) ∧
      cur'.filled = cur.filled ++ (frag.content ++ [32]) := by
  obtain ⟨block, hcopy, hfilled⟩ := @LogBlock.copy_eq cur.block cur.ptr frag.content (by omega)
  obtain ⟨block', hspace, hfilled'⟩ := @LogBlock.copy_eq block (cur.ptr + frag.content.length) [32]
    (by rw [List.length_singleton]; omega)
  refine ⟨⟨block', _, _⟩, ?_, rfl, rfl, ?_⟩
  · simp only [LogCursor.put, hcopy, hspace, Option.bind_eq_bind, Option.bind_some]
    rfl
  · rw [hfilled, List.length_singleton, Nat.add_assoc, List.append_assoc] at hfilled'
    exact hfilled'

/-- The fragments come one by one. -/
theorem LogCursor.foldlM_put (h : cur.ptr + recordSize frags ≤ accessLogBlockSize) :
    ∃ cur', frags.foldlM LogCursor.put cur = some cur' ∧ cur'.ptr = cur.ptr + recordSize frags ∧
      cur'.avail = cur.avail - recordSize frags ∧
      cur'.filled = cur.filled ++ frags.flatMap fun frag => frag.content ++ [32] := by
  induction frags generalizing cur with
  | nil => exact ⟨cur, rfl, rfl, by simp [recordSize], by simp⟩
  | cons frag frags ih =>
    rw [recordSize_cons] at h
    obtain ⟨cur₁, hput, hptr, havail, hfilled⟩ := @LogCursor.put_eq cur frag (by omega)
    obtain ⟨cur', hrest, hptr', havail', hfilled'⟩ := @ih cur₁ (by omega)
    refine ⟨cur', ?_, ?_, ?_, ?_⟩
    · rw [List.foldlM_cons, hput]
      exact hrest
    · rw [hptr', hptr, recordSize_cons]
      omega
    · rw [havail', havail, recordSize_cons]
      push_cast
      omega
    · rw [hfilled', hfilled, List.flatMap_cons, List.append_assoc]

theorem flatMap_space (h : frags ≠ []) :
    (frags.flatMap fun frag => frag.content ++ [32]) =
      [32].intercalate (frags.map LogFragment.content) ++ [32] := by
  induction frags with
  | nil => exact absurd rfl h
  | cons frag frags ih =>
    cases frags with
    | nil => simp
    | cons frag' frags =>
      rw [List.flatMap_cons, ih (List.cons_ne_nil _ _)]
      simp

/-- A record that fits is appended. -/
theorem LogCursor.putRecord_eq (hne : frags ≠ [])
    (havail : cur.avail = accessLogBlockSize - cur.ptr)
    (h : cur.ptr + recordSize frags ≤ accessLogBlockSize) :
    ∃ cur', cur.putRecord frags = some cur' ∧ cur'.ptr = cur.ptr + recordSize frags ∧
      cur'.avail = accessLogBlockSize - cur'.ptr ∧
      cur'.filled = cur.filled ++ recordBytes frags := by
  have hpos := recordSize_pos hne
  obtain ⟨cur', hput, hptr, havail', hfilled⟩ :=
    @LogCursor.foldlM_put cur frags.reverse (by rwa [recordSize_reverse])
  rw [recordSize_reverse] at hptr havail'
  rw [flatMap_space (by simpa using hne), ← List.append_assoc] at hfilled
  -- the last byte is a space
  have hlast : cur'.ptr - 1 + ([10] : List UInt8).length = cur'.ptr := by
    rw [List.length_singleton]
    omega
  obtain ⟨block, hcopy, htake⟩ := @LogBlock.copy_eq cur'.block (cur'.ptr - 1) [10] (by omega)
  rw [hlast] at htake
  refine ⟨{ cur' with block }, ?_, hptr, ?_, ?_⟩
  · rw [LogCursor.putRecord, hput]
    simp only [Option.bind_eq_bind, Option.bind_some]
    rw [if_neg (by omega), hcopy]
    rfl
  · show cur'.avail = accessLogBlockSize - (cur'.ptr : ℤ)
    rw [havail', havail, hptr]
    push_cast
    ring
  · show block.bytes.take cur'.ptr = _
    have hlength : cur'.filled.length = cur'.ptr := by
      rw [LogCursor.filled, List.length_take, cur'.block.length_eq]
      omega
    have hfront : cur'.block.bytes.take (cur'.ptr - 1) =
        cur.filled ++ [32].intercalate (frags.reverse.map LogFragment.content) := by
      have hdrop := congrArg List.dropLast hfilled
      rw [List.dropLast_concat, List.dropLast_eq_take, hlength] at hdrop
      rw [← hdrop, LogCursor.filled, List.take_take, min_eq_left (Nat.sub_le _ _)]
    rw [htake, hfront, recordBytes, List.append_assoc]

end Append

/-! ### Runs -/

section Runs

variable {t : AccessLogThread} {records : List (List UInt8)} {frags : List LogFragment}

/-- The block agrees with its pointer and with the room that is left in it, and the log consists of
these records. -/
structure AccessLogThread.Keeps (t : AccessLogThread) (records : List (List UInt8)) : Prop where
  room : ∀ block, t.block = some block →
    0 < t.ptr ∧ t.ptr ≤ accessLogBlockSize ∧ t.avail = accessLogBlockSize - t.ptr
  whole : WholeRecords (t.flushes.map Prod.snd) t.pending records

/-- A flush hands on what is pending. -/
theorem AccessLogThread.Keeps.flush (h : t.Keeps records) (locked : Bool) :
    ∃ t', threadFlush locked t = some t' ∧ t'.block = none ∧ t'.Keeps records := by
  unfold threadFlush
  cases hblock : t.block with
  | none => exact ⟨t, rfl, hblock, h⟩
  | some block =>
    obtain ⟨hpos, hle, havail⟩ := h.room block hblock
    have hsize : accessLogBlockSize - t.avail = t.ptr := by omega
    have hpending : t.pending = block.bytes.take t.ptr := by rw [pending, hblock]
    dsimp only
    rw [hsize, if_pos (by omega), Int.toNat_natCast, ← hpending]
    refine ⟨_, rfl, rfl, fun _ hnone => absurd hnone (by simp), ?_⟩
    rw [List.map_append]
    exact h.whole.flush

/-- There is room for a record afterwards. -/
theorem AccessLogThread.Keeps.roomFor (h : t.Keeps records) (locked : Bool) (n : ℕ) :
    ∃ t', roomFor locked n t = some t' ∧ t'.Keeps records ∧
      ∀ block, t'.block = some block → t'.ptr + n ≤ accessLogBlockSize := by
  unfold Nxweb.roomFor
  split_ifs with hlt
  · obtain ⟨t', hflush, hnone, hkeeps⟩ := h.flush locked
    rw [hflush]
    simp only [Option.bind_eq_bind, Option.bind_some, hnone, Option.isSome_none]
    exact ⟨t', rfl, hkeeps, fun block hblock => absurd (hnone.symm.trans hblock) (by simp)⟩
  · refine ⟨t, rfl, h, fun block hblock => ?_⟩
    obtain ⟨-, -, havail⟩ := h.room block hblock
    omega

/-- Behind what is pending there is room in the block, or in the new one. -/
theorem AccessLogThread.Keeps.cursor (h : t.Keeps records) (fresh : LogBlock) {n : ℕ}
    (hn : n ≤ accessLogBlockSize)
    (hfits : ∀ block, t.block = some block → t.ptr + n ≤ accessLogBlockSize) :
    (t.cursor fresh).ptr + n ≤ accessLogBlockSize ∧
      (t.cursor fresh).avail = accessLogBlockSize - (t.cursor fresh).ptr ∧
      (t.cursor fresh).filled = t.pending := by
  unfold AccessLogThread.cursor LogCursor.filled AccessLogThread.pending
  cases hblock : t.block with
  | none => simpa using hn
  | some block => exact ⟨hfits block hblock, (h.room block hblock).2.2, rfl⟩

/-- A record is added to the log if it is smaller than a block. -/
theorem AccessLogThread.Keeps.write (h : t.Keeps records) (locked : Bool) (fresh : LogBlock)
    (hfrags : frags.length ≤ 100) (hsize : recordSize frags < 2 ^ 31) :
    ∃ t', accessLogWrite locked fresh frags t = some t' ∧
      t'.Keeps (records ++ ((AccessLogEvent.write locked fresh frags).record).toList) := by
  unfold accessLogWrite AccessLogEvent.record
  by_cases hne : frags = []
  · refine ⟨t, if_pos hne, ?_⟩
    simpa [hne] using h
  · rw [if_neg hne, List.take_of_length_le hfrags]
    dsimp only
    rw [recSize_eq hsize]
    by_cases hlarge : accessLogBlockSize ≤ recordSize frags
    · refine ⟨t, if_pos (by omega), ?_⟩
      rw [if_neg (by omega)]
      simpa using h
    · rw [if_neg (by omega), if_pos ⟨hne, by omega⟩]
      obtain ⟨t', hroom, hkeeps, hfits⟩ := h.roomFor locked (recordSize frags)
      obtain ⟨hle, havail, hfilled⟩ := hkeeps.cursor fresh (by omega) hfits
      obtain ⟨cur, hput, hptr, havail', hfilled'⟩ := LogCursor.putRecord_eq hne havail hle
      have hpos := recordSize_pos hne
      simp only [hroom, hput, Option.bind_eq_bind, Option.bind_some, Option.toList_some]
      refine ⟨_, rfl, fun _ _ => ⟨?_, ?_, havail'⟩, ?_⟩
      · show 0 < cur.ptr
        omega
      · show cur.ptr ≤ accessLogBlockSize
        omega
      · show WholeRecords _ cur.filled _
        rw [hfilled', hfilled]
        exact hkeeps.whole.append _

/-- A call. -/
theorem AccessLogThread.Keeps.step (h : t.Keeps records) {e : AccessLogEvent} (hfew : e.Few)
    (hfits : e.Fits) :
    ∃ t', accessLogStep t e = some t' ∧ t'.Keeps (records ++ e.record.toList) := by
  cases e with
  | write locked fresh frags => exact h.write locked fresh hfew hfits
  | flush locked =>
    obtain ⟨t', hflush, -, hkeeps⟩ := h.flush locked
    exact ⟨t', hflush, by simpa [AccessLogEvent.record] using hkeeps⟩

/-- A sequence of calls. -/
theorem AccessLogThread.Keeps.run (h : t.Keeps records) {events : List AccessLogEvent}
    (hevents : ∀ e ∈ events, e.Few ∧ e.Fits) :
    ∃ t', Lib.run accessLogStep t events = some t' ∧
      t'.Keeps (records ++ events.filterMap AccessLogEvent.record) := by
  induction events generalizing t records with
  | nil => exact ⟨t, rfl, by simpa using h⟩
  | cons e events ih =>
    obtain ⟨hfew, hfits⟩ := hevents e List.mem_cons_self
    obtain ⟨t₁, hstep, hkeeps⟩ := h.step hfew hfits
    obtain ⟨t', hrun, hkeeps'⟩ := ih hkeeps fun x hx => hevents x (List.mem_cons_of_mem e hx)
    refine ⟨t', ?_, ?_⟩
    · rw [Lib.run, hstep]
      exact hrun
    · rw [List.append_assoc] at hkeeps'
      cases hrecord : e.record with
      | none => simpa [hrecord] using hkeeps'
      | some record => simpa [hrecord] using hkeeps'

/-- A flush, or none, with what it finds of the log file. -/
theorem mem_flushes_of_threadFlush {locked : Bool} {t' : AccessLogThread}
    (h : threadFlush locked t = some t') : ∀ f ∈ t'.flushes, f ∈ t.flushes ∨ f.1 = locked := by
  unfold threadFlush at h
  dsimp only at h
  split at h
  · obtain rfl := Option.some.inj h
    exact fun f hf => .inl hf
  · split_ifs at h
    obtain rfl := Option.some.inj h
    intro f hf
    rcases List.mem_append.mp hf with hf | hf
    · exact .inl hf
    · exact .inr (congrArg Prod.fst (List.mem_singleton.mp hf))

theorem mem_flushes_of_step {e : AccessLogEvent} {t' : AccessLogThread}
    (h : accessLogStep t e = some t') : ∀ f ∈ t'.flushes, f ∈ t.flushes ∨ f.1 = e.locked := by
  cases e with
  | flush locked => exact mem_flushes_of_threadFlush h
  | write locked fresh frags =>
    unfold accessLogStep accessLogWrite at h
    dsimp only at h
    split_ifs at h
    · obtain rfl := Option.some.inj h
      exact fun f hf => .inl hf
    · obtain rfl := Option.some.inj h
      exact fun f hf => .inl hf
    · obtain ⟨t₁, hroom, h⟩ := Option.bind_eq_some_iff.mp h
      obtain ⟨cur, -, h⟩ := Option.bind_eq_some_iff.mp h
      obtain rfl := Option.some.inj h
      show ∀ f ∈ t₁.flushes, _
      unfold roomFor at hroom
      split_ifs at hroom
      · obtain ⟨t₂, hflush, hroom⟩ := Option.bind_eq_some_iff.mp hroom
        split_ifs at hroom
        obtain rfl := Option.some.inj hroom
        exact mem_flushes_of_threadFlush hflush
      · obtain rfl := Option.some.inj hroom
        exact fun f hf => .inl hf

/-- What every flush of a run finds. -/
theorem flags_of_run {locked : Bool} {events : List AccessLogEvent} {t' : AccessLogThread}
    (h : Lib.run accessLogStep t events = some t') (ht : ∀ f ∈ t.flushes, f.1 = locked)
    (hevents : ∀ e ∈ events, e.locked = locked) : ∀ f ∈ t'.flushes, f.1 = locked := by
  induction events generalizing t with
  | nil =>
    obtain rfl := Option.some.inj h
    exact ht
  | cons e events ih =>
    obtain ⟨t₁, hstep, hrun⟩ := Option.bind_eq_some_iff.mp h
    refine ih hrun (fun f hf => ?_) fun x hx => hevents x (List.mem_cons_of_mem e hx)
    rcases mem_flushes_of_step hstep f hf with hold | hnew
    · exact ht f hold
    · exact hnew.trans (hevents e List.mem_cons_self)

theorem keeps_init (avail : ℤ) (ptr : ℕ) : (AccessLogThread.init avail ptr).Keeps [] :=
  ⟨fun _ hblock => absurd hblock (by simp [AccessLogThread.init]), [], [], rfl, rfl, rfl⟩

/-- What all blocks hold together. -/
theorem WholeRecords.flatten {blocks records : List (List UInt8)} {pending : List UInt8}
    (h : WholeRecords blocks pending records) : blocks.flatten ++ pending = records.flatten := by
  obtain ⟨groups, last, rfl, rfl, rfl⟩ := h
  rw [List.flatten_append, List.flatten_flatten]

/-- All calls return, every block that is flushed holds whole records, and no record is missing.
If the log file can be locked at every call, then all of this is written. -/
theorem accessLog_records (avail : ℤ) (ptr : ℕ) {events : List AccessLogEvent}
    (hfew : ∀ e ∈ events, e.Few) (hfits : ∀ e ∈ events, e.Fits) :
    ∃ t, Lib.run accessLogStep (.init avail ptr) events = some t ∧
      WholeRecords (t.flushes.map Prod.snd) t.pending (events.filterMap AccessLogEvent.record) ∧
      ((∀ e ∈ events, e.locked = true) →
        t.written ++ t.pending = (events.filterMap AccessLogEvent.record).flatten) := by
  obtain ⟨t, hrun, hkeeps⟩ :=
    (keeps_init avail ptr).run fun e he => ⟨hfew e he, hfits e he⟩
  refine ⟨t, hrun, hkeeps.whole, fun hlocked => ?_⟩
  have hflags := flags_of_run hrun (by simp [AccessLogThread.init]) hlocked
  have hall : t.flushes.filter Prod.fst = t.flushes := List.filter_eq_self.mpr hflags
  rw [AccessLogThread.written, hall]
  exact hkeeps.whole.flatten

/-- A record of two fragments. -/
theorem accessLog_records_one :
    ∃ t, Lib.run accessLogStep (.init (-7) 3)
        [.write true ⟨.replicate accessLogBlockSize 0, List.length_replicate⟩
          [⟨[50, 48, 48], by decide⟩, ⟨[71, 69, 84], by decide⟩], .flush true] = some t ∧
      WholeRecords (t.flushes.map Prod.snd) t.pending
        (List.filterMap AccessLogEvent.record
          [.write true ⟨.replicate accessLogBlockSize 0, List.length_replicate⟩
            [⟨[50, 48, 48], by decide⟩, ⟨[71, 69, 84], by decide⟩], .flush true]) ∧
      ((∀ e ∈ ([.write true ⟨.replicate accessLogBlockSize 0, List.length_replicate⟩
            [⟨[50, 48, 48], by decide⟩, ⟨[71, 69, 84], by decide⟩], .flush true] :
              List AccessLogEvent), e.locked = true) →
        t.written ++ t.pending =
          (List.filterMap AccessLogEvent.record
            [.write true ⟨.replicate accessLogBlockSize 0, List.length_replicate⟩
              [⟨[50, 48, 48], by decide⟩, ⟨[71, 69, 84], by decide⟩], .flush true]).flatten) :=
  accessLog_records (-7) 3
    (by simp [AccessLogEvent.Few]) (by simp [AccessLogEvent.Fits, recordSize])

/-- A block is lost if the file cannot be locked. -/
theorem not_logComplete_of_unlocked (fresh : LogBlock) (frag : LogFragment)
    (hsmall : frag.content.length + 1 < accessLogBlockSize) :
    ¬ LogComplete [.write false fresh [frag], .flush false] := by
  rintro ⟨t, hrun, hlog⟩
  have hwritten : t.written = [] := by
    have hflags : ∀ f ∈ t.flushes, f.1 = false :=
      flags_of_run hrun (by simp [AccessLogThread.init]) (by simp [AccessLogEvent.locked])
    rw [AccessLogThread.written, List.filter_eq_nil_iff.mpr (by simpa using hflags)]
    rfl
  have hpending : t.pending = [] := by
    obtain ⟨t₁, hwrite, hrun⟩ := Option.bind_eq_some_iff.mp hrun
    obtain ⟨t', hflush, hrun⟩ := Option.bind_eq_some_iff.mp hrun
    obtain rfl := Option.some.inj hrun
    have hsize : recordSize [frag] < 2 ^ 31 := by
      unfold accessLogBlockSize at hsmall
      simp only [recordSize, List.map_cons, List.map_nil, List.sum_cons, List.sum_nil]
      omega
    obtain ⟨t₁', hwrite', hkeeps⟩ :=
      (keeps_init 0 0).write false fresh (by simp : [frag].length ≤ 100) hsize
    obtain rfl := Option.some.inj (hwrite'.symm.trans hwrite)
    obtain ⟨t₂, hflush', hnone, -⟩ := hkeeps.flush false
    obtain rfl := Option.some.inj (hflush'.symm.trans hflush)
    rw [AccessLogThread.pending, hnone]
  rw [hwritten, hpending] at hlog
  have hrecord : (AccessLogEvent.write false fresh [frag]).record = some (recordBytes [frag]) :=
    if_pos ⟨by simp, by simpa [recordSize] using hsmall⟩
  rw [List.filterMap_cons_some hrecord, List.flatten_cons] at hlog
  simp [recordBytes] at hlog

/-- The largest fragment is counted as a negative number of bytes, and copied over the end of the
block. -/
theorem not_logComplete_of_overflow (fresh : LogBlock) (frag : LogFragment)
    (hlength : frag.content.length = 2 ^ 31 - 1) : ¬ LogComplete [.write true fresh [frag]] := by
  rintro ⟨t, hrun, -⟩
  obtain ⟨t₁, hwrite, -⟩ := Option.bind_eq_some_iff.mp hrun
  have hsize : recSize [frag] = -2 ^ 31 := by
    simp only [recSize, List.foldl_cons, List.foldl_nil, hlength]
    rfl
  have hcopy : (LogCursor.mk fresh 0 accessLogBlockSize).putRecord [frag] = none := by
    have hlarge : ¬ 0 + frag.content.length ≤ accessLogBlockSize := by
      rw [hlength, accessLogBlockSize]
      omega
    have hput : LogCursor.put ⟨fresh, 0, accessLogBlockSize⟩ frag = none := by
      simp only [LogCursor.put, LogBlock.copy, dif_neg hlarge]
      rfl
    rw [LogCursor.putRecord, List.reverse_singleton, List.foldlM_cons, hput]
    rfl
  have hroom : roomFor true (-2 ^ 31) (.init 0 0) = some (.init 0 0) := if_neg (by decide)
  have hnone : accessLogWrite true fresh [frag] (.init 0 0) = none := by
    unfold accessLogWrite
    dsimp only
    rw [if_neg (List.cons_ne_nil _ _), List.take_of_length_le (by simp), hsize,
      if_neg (by rw [accessLogBlockSize]; omega), hroom]
    simp only [Option.bind_eq_bind, Option.bind_some]
    rw [show (AccessLogThread.init 0 0).cursor fresh = ⟨fresh, 0, accessLogBlockSize⟩ from rfl,
      hcopy]
    rfl
  exact absurd (hnone.symm.trans hwrite) (by simp)

theorem exists_fragment {n : ℕ} (h : n < 2 ^ 31) :
    ∃ frag : LogFragment, frag.content.length = n :=
  ⟨⟨.replicate n 71, by rwa [List.length_replicate]⟩, List.length_replicate⟩

/-- Neither of them is excluded by the number of fragments. -/
theorem not_logComplete :
    (∃ events : List AccessLogEvent, (∀ e ∈ events, e.Few ∧ e.Fits) ∧ ¬ LogComplete events) ∧
      ∃ events : List AccessLogEvent, (∀ e ∈ events, e.Few ∧ e.locked = true) ∧
        ¬ LogComplete events := by
  constructor
  · refine ⟨_, ?_, not_logComplete_of_unlocked ⟨.replicate accessLogBlockSize 0,
      List.length_replicate⟩ ⟨[71], by decide⟩ (by decide)⟩
    simp [AccessLogEvent.Few, AccessLogEvent.Fits, recordSize]
  · obtain ⟨frag, hlength⟩ := @exists_fragment (2 ^ 31 - 1) (by decide)
    refine ⟨_, ?_, not_logComplete_of_overflow ⟨.replicate accessLogBlockSize 0,
      List.length_replicate⟩ frag hlength⟩
    simp [AccessLogEvent.Few, AccessLogEvent.locked]

end Runs

end Nxweb
