import Nxweb.Filters.ImageCommandCanonical
import Nxweb.Memory.BufferFrame

/-!
# What is signed of an image command

`decode_cmd` copies the command, the query string and the path of a URI into the arena of the
connection, and `img_do_filter` gives the path to `sha1sign`, up to the first zero byte. The command
and the query string are copied with a zero byte behind them, but the path is copied without one. So
what is signed goes on with whatever is behind the copy: the query string, if that was put right
there, and else what the arena held there before.

## Main results

* `BufferRun.SoundRun.copies`: which byte is behind the last of three copies;
* `signsPath_iff`: the path is signed exactly if that byte is zero.
-/

namespace Nxweb

open Lib

/-- The copies that `decode_cmd` makes, with the answers of `nx_alloc`. -/
def ImageFilterCmd.copies (cmd : ImageFilterCmd) (addr₁ addr₂ addr₃ : ℕ) : List (NxbOp × ℕ) :=
  (cmd.cmdString.toList.map fun s => (.copyObj (s ++ [0]), addr₁)) ++
    (cmd.queryString.toList.map fun s => (.copyObj (s ++ [0]), addr₂)) ++
    -- `q? q-uri : strlen(uri)` bytes, and no zero
    cmd.uriPath.toList.map fun s => (.copyObj s, addr₃)

/-- The bytes from `a` up to the first zero are these. -/
def CStringAt (mem : ℕ → UInt8) (a : ℕ) (s : List UInt8) : Prop :=
  0 ∉ s ∧ readAt mem a (s.length + 1) = s ++ [0]

instance (mem : ℕ → UInt8) (a : ℕ) (s : List UInt8) : Decidable (CStringAt mem a s) :=
  inferInstanceAs (Decidable (_ ∧ _))

namespace BufferRun

/-- A run in which the arena stays intact. -/
structure SoundRun (s : BufferRun) (es : List (NxbOp × ℕ)) (s' : BufferRun) : Prop where
  run : run step s es = some s'
  sound : Along step (fun s e _ => s.Sound e.1) s es

/-- The buffer with anything in memory, of which it has to keep nothing. -/
def withMemory (s : BufferRun) (mem : ℕ → UInt8) : BufferRun where
  nxb := { s.nxb with mem }
  objects := []
  stream := readAt mem s.nxb.base s.stream.length
  requested := s.requested

variable {s s' s'' : BufferRun} {es : List (NxbOp × ℕ)}

theorem Inv.withMemory (h : s.Inv) (mem : ℕ → UInt8) : (s.withMemory mem).Inv := by
  have hlen : (s.withMemory mem).stream.length = s.stream.length := length_readAt
  refine ⟨?_, ?_, fun o ho => by simp [BufferRun.withMemory] at ho, List.Pairwise.nil⟩
  · rw [hlen]
    exact h.layout.setPointers h.layout.buf_le h.layout.ptr_eq h.layout.ptr_le h.layout.limit_le
  · rw [hlen]
    rfl

theorem SoundRun.inv (hrun : s.SoundRun es s') (h : s.Inv ∧ s.stream.length ≤ s.requested) :
    s'.Inv ∧ s'.stream.length ≤ s'.requested := by
  apply run_inv_of_along (I := fun s => s.Inv ∧ s.stream.length ≤ s.requested) _ h
    hrun.sound hrun.run
  rintro s e s' ⟨h, hlen⟩ hstep hs
  exact inv_step h hlen hs hstep

/-- The first step of a run. -/
theorem SoundRun.cons {e : NxbOp × ℕ} (hrun : s.SoundRun (e :: es) s'') :
    ∃ s', step s e = some s' ∧ s.Sound e.1 ∧ s'.SoundRun es s'' := by
  obtain ⟨s', hstep, hrest⟩ := Option.bind_eq_some_iff.mp hrun.run
  obtain ⟨hs, hsound⟩ := hrun.sound s' hstep
  exact ⟨s', hstep, hs, hrest, hsound⟩

/-- Of three copies, what is behind the last one is the second one, or what was there before. -/
theorem SoundRun.copies {x y data : List UInt8} {addr₁ addr₂ addr₃ : ℕ}
    (hrun : s.SoundRun [(.copyObj x, addr₁), (.copyObj y, addr₂), (.copyObj data, addr₃)] s')
    (h : s.Inv ∧ s.stream.length ≤ s.requested) (hy : y ≠ []) :
    ∃ c b a, s.nxb.objectPlaces [(x.length, addr₁), (y.length, addr₂), (data.length, addr₃)] =
        some [c, b, a] ∧
      s'.objects = ⟨a, data, true⟩ :: ⟨b, y, true⟩ :: ⟨c, x, true⟩ :: s.objects ∧
      readAt s'.nxb.mem a data.length = data ∧
      s'.nxb.mem (a + data.length) =
        (if a + data.length = b then y.headD 0 else s.nxb.mem (a + data.length)) ∧
      ∀ z, a ≤ z → z ≤ a + data.length → s'.nxb.Reserved z := by
  obtain ⟨s₁, hstep₁, hsound₁, hrun⟩ := hrun.cons
  obtain ⟨s₂, hstep₂, hsound₂, hrun⟩ := hrun.cons
  obtain ⟨s₃, hstep₃, hsound₃, hrun⟩ := hrun.cons
  obtain rfl := Option.some.inj hrun.run
  have h₁ := inv_step h.1 h.2 hsound₁ hstep₁
  have h₂ := inv_step h₁.1 h₁.2 hsound₂ hstep₂
  obtain ⟨hr₁, hobj₁, hcopied₁, -⟩ := copyObj_step h.1 h.2 hsound₁ hstep₁
  obtain ⟨hr₂, hobj₂, hcopied₂, -⟩ := copyObj_step h₁.1 h₁.2 hsound₂ hstep₂
  obtain ⟨hr₃, hobj₃, hcopied₃, hbehind⟩ := copyObj_step h₂.1 h₂.2 hsound₃ hstep₃
  have hlen : 0 < y.length := List.length_pos_of_ne_nil hy
  have hbelow := hcopied₂.below
  obtain ⟨hmem, hunused, hreserved⟩ := hbehind hcopied₂.dirty (by omega)
  refine ⟨s₁.nxb.limit, s₂.nxb.limit, s₃.nxb.limit, ?_, ?_, hcopied₃.data, ?_, hreserved⟩
  · rw [NxbArena.objectPlaces_cons hr₁, NxbArena.objectPlaces_cons hr₂,
      NxbArena.objectPlaces_cons hr₃]
    rfl
  · rw [hobj₃, hobj₂, hobj₁]
  · rw [hmem]
    split_ifs with heq
    · -- the first byte of the second copy
      rw [heq]
      have hdata := hcopied₂.data
      obtain ⟨b, bs, rfl⟩ := List.exists_cons_of_ne_nil hy
      rw [List.length_cons, Nat.add_comm, readAt_add] at hdata
      exact (List.cons.inj hdata).1
    · -- no copy is there
      obtain ⟨hmem₂, hunused₁⟩ := hcopied₂.unused _ (hunused heq)
      obtain ⟨hmem₁, -⟩ := hcopied₁.unused _ (hunused₁ hcopied₁.dirty)
      rw [hmem₂, hmem₁]

end BufferRun

open BufferRun

/-- The last object of the arena after the copies is, as a string at the time of signing, the path of
the URI. -/
def SignsPath (s s' : BufferRun) (uri : List UInt8) : Prop :=
  ∃ o, s.objects.head? = some o ∧ CStringAt s'.nxb.mem o.addr (pathText uri)

/-- Of a query string that is put right behind the path nothing is there, and a byte that is there
and that no copy is put on is zero. -/
def ZeroBehindPath (nxb : NxbArena) (mem : ℕ → UInt8) (uri : List UInt8)
    (copies : List (NxbOp × ℕ)) : Prop :=
  ∃ c b a, nxb.objectPlaces (copies.map fun e => (e.1.size, e.2)) = some [c, b, a] ∧
    if a + (pathText uri).length = b then (queryText uri).tail = []
    else mem (a + (pathText uri).length) = 0

section Signed

variable {isImage : List UInt8 → Bool} {uri query : List UInt8}

/-- The copies that are made for a URI with a query string. -/
theorem copies_of_accepted (haccepted : (decodeCmd isImage uri).ret = true)
    (hquery : (decodeCmd isImage uri).cmd.queryString = some query) (addr₁ addr₂ addr₃ : ℕ) :
    query = (queryText uri).tail ∧ ∃ command,
      (decodeCmd isImage uri).cmd.copies addr₁ addr₂ addr₃ =
        [(.copyObj (command ++ [0]), addr₁), (.copyObj (query ++ [0]), addr₂),
          (.copyObj (pathText uri), addr₃)] := by
  obtain ⟨before, segment, ext, text, ws, hs, hparts, -, -, hcommand, hpath, htext⟩ :=
    decodeCmd_sound rfl haccepted
  obtain ⟨hpathText, hqueryText⟩ := hparts.query_text
  rw [← hpathText] at hpath
  refine ⟨?_, 46 :: segment, ?_⟩
  · rw [hqueryText]
    rw [hquery] at htext
    split at htext
    · cases htext
    · exact Option.some.inj htext
  · rw [ImageFilterCmd.copies, hcommand, hquery, hpath]
    rfl

/-- The path is signed exactly if a zero byte is found behind the place where its copy is put, which
no copy of it brings there. -/
theorem signsPath_iff {self addr₁ addr₂ addr₃ : ℕ} {mem₀ mem : ℕ → UInt8}
    {es es' : List (NxbOp × ℕ)} {s s' s'' : BufferRun} (huri : 0 ∉ uri)
    (haccepted : (decodeCmd isImage uri).ret = true)
    (hquery : (decodeCmd isImage uri).cmd.queryString = some query)
    (hself : self + connNxbSize ≤ addressSpace) (hbefore : (init self mem₀).SoundRun es s)
    (hcopies : (s.withMemory mem).SoundRun
      ((decodeCmd isImage uri).cmd.copies addr₁ addr₂ addr₃) s')
    (hafter : s'.SoundRun es' s'') :
    SignsPath s' s'' uri ↔ ZeroBehindPath s.nxb mem uri
      ((decodeCmd isImage uri).cmd.copies addr₁ addr₂ addr₃) := by
  have hinv := hbefore.inv ⟨inv_init self mem₀ hself, Nat.zero_le _⟩
  have hinv' : (s.withMemory mem).Inv ∧ (s.withMemory mem).stream.length ≤ s.requested :=
    ⟨hinv.1.withMemory mem, length_readAt.trans_le hinv.2⟩
  have hinv'' := hcopies.inv hinv'
  obtain ⟨rfl, command, heq⟩ := copies_of_accepted haccepted hquery addr₁ addr₂ addr₃
  rw [heq] at hcopies ⊢
  obtain ⟨c, b, a, hplaces, hobjects, hdata, hbehind, hreserved⟩ := hcopies.copies hinv' (by simp)
  have hplaces := (@NxbArena.objectPlaces_congr s.nxb (s.withMemory mem).nxb _ rfl).trans hplaces
  have hmem : ∀ z, a ≤ z → z ≤ a + (pathText uri).length → s''.nxb.mem z = s'.nxb.mem z :=
    fun z hl hr => reserved_run hinv''.1 hinv''.2 hafter.sound hafter.run (hreserved z hl hr)
  have hpath : 0 ∉ pathText uri := fun h => huri ((List.takeWhile_sublist _).subset h)
  have hhead : ((queryText uri).tail ++ [0]).headD 0 = 0 ↔ (queryText uri).tail = [] := by
    have hnot : 0 ∉ (queryText uri).tail := fun h =>
      huri ((List.dropWhile_sublist _).subset (List.mem_of_mem_tail h))
    cases htail : (queryText uri).tail with
    | nil => simp
    | cons d ds =>
      rw [htail] at hnot
      simpa using fun h : d = 0 => hnot (h ▸ List.mem_cons_self)
  -- what is signed is the path exactly if the byte behind it is zero
  have hstring : SignsPath s' s'' uri ↔ s'.nxb.mem (a + (pathText uri).length) = 0 := by
    have hread : readAt s''.nxb.mem a ((pathText uri).length + 1) =
        pathText uri ++ [s'.nxb.mem (a + (pathText uri).length)] := by
      rw [readAt_add, readAt_congr fun x hl hr => hmem x hl (by omega), hdata,
        ← hmem _ (by omega) le_rfl]
      rfl
    rw [SignsPath, hobjects]
    simp only [List.head?_cons, Option.some.injEq, exists_eq_left', CStringAt, hread]
    simp [hpath]
  rw [hstring, hbehind]
  constructor
  · intro hzero
    refine ⟨c, b, a, hplaces, ?_⟩
    split_ifs at hzero ⊢
    · exact hhead.mp hzero
    · exact hzero
  · rintro ⟨c', b', a', hplaces', hzero⟩
    have hsame := hplaces'.symm.trans hplaces
    simp only [Option.some.injEq, List.cons.injEq, and_true] at hsame
    obtain ⟨-, rfl, rfl⟩ := hsame
    split_ifs at hzero ⊢
    · exact hhead.mpr hzero
    · exact hzero

/-- A path of 17 bytes, in a memory without anything. -/
theorem signsPath_zeroed :
    ∃ s' : BufferRun,
      ((init (2 ^ 31) fun _ => 0).withMemory fun _ => 0).SoundRun
        ((decodeCmd (· == bytes "png") (bytes "/abcdef.c10x1.png?q")).cmd.copies 0 0 0) s' ∧
      (SignsPath s' s' (bytes "/abcdef.c10x1.png?q") ↔
        ZeroBehindPath (init (2 ^ 31) fun _ => 0).nxb (fun _ => 0) (bytes "/abcdef.c10x1.png?q")
          ((decodeCmd (· == bytes "png") (bytes "/abcdef.c10x1.png?q")).cmd.copies 0 0 0)) := by
  have hend : (run step ((init (2 ^ 31) fun _ => 0).withMemory fun _ => 0)
      ((decodeCmd (· == bytes "png") (bytes "/abcdef.c10x1.png?q")).cmd.copies
        0 0 0)).isSome = true := by decide
  obtain ⟨s', hs'⟩ := Option.isSome_iff_exists.mp hend
  have hcopies : ((init (2 ^ 31) fun _ => 0).withMemory fun _ => 0).SoundRun
      ((decodeCmd (· == bytes "png") (bytes "/abcdef.c10x1.png?q")).cmd.copies 0 0 0) s' :=
    ⟨hs', by decide⟩
  refine ⟨s', hcopies, ?_⟩
  exact @signsPath_iff (· == bytes "png") (bytes "/abcdef.c10x1.png?q") (bytes "q") (2 ^ 31) 0 0 0
    (fun _ => 0) (fun _ => 0) [] [] (init (2 ^ 31) fun _ => 0) s' s' (by decide) (by decide)
    (by decide) (by decide) ⟨rfl, trivial⟩ hcopies ⟨rfl, trivial⟩

/-- A path of 16 bytes: the copy of the query string is right behind it, and is signed with it. -/
theorem not_signsPath_adjacent :
    (decodeCmd (· == bytes "png") (bytes "/abcde.c10x1.png?q")).ret = true ∧
      (decodeCmd (· == bytes "png") (bytes "/abcde.c10x1.png?q")).cmd.queryString =
        some (bytes "q") ∧
      ∃ s' : BufferRun,
        ((init (2 ^ 31) fun _ => 0).withMemory fun _ => 0).SoundRun
          ((decodeCmd (· == bytes "png") (bytes "/abcde.c10x1.png?q")).cmd.copies 0 0 0) s' ∧
        ¬ SignsPath s' s' (bytes "/abcde.c10x1.png?q") := by
  refine ⟨by decide, by decide, ?_⟩
  have hend : (run step ((init (2 ^ 31) fun _ => 0).withMemory fun _ => 0)
      ((decodeCmd (· == bytes "png") (bytes "/abcde.c10x1.png?q")).cmd.copies 0 0 0)).map
        (fun s' => s'.objects.head?.all fun o =>
          !decide (CStringAt s'.nxb.mem o.addr (pathText (bytes "/abcde.c10x1.png?q")))) =
      some true := by decide
  obtain ⟨s', hs', hnot⟩ := Option.map_eq_some_iff.mp hend
  refine ⟨s', ⟨hs', by decide⟩, ?_⟩
  rintro ⟨o, hhead, hstring⟩
  rw [hhead] at hnot
  simp [hstring] at hnot

end Signed

end Nxweb
