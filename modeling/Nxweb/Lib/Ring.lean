import Mathlib.Tactic

/-!
# A list of cells used as a ring

The cells of `mem` hold a queue: it is read from index `r` on and written at index `w`, and both
indices go back to the first cell behind the last one. When the indices are equal, the flag `full`
tells a full ring from an empty one.

`Ring mem r w full q` says that the ring holds the queue `q`. The queue is one segment of the
memory, or its end and its beginning. Reading at most `readSpan` cells and writing at most
`writeSpan` cells takes them from the front of the queue (`Ring.read`) and adds them to its back
(`Ring.write`).
-/

namespace Lib

variable {α : Type*} {mem q : List α} {r w : ℕ} {full : Bool}

/-- The ring holds the queue `q`. -/
inductive Ring (mem : List α) (r w : ℕ) (full : Bool) (q : List α) : Prop
  /-- The queue is one segment, and there is a free cell behind it. -/
  | straight (a c : List α) (hmem : mem = a ++ q ++ c) (hc : c ≠ []) (hr : r = a.length)
      (hw : w = a.length + q.length) (hfull : q = [] → full = false)
  /-- The queue reaches the last cell, and may go on in the first one. -/
  | wrapped (q₁ q₂ f : List α) (hmem : mem = q₂ ++ f ++ q₁) (hne : q₁ ≠ [])
      (hr : r = q₂.length + f.length) (hw : w = q₂.length) (hq : q = q₁ ++ q₂)
      (hfull : f = [] → full = true)

/-- The number of cells that can be read without going back to the first one. -/
def readSpan (n r w : ℕ) (full : Bool) : ℕ :=
  if r = w ∧ full = false then 0 else if r < w then w - r else n - r

/-- The number of cells that can be written without going back to the first one. -/
def writeSpan (n r w : ℕ) (full : Bool) : ℕ :=
  if r = w ∧ full = true then 0 else if w < r then r - w else n - w

/-- The index `k` cells further. -/
def advance (n p k : ℕ) : ℕ := if n ≤ p + k then 0 else p + k

/-- The memory after `data` was written at index `w`. -/
def store (mem : List α) (w : ℕ) (data : List α) : List α :=
  mem.take w ++ data ++ mem.drop (w + data.length)

namespace Ring

/-- An empty ring. -/
theorem nil (h : mem ≠ []) : Ring mem 0 0 false [] :=
  .straight [] mem rfl h rfl rfl fun _ => rfl

/-- The cells that can be read hold the front of the queue. -/
theorem readSpan_le (h : Ring mem r w full q) : readSpan mem.length r w full ≤ q.length := by
  unfold readSpan
  cases h with
  | straight a c hmem hc hr hw hfull =>
    subst hr hw
    have hpos := List.length_pos_iff.mpr hc
    split_ifs with hempty hlt
    · exact Nat.zero_le _
    · omega
    · -- the indices are equal, so the queue is empty
      have hq : q = [] := List.eq_nil_of_length_eq_zero (by omega)
      exact absurd ⟨by simp [hq], hfull hq⟩ hempty
  | wrapped q₁ q₂ f hmem hne hr hw hq hfull =>
    subst hr hw hq hmem
    simp only [List.length_append]
    split_ifs <;> omega

theorem read_take (h : Ring mem r w full q) {k : ℕ} (hk : k ≤ readSpan mem.length r w full) :
    (mem.drop r).take k = q.take k := by
  have hle := hk.trans h.readSpan_le
  cases h with
  | straight a c hmem hc hr hw hfull =>
    rw [hmem, hr, List.append_assoc, List.drop_left, List.take_append_of_le_length hle]
  | wrapped q₁ q₂ f hmem hne hr hw hq hfull =>
    have hk₁ : k ≤ q₁.length := by
      refine hk.trans ?_
      subst hr hw hmem
      unfold readSpan
      simp only [List.length_append]
      split_ifs <;> omega
    rw [hmem, hr, hq, ← List.length_append, List.drop_left, List.take_append_of_le_length hk₁]

/-- Reading takes cells from the front of the queue. -/
theorem read (h : Ring mem r w full q) {k : ℕ} (hpos : 0 < k)
    (hk : k ≤ readSpan mem.length r w full) :
    Ring mem (advance mem.length r k) w false (q.drop k) := by
  have hle := hk.trans h.readSpan_le
  unfold advance
  cases h with
  | straight a c hmem hc hr hw hfull =>
    have hcpos := List.length_pos_iff.mpr hc
    have hlen : mem.length = a.length + q.length + c.length := by simp [hmem, Nat.add_assoc]
    rw [if_neg (by omega)]
    refine .straight (a ++ q.take k) c ?_ hc ?_ ?_ fun _ => rfl
    · rw [hmem, List.append_assoc a (q.take k), List.take_append_drop]
    · rw [List.length_append, List.length_take, hr]
      omega
    · rw [List.length_append, List.length_take, List.length_drop, hw]
      omega
  | wrapped q₁ q₂ f hmem hne hr hw hq hfull =>
    have hlen : mem.length = q₂.length + f.length + q₁.length := by simp [hmem, Nat.add_assoc]
    have hk₁ : k ≤ q₁.length := by
      refine hk.trans ?_
      unfold readSpan
      split_ifs <;> omega
    rcases Nat.lt_or_ge k q₁.length with hlt | hge
    · rw [if_neg (by omega)]
      refine .wrapped (q₁.drop k) q₂ (f ++ q₁.take k) ?_ ?_ ?_ hw ?_ ?_
      · rw [hmem, List.append_assoc, List.append_assoc, List.append_assoc, List.take_append_drop]
      · rw [ne_eq, List.drop_eq_nil_iff, not_le]
        exact hlt
      · rw [List.length_append, List.length_take, hr]
        omega
      · rw [hq, List.drop_append_of_le_length hk₁]
      · intro hnil
        have hzero := congrArg List.length hnil
        rw [List.length_append, List.length_take, List.length_nil] at hzero
        omega
    · -- the end of the memory is reached, and the rest of the queue is at its beginning
      obtain rfl : k = q₁.length := by omega
      rw [if_pos (by omega)]
      refine .straight [] (f ++ q₁) ?_ ?_ rfl ?_ fun _ => rfl
      · rw [hq, List.drop_left, hmem, List.nil_append, List.append_assoc]
      · simp [hne]
      · rw [hq, List.drop_left, hw, List.length_nil, Nat.zero_add]

/-- Writing adds cells to the back of the queue. -/
theorem write (h : Ring mem r w full q) {data : List α} (hne : data ≠ [])
    (hk : data.length ≤ writeSpan mem.length r w full) :
    Ring (store mem w data) r (advance mem.length w data.length) true (q ++ data) := by
  have hpos := List.length_pos_iff.mpr hne
  unfold advance store
  unfold writeSpan at hk
  cases h with
  | straight a c hmem hc hr hw hfull =>
    have hlen : mem.length = a.length + q.length + c.length := by simp [hmem, Nat.add_assoc]
    have hkc : data.length ≤ c.length := by
      split_ifs at hk <;> omega
    have htake : mem.take w = a ++ q := by
      rw [hmem, hw, ← List.length_append, List.take_left]
    have hdrop : mem.drop (w + data.length) = c.drop data.length := by
      rw [← List.drop_drop, hmem, hw, ← List.length_append, List.drop_left]
    rw [htake, hdrop]
    rcases Nat.lt_or_ge data.length c.length with hlt | hge
    · rw [if_neg (by omega)]
      refine .straight a (c.drop data.length) ?_ ?_ hr ?_ fun hnil => ?_
      · simp only [List.append_assoc]
      · rw [ne_eq, List.drop_eq_nil_iff, not_le]
        exact hlt
      · rw [List.length_append, hw]
        omega
      · simp [hne] at hnil
    · rw [if_pos (by omega), List.drop_eq_nil_of_le hge, List.append_nil]
      refine .wrapped (q ++ data) [] a ?_ ?_ ?_ rfl ?_ fun _ => rfl
      · simp only [List.nil_append, List.append_assoc]
      · simp [hne]
      · rw [hr, List.length_nil, Nat.zero_add]
      · rw [List.append_nil]
  | wrapped q₁ q₂ f hmem hne₁ hr hw hq hfull =>
    have hpos₁ := List.length_pos_iff.mpr hne₁
    have hlen : mem.length = q₂.length + f.length + q₁.length := by simp [hmem, Nat.add_assoc]
    have hkf : data.length ≤ f.length := by
      split_ifs at hk with hfull' hlt
      · omega
      · omega
      · have hnil : f = [] := List.eq_nil_of_length_eq_zero (by omega)
        exact absurd ⟨by omega, hfull hnil⟩ hfull'
    have htake : mem.take w = q₂ := by rw [hmem, hw, List.append_assoc, List.take_left]
    have hdrop : mem.drop (w + data.length) = f.drop data.length ++ q₁ := by
      rw [← List.drop_drop, hmem, hw, List.append_assoc, List.drop_left,
        List.drop_append_of_le_length hkf]
    rw [htake, hdrop, if_neg (by omega)]
    refine .wrapped q₁ (q₂ ++ data) (f.drop data.length) ?_ hne₁ ?_ ?_ ?_
      fun _ => rfl
    · simp only [List.append_assoc]
    · rw [List.length_append, List.length_drop, hr]
      omega
    · rw [List.length_append, hw]
    · rw [hq, List.append_assoc]

/-- Something can be read from a ring that is not empty. -/
theorem readSpan_pos (h : Ring mem r w full q) (hq : q ≠ []) :
    0 < readSpan mem.length r w full := by
  have hpos := List.length_pos_iff.mpr hq
  unfold readSpan
  cases h with
  | straight a c hmem hc hr hw hfull =>
    rw [if_neg (by omega), if_pos (by omega)]
    omega
  | wrapped q₁ q₂ f hmem hne hr hw hq' hfull =>
    have hlen : mem.length = q₂.length + f.length + q₁.length := by simp [hmem, Nat.add_assoc]
    have hpos₁ := List.length_pos_iff.mpr hne
    rw [if_neg, if_neg (by omega)]
    · omega
    · rintro ⟨heq, hflag⟩
      have hnil : f = [] := List.eq_nil_of_length_eq_zero (by omega)
      rw [hfull hnil] at hflag
      cases hflag

/-- What can be read is the whole queue, if the queue does not go on in the first cell. -/
theorem readSpan_eq (h : Ring mem r w full q)
    (hall : readSpan mem.length r w full = 0 ∨ r < w ∨ w = 0) :
    readSpan mem.length r w full = q.length := by
  rcases eq_or_ne q [] with hq | hq
  · have hle := h.readSpan_le
    rw [hq, List.length_nil] at hle ⊢
    omega
  have hpos := h.readSpan_pos hq
  have hqpos := List.length_pos_iff.mpr hq
  unfold readSpan at hpos hall ⊢
  cases h with
  | straight a c hmem hc hr hw hfull =>
    rw [if_neg (by omega), if_pos (by omega)]
    omega
  | wrapped q₁ q₂ f hmem hne hr hw hq' hfull =>
    have hlen : mem.length = q₂.length + f.length + q₁.length := by simp [hmem, Nat.add_assoc]
    have hq₂ : q₂.length = 0 := by omega
    have hql : q.length = q₁.length + q₂.length := by rw [hq', List.length_append]
    split_ifs at hpos ⊢ with hempty hlt
    · omega
    · omega
    · omega

/-- What can be read is the whole queue exactly if the queue does not go on in the first cell. -/
theorem readSpan_eq_iff (h : Ring mem r w full q) :
    readSpan mem.length r w full = q.length ↔
      readSpan mem.length r w full = 0 ∨ r < w ∨ w = 0 := by
  refine ⟨fun heq => ?_, h.readSpan_eq⟩
  cases h with
  | straight a c hmem hc hr hw hfull =>
    rcases eq_or_ne q [] with hq | hq
    · exact .inl (by rw [heq, hq, List.length_nil])
    · have hqpos := List.length_pos_iff.mpr hq
      exact .inr (.inl (by omega))
  | wrapped q₁ q₂ f hmem hne hr hw hq hfull =>
    have hlen : mem.length = q₂.length + f.length + q₁.length := by simp [hmem, Nat.add_assoc]
    have hpos₁ := List.length_pos_iff.mpr hne
    have hql : q.length = q₁.length + q₂.length := by rw [hq, List.length_append]
    unfold readSpan at heq
    split_ifs at heq <;> omega

theorem length_le (h : Ring mem r w full q) : q.length ≤ mem.length := by
  cases h with
  | straight a c hmem hc hr hw hfull =>
    have hlen : mem.length = a.length + q.length + c.length := by simp [hmem, Nat.add_assoc]
    omega
  | wrapped q₁ q₂ f hmem hne hr hw hq hfull =>
    have hlen : mem.length = q₂.length + f.length + q₁.length := by simp [hmem, Nat.add_assoc]
    rw [hq, List.length_append]
    omega

/-- Equal indices with the flag set mean a full ring. -/
theorem full_iff (h : Ring mem r w full q) : (r = w ∧ full = true) ↔ q.length = mem.length := by
  cases h with
  | straight a c hmem hc hr hw hfull =>
    have hlen : mem.length = a.length + q.length + c.length := by simp [hmem, Nat.add_assoc]
    have hpos := List.length_pos_iff.mpr hc
    refine ⟨fun ⟨heq, hflag⟩ => ?_, fun heq => by omega⟩
    rw [hfull (List.eq_nil_of_length_eq_zero (by omega))] at hflag
    cases hflag
  | wrapped q₁ q₂ f hmem hne hr hw hq hfull =>
    have hlen : mem.length = q₂.length + f.length + q₁.length := by simp [hmem, Nat.add_assoc]
    have hql : q.length = q₁.length + q₂.length := by rw [hq, List.length_append]
    refine ⟨fun ⟨heq, _⟩ => by omega, fun heq => ⟨by omega, hfull ?_⟩⟩
    exact List.eq_nil_of_length_eq_zero (by omega)

/-- Equal indices with the flag clear mean an empty ring. -/
theorem empty_iff (h : Ring mem r w full q) : (r = w ∧ full = false) ↔ q = [] := by
  cases h with
  | straight a c hmem hc hr hw hfull =>
    refine ⟨fun ⟨heq, _⟩ => List.eq_nil_of_length_eq_zero (by omega), fun hq => ⟨?_, hfull hq⟩⟩
    rw [hr, hw, hq, List.length_nil, Nat.add_zero]
  | wrapped q₁ q₂ f hmem hne hr hw hq hfull =>
    have hq' : q ≠ [] := by simp [hq, hne]
    refine ⟨fun ⟨heq, hflag⟩ => ?_, fun hnil => absurd hnil hq'⟩
    rw [hfull (List.eq_nil_of_length_eq_zero (by omega))] at hflag
    cases hflag

/-- What can be written fits behind the queue. -/
theorem length_add_writeSpan_le (h : Ring mem r w full q) :
    q.length + writeSpan mem.length r w full ≤ mem.length := by
  have hle := h.length_le
  unfold writeSpan
  cases h with
  | straight a c hmem hc hr hw hfull =>
    have hlen : mem.length = a.length + q.length + c.length := by simp [hmem, Nat.add_assoc]
    split_ifs <;> omega
  | wrapped q₁ q₂ f hmem hne hr hw hq hfull =>
    have hlen : mem.length = q₂.length + f.length + q₁.length := by simp [hmem, Nat.add_assoc]
    have hql : q.length = q₁.length + q₂.length := by rw [hq, List.length_append]
    split_ifs with hfull' hlt
    · omega
    · omega
    · have hnil : f = [] := List.eq_nil_of_length_eq_zero (by omega)
      exact absurd ⟨by omega, hfull hnil⟩ hfull'

/-- Nothing can be written only into a full ring. -/
theorem writeSpan_eq_zero_iff (h : Ring mem r w full q) :
    writeSpan mem.length r w full = 0 ↔ q.length = mem.length := by
  refine ⟨fun hzero => ?_, fun hlen => ?_⟩
  · rw [← h.full_iff]
    unfold writeSpan at hzero
    split_ifs at hzero with hfull hlt
    · exact hfull
    · omega
    · cases h with
      | straight a c hmem hc hr hw hfull =>
        have hlen : mem.length = a.length + q.length + c.length := by simp [hmem, Nat.add_assoc]
        have hpos := List.length_pos_iff.mpr hc
        omega
      | wrapped q₁ q₂ f hmem hne hr hw hq hfull =>
        have hlen : mem.length = q₂.length + f.length + q₁.length := by
          simp [hmem, Nat.add_assoc]
        have hpos₁ := List.length_pos_iff.mpr hne
        omega
  · have hle := h.length_add_writeSpan_le
    omega

/-- Nothing can be read only from an empty ring. -/
theorem readSpan_eq_zero_iff (h : Ring mem r w full q) :
    readSpan mem.length r w full = 0 ↔ q = [] := by
  refine ⟨fun hzero => ?_, fun hq => ?_⟩
  · by_contra hq
    have hpos := h.readSpan_pos hq
    omega
  · have hle := h.readSpan_le
    rw [hq, List.length_nil] at hle
    omega

theorem length_store (h : Ring mem r w full q) {data : List α}
    (hk : data.length ≤ writeSpan mem.length r w full) :
    (store mem w data).length = mem.length := by
  unfold store
  unfold writeSpan at hk
  have hw : w + data.length ≤ mem.length := by
    cases h with
    | straight a c hmem hc hr hw hfull =>
      have hlen : mem.length = a.length + q.length + c.length := by simp [hmem, Nat.add_assoc]
      split_ifs at hk <;> omega
    | wrapped q₁ q₂ f hmem hne hr hw hq hfull =>
      have hlen : mem.length = q₂.length + f.length + q₁.length := by simp [hmem, Nat.add_assoc]
      split_ifs at hk <;> omega
  rw [List.length_append, List.length_append, List.length_take, List.length_drop]
  omega

/-! ### A ring in which one cell stays free, so that no flag is needed -/

/-- The cells from index `r` to index `w`. -/
def contents (mem : List α) (r w : ℕ) : List α :=
  if r ≤ w then (mem.drop r).take (w - r) else mem.drop r ++ mem.take w

theorem contents_eq (h : Ring mem r w false q) : contents mem r w = q := by
  unfold contents
  cases h with
  | straight a c hmem hc hr hw hfull =>
    rw [if_pos (by omega), hmem, List.append_assoc, hr, List.drop_left, hw, Nat.add_sub_cancel_left,
      List.take_left]
  | wrapped q₁ q₂ f hmem hne hr hw hq hfull =>
    have hf : f ≠ [] := fun hnil => absurd (hfull hnil) Bool.false_ne_true
    have hfpos := List.length_pos_iff.mpr hf
    rw [if_neg (by omega), hmem, hr, ← List.length_append, List.drop_left, hw, List.append_assoc,
      List.take_left, hq]

/-- The cell that is written next is free. -/
theorem set_free (h : Ring mem r w false q) (x : α) : Ring (mem.set w x) r w false q := by
  cases h with
  | straight a c hmem hc hr hw hfull =>
    refine .straight a (c.set 0 x) ?_ (by simpa using hc) hr hw hfull
    rw [hmem, hw, ← List.length_append, List.set_append_right _ _ le_rfl, Nat.sub_self]
  | wrapped q₁ q₂ f hmem hne hr hw hq hfull =>
    have hf : f ≠ [] := fun hnil => absurd (hfull hnil) Bool.false_ne_true
    refine .wrapped q₁ q₂ (f.set 0 x) ?_ hne (by simpa using hr) hw hq fun hnil => ?_
    · have hfpos := List.length_pos_iff.mpr hf
      rw [hmem, hw, List.append_assoc, List.set_append_right _ _ le_rfl, Nat.sub_self,
        List.set_append_left _ _ hfpos, List.append_assoc]
    · exact absurd (by simpa using hnil) hf

/-- The first element of the queue is in the cell that is read next. -/
theorem front {x : α} (h : Ring mem r w full (x :: q)) : mem[r]? = some x := by
  have hpos := h.readSpan_pos (List.cons_ne_nil x q)
  have htake := h.read_take hpos
  have hhead := congrArg (·[0]?) htake
  simpa using hhead

theorem read_lt (h : Ring mem r w full q) : r < mem.length := by
  cases h with
  | straight a c hmem hc hr hw hfull =>
    have hpos := List.length_pos_iff.mpr hc
    have hlen : mem.length = a.length + q.length + c.length := by simp [hmem, Nat.add_assoc]
    omega
  | wrapped q₁ q₂ f hmem hne hr hw hq hfull =>
    have hpos := List.length_pos_iff.mpr hne
    have hlen : mem.length = q₂.length + f.length + q₁.length := by simp [hmem, Nat.add_assoc]
    omega

theorem write_lt (h : Ring mem r w false q) : w < mem.length := by
  cases h with
  | straight a c hmem hc hr hw hfull =>
    have hpos := List.length_pos_iff.mpr hc
    have hlen : mem.length = a.length + q.length + c.length := by simp [hmem, Nat.add_assoc]
    omega
  | wrapped q₁ q₂ f hmem hne hr hw hq hfull =>
    have hpos := List.length_pos_iff.mpr hne
    have hlen : mem.length = q₂.length + f.length + q₁.length := by simp [hmem, Nat.add_assoc]
    omega

/-- The first element is taken by moving the index that is read at. -/
theorem pop {x : α} (h : Ring mem r w full (x :: q)) :
    Ring mem ((r + 1) % mem.length) w false q := by
  have hlt := h.read_lt
  have hread := h.read Nat.one_pos (h.readSpan_pos (List.cons_ne_nil x q))
  have hadvance : advance mem.length r 1 = (r + 1) % mem.length := by
    unfold advance
    split_ifs with hle
    · rw [show r + 1 = mem.length by omega, Nat.mod_self]
    · rw [Nat.mod_eq_of_lt (by omega)]
  rwa [hadvance] at hread

/-- If the index behind the one that is written at is not the one that is read at, two cells are
free. -/
theorem length_lt_of_ne (h : Ring mem r w false q) (hne : r ≠ (w + 1) % mem.length) :
    q.length + 1 < mem.length := by
  cases h with
  | straight a c hmem hc hr hw hfull =>
    have hpos := List.length_pos_iff.mpr hc
    have hlen : mem.length = a.length + q.length + c.length := by simp [hmem, Nat.add_assoc]
    by_contra hle
    rw [show w + 1 = mem.length by omega, Nat.mod_self] at hne
    omega
  | wrapped q₁ q₂ f hmem hne₁ hr hw hq hfull =>
    have hf : f ≠ [] := fun hnil => absurd (hfull hnil) Bool.false_ne_true
    have hfpos := List.length_pos_iff.mpr hf
    have hpos := List.length_pos_iff.mpr hne₁
    have hlen : mem.length = q₂.length + f.length + q₁.length := by simp [hmem, Nat.add_assoc]
    have hql : q.length = q₁.length + q₂.length := by rw [hq, List.length_append]
    rw [Nat.mod_eq_of_lt (by omega)] at hne
    omega

/-- What is in the free cell is added by moving the index that is written at, if another cell stays
free. -/
theorem push {x : α} (h : Ring mem r w false q) (hx : mem[w]? = some x)
    (hfree : q.length + 1 < mem.length) : Ring mem r ((w + 1) % mem.length) false (q ++ [x]) := by
  cases h with
  | straight a c hmem hc hr hw hfull =>
    obtain ⟨y, c', rfl⟩ := List.exists_cons_of_ne_nil hc
    obtain rfl : y = x := by
      rw [hmem, hw, ← List.length_append, List.getElem?_append_right le_rfl, Nat.sub_self] at hx
      exact Option.some.inj hx
    have hlen : mem.length = a.length + q.length + (c'.length + 1) := by
      simp [hmem, Nat.add_assoc]
    rcases eq_or_ne c' [] with hnil | hc'
    · rw [hnil, List.length_nil] at hlen
      refine .wrapped (q ++ [y]) [] a ?_ (by simp) (by simpa using hr) ?_ (by simp) fun ha => ?_
      · rw [hmem, hnil, List.nil_append, List.append_assoc]
      · rw [show w + 1 = mem.length by omega, Nat.mod_self, List.length_nil]
      · rw [ha, List.length_nil] at hlen
        omega
    · have hpos := List.length_pos_iff.mpr hc'
      refine .straight a c' ?_ hc' hr ?_ fun _ => rfl
      · rw [hmem]
        simp
      · rw [Nat.mod_eq_of_lt (by omega), hw, List.length_append, List.length_singleton,
          Nat.add_assoc]
  | wrapped q₁ q₂ f hmem hne hr hw hq hfull =>
    have hf : f ≠ [] := fun hnil => absurd (hfull hnil) Bool.false_ne_true
    obtain ⟨y, f', rfl⟩ := List.exists_cons_of_ne_nil hf
    obtain rfl : y = x := by
      rw [hmem, hw, List.append_assoc, List.getElem?_append_right le_rfl, Nat.sub_self] at hx
      exact Option.some.inj hx
    have hpos := List.length_pos_iff.mpr hne
    have hlen : mem.length = q₂.length + (f'.length + 1) + q₁.length := by
      rw [hmem, List.length_append, List.length_append, List.length_cons]
    have hql : q.length = q₁.length + q₂.length := by rw [hq, List.length_append]
    refine .wrapped q₁ (q₂ ++ [y]) f' ?_ hne ?_ ?_ ?_ fun hnil => ?_
    · rw [hmem]
      simp only [List.append_assoc, List.cons_append, List.nil_append]
    · rw [hr, List.length_append, List.length_cons, List.length_singleton]
      omega
    · rw [Nat.mod_eq_of_lt (by omega), hw, List.length_append, List.length_singleton]
    · rw [hq, List.append_assoc]
    · rw [hnil, List.length_nil] at hlen
      omega

end Ring

end Lib
