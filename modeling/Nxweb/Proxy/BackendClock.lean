import Nxweb.Lib.RecentRing
import Nxweb.Proxy.Request

/-!
# The clock of a backend

Model of the clock samples in `nxd_http_proxy_pool` (`nxd_http_proxy.c`): `nxd_http_proxy_pool_init`
in memory with any contents, `nxd_http_proxy_pool_report_backend_time_delta` and
`nxd_http_proxy_pool_get_backend_time_delta`.

The pool is part of `nxweb_net_thread_data`, which `nxweb_run` takes from `malloc`. The
initialisation writes the eight samples and leaves `backend_time_delta_idx` as it is. An access
outside of the eight samples has no result. The sum is a `time_t`, a signed number of 64 bits.

## Main statements

* `backendClock_iff`: when every access of a sequence of calls is inside of the samples and every
  value returned is the rounded mean of the last reports;
* `BackendClock.report_eq`, `BackendClock.get_eq`: within these bounds the samples are those of
  `TimeDeltas`.
-/

namespace Nxweb

open Lib

/-! ### The samples -/

/-- `NXD_HTTP_PROXY_POOL_TIME_DELTA_SAMPLES`. -/
def timeDeltaSamples : ℕ := 8

/-- A sum of type `time_t`. -/
def timeWord (x : ℤ) : ℤ := x.bmod (2 ^ 64)

/-- `backend_time_delta` and `backend_time_delta_idx` of `nxd_http_proxy_pool`. -/
structure BackendClock where
  backendTimeDelta : Vector ℤ timeDeltaSamples
  backendTimeDeltaIdx : ℤ
  deriving DecidableEq

/-- What `nxd_http_proxy_pool_init` does to the clock samples of the memory it is given. -/
def nxdHttpProxyPoolInit (pp : BackendClock) : BackendClock :=
  { pp with backendTimeDelta := Vector.replicate timeDeltaSamples timeDeltaNoValue }

namespace BackendClock

/-- `nxd_http_proxy_pool_report_backend_time_delta`. -/
def report (pp : BackendClock) (delta : ℤ) : Option BackendClock :=
  if h : 0 ≤ pp.backendTimeDeltaIdx ∧ pp.backendTimeDeltaIdx < timeDeltaSamples then
    some {
      backendTimeDelta := pp.backendTimeDelta.set pp.backendTimeDeltaIdx.toNat delta (by omega)
      backendTimeDeltaIdx := (pp.backendTimeDeltaIdx + 1).tmod timeDeltaSamples }
  else none

/-- The loop body of `nxd_http_proxy_pool_get_backend_time_delta`, on `sum` and `cnt`. -/
def addSample (acc : ℤ × ℕ) (sample : ℤ) : ℤ × ℕ :=
  if sample ≠ timeDeltaNoValue then (timeWord (acc.1 + sample), acc.2 + 1) else acc

/-- `nxd_http_proxy_pool_get_backend_time_delta`. -/
def get (pp : BackendClock) : ℤ :=
  let (sum, cnt) := pp.backendTimeDelta.toList.foldl addSample (0, 0)
  if cnt = 0 then 0 else (timeWord (sum + (cnt / 2 : ℕ))).tdiv cnt

end BackendClock

/-! ### Sequences of calls -/

/-- The calls on the clock samples of a pool. -/
inductive BackendCall where
  /-- `nxd_http_proxy_pool_report_backend_time_delta`. -/
  | report (delta : ℤ)
  /-- `nxd_http_proxy_pool_get_backend_time_delta`. -/
  | get
  deriving DecidableEq

/-- The pool after a call, `none` if the call leaves the samples. -/
def BackendClock.call (pp : BackendClock) : BackendCall → Option BackendClock
  | .report delta => pp.report delta
  | .get => some pp

/-- The deltas reported by some calls, in order. -/
def reportedDeltas (calls : List BackendCall) : List ℤ :=
  calls.filterMap fun
    | .report delta => some delta
    | .get => none

/-- The last eight reports, without those that are the marker for no value. -/
def recentDeltas (calls : List BackendCall) : List ℤ :=
  (recent timeDeltaSamples (reportedDeltas calls)).filter (· ≠ timeDeltaNoValue)

/-- The integer is nearest to the mean of the values, and zero if there are none. -/
def IsRoundedMean (values : List ℤ) (v : ℤ) : Prop :=
  if values = [] then v = 0 else 2 * |v * values.length - values.sum| ≤ values.length

/-- In a sequence of calls, every call stays inside of the samples and every value returned is the
rounded mean of the last reports. -/
def KeepsTime (pp : BackendClock) (calls : List BackendCall) : Prop :=
  ∀ before call after, calls = before ++ call :: after →
    ∃ pp', run BackendClock.call pp before = some pp' ∧ pp'.call call ≠ none ∧
      (call = .get → IsRoundedMean (recentDeltas before) pp'.get)

/-- The division of the values rounds to the nearest integer: their sum and half their number fit
a `time_t`, and are not negative unless the number divides them. -/
def Averages (values : List ℤ) : Prop :=
  values = [] ∨
    (-2 ^ 63 ≤ values.sum + (values.length / 2 : ℕ) ∧
      values.sum + (values.length / 2 : ℕ) < 2 ^ 63) ∧
    (0 ≤ values.sum + (values.length / 2 : ℕ) ∨
      (values.length : ℤ) ∣ values.sum + (values.length / 2 : ℕ))

/-! ### The mean -/

/-- A sum in words of 64 bits is the sum, reduced to 64 bits at the end. -/
theorem foldl_addSample (values : List ℤ) (sum : ℤ) (cnt : ℕ) :
    values.foldl BackendClock.addSample (timeWord sum, cnt) =
      (timeWord (sum + (values.filter (· ≠ timeDeltaNoValue)).sum),
        cnt + (values.filter (· ≠ timeDeltaNoValue)).length) := by
  induction values generalizing sum cnt with
  | nil => simp
  | cons x values ih =>
    rw [List.foldl_cons, BackendClock.addSample]
    by_cases hx : x ≠ timeDeltaNoValue
    · have hword : timeWord (timeWord sum + x) = timeWord (sum + x) := Int.bmod_add_bmod
      rw [if_pos hx, hword, ih, List.filter_cons_of_pos (by simpa using hx), List.sum_cons,
        List.length_cons, add_assoc, add_assoc, add_comm 1]
    · rw [if_neg hx, ih, List.filter_cons_of_neg (by simpa using hx)]

/-- What the division returns for given values. -/
def meanWord (values : List ℤ) : ℤ :=
  if values.length = 0 then 0
  else (timeWord (values.sum + (values.length / 2 : ℕ))).tdiv values.length

theorem BackendClock.get_eq_meanWord (pp : BackendClock) :
    pp.get = meanWord (pp.backendTimeDelta.toList.filter (· ≠ timeDeltaNoValue)) := by
  have htotal := foldl_addSample pp.backendTimeDelta.toList 0 0
  have hzero : timeWord 0 = 0 := by decide
  have hword (x y : ℤ) : timeWord (timeWord x + y) = timeWord (x + y) := Int.bmod_add_bmod
  rw [hzero, zero_add, zero_add] at htotal
  rw [BackendClock.get, htotal, meanWord]
  simp only [hword]

/-- The order of the values does not matter. -/
theorem meanWord_perm {values values' : List ℤ} (h : values.Perm values') :
    meanWord values = meanWord values' := by
  rw [meanWord, meanWord, h.length_eq, h.sum_eq]

/-- A quotient that is rounded towards zero, with half the divisor added before, is nearest to the
exact one if and only if the dividend is not negative or the division leaves no rest. -/
theorem tdiv_nearest_iff {s : ℤ} {c : ℕ} (hc : 0 < c) :
    2 * |(s + (c / 2 : ℕ)).tdiv c * c - s| ≤ c ↔
      0 ≤ s + (c / 2 : ℕ) ∨ (c : ℤ) ∣ s + (c / 2 : ℕ) := by
  generalize hx : s + (c / 2 : ℕ) = x
  have hsplit := Int.tdiv_mul_add_tmod x c
  have hs : x.tdiv c * c - s = (c / 2 : ℕ) - x.tmod c := by omega
  rw [hs, Int.dvd_iff_tmod_eq_zero]
  rcases le_or_gt 0 x with hnonneg | hneg
  · -- The rest is between zero and the divisor.
    have hlow := Int.tmod_nonneg c hnonneg
    have hhigh := Int.tmod_lt_of_pos x (Int.natCast_pos.mpr hc)
    have : 2 * |((c / 2 : ℕ) : ℤ) - x.tmod c| ≤ c := by
      rw [abs_eq_max_neg]
      omega
    exact iff_of_true this (.inl hnonneg)
  · -- The rest is not positive, and any rest at all moves the quotient away.
    have hrest : x.tmod c ≤ 0 := by
      have := Int.tmod_nonneg c (neg_nonneg.mpr hneg.le)
      rw [Int.neg_tmod] at this
      omega
    rw [abs_eq_max_neg]
    omega

/-- A reduced dividend that differs from the exact one gives a quotient that is far away. -/
theorem not_nearest_of_timeWord_ne {s : ℤ} {c : ℕ} (hc : 0 < c) (hsmall : c ≤ timeDeltaSamples)
    (h : timeWord (s + (c / 2 : ℕ)) ≠ s + (c / 2 : ℕ)) :
    ¬ 2 * |(timeWord (s + (c / 2 : ℕ))).tdiv c * c - s| ≤ c := by
  generalize hx : s + (c / 2 : ℕ) = x at h ⊢
  -- The two dividends are at least `2 ^ 64` apart.
  have hmod : timeWord x = x - ((2 ^ 64 : ℕ) : ℤ) * x.bdiv (2 ^ 64) :=
    Int.bmod_eq_self_sub_mul_bdiv x (2 ^ 64)
  generalize timeWord x = y at h hmod ⊢
  generalize x.bdiv (2 ^ 64) = k at hmod
  have hsplit := Int.tdiv_mul_add_tmod y c
  have hrest : |y.tmod c| < c := by
    have habs := Int.natAbs_tmod y c
    rw [Int.natAbs_natCast] at habs
    have hlt : y.natAbs % c < c := Nat.mod_lt _ hc
    rw [Int.abs_eq_natAbs]
    omega
  rw [abs_lt] at hrest
  rw [abs_eq_max_neg]
  rw [timeDeltaSamples] at hsmall
  omega

theorem timeWord_eq_iff (x : ℤ) : timeWord x = x ↔ -2 ^ 63 ≤ x ∧ x < 2 ^ 63 := by
  constructor
  · intro h
    have hlow := @Int.le_bmod x (2 ^ 64) (by norm_num)
    have hhigh := @Int.bmod_lt x (2 ^ 64) (by norm_num)
    rw [timeWord] at h
    rw [h] at hlow hhigh
    norm_num at hlow hhigh
    omega
  · rintro ⟨hlow, hhigh⟩
    rw [timeWord, Int.bmod_eq_of_le] <;> omega

/-- The division returns the rounded mean if and only if the values average. -/
theorem isRoundedMean_meanWord_iff {values : List ℤ} (h : values.length ≤ timeDeltaSamples) :
    IsRoundedMean values (meanWord values) ↔ Averages values := by
  rcases eq_or_ne values [] with rfl | hne
  · simp [IsRoundedMean, meanWord, Averages]
  · have hpos : 0 < values.length := List.length_pos_iff.mpr hne
    rw [IsRoundedMean, if_neg hne, meanWord, if_neg hpos.ne', Averages, or_iff_right hne,
      ← timeWord_eq_iff]
    by_cases hword : timeWord (values.sum + (values.length / 2 : ℕ)) =
        values.sum + (values.length / 2 : ℕ)
    · rw [hword, tdiv_nearest_iff hpos, eq_self, true_and]
    · simp only [hword, false_and, iff_false]
      exact not_nearest_of_timeWord_ne hpos h hword

/-- Where the values average, the division is that of the proxied requests. -/
theorem meanWord_eq_of_averages {values : List ℤ} (h : Averages values) :
    meanWord values =
      if (values.length : ℤ) = 0 then 0
      else (values.sum + (values.length : ℤ).tdiv 2).tdiv values.length := by
  rcases h with rfl | ⟨hrange, -⟩
  · rfl
  · have hhalf : (values.length : ℤ).tdiv 2 = (values.length / 2 : ℕ) := by
      rw [Int.tdiv_eq_ediv_of_nonneg (Int.natCast_nonneg _), Int.natCast_div, Nat.cast_ofNat]
    simp only [meanWord, (timeWord_eq_iff _).mpr hrange, hhalf, Nat.cast_eq_zero]

/-! ### What the calls keep -/

@[simp]
theorem reportedDeltas_nil : reportedDeltas [] = [] := rfl

theorem reportedDeltas_append (before after : List BackendCall) :
    reportedDeltas (before ++ after) = reportedDeltas before ++ reportedDeltas after :=
  List.filterMap_append

theorem length_recentDeltas_le (calls : List BackendCall) :
    (recentDeltas calls).length ≤ timeDeltaSamples := by
  refine (List.length_filter_le _ _).trans ?_
  rw [recent, List.length_drop]
  omega

namespace BackendClock

variable {pp pp' : BackendClock}

/-- The index of the next sample is inside of the samples. -/
def InSamples (pp : BackendClock) : Prop :=
  0 ≤ pp.backendTimeDeltaIdx ∧ pp.backendTimeDeltaIdx < timeDeltaSamples

/-- The samples are the last reports of the calls, from the index on. -/
def Holds (pp : BackendClock) (calls : List BackendCall) : Prop :=
  KeepsRecent pp.backendTimeDelta.toList pp.backendTimeDeltaIdx.toNat timeDeltaNoValue
    (reportedDeltas calls)

/-- A report has a result exactly if the index is inside of the samples. -/
theorem report_ne_none_iff (delta : ℤ) : pp.report delta ≠ none ↔ pp.InSamples := by
  rw [report, InSamples]
  split <;> simp [*]

/-- What a report writes, and the index it leaves. -/
theorem report_cases {delta : ℤ} (h : pp.report delta = some pp') :
    pp.InSamples ∧
      pp'.backendTimeDelta.toList =
        pp.backendTimeDelta.toList.set pp.backendTimeDeltaIdx.toNat delta ∧
      pp'.backendTimeDeltaIdx =
        ((pp.backendTimeDeltaIdx.toNat + 1) % timeDeltaSamples : ℕ) := by
  have hin : pp.InSamples := (report_ne_none_iff delta).mp (by rw [h]; exact Option.some_ne_none _)
  have hidx : (pp.backendTimeDeltaIdx + 1).tmod timeDeltaSamples =
      ((pp.backendTimeDeltaIdx.toNat + 1) % timeDeltaSamples : ℕ) := by
    have hnonneg : 0 ≤ pp.backendTimeDeltaIdx + 1 := by linarith [hin.1]
    rw [Int.tmod_eq_emod_of_nonneg hnonneg, Int.natCast_mod, Nat.cast_add_one,
      Int.toNat_of_nonneg hin.1]
  rw [report, dif_pos ⟨hin.1, hin.2⟩] at h
  obtain rfl := Option.some.inj h
  have hlt : pp.backendTimeDeltaIdx.toNat < timeDeltaSamples := by
    have := hin.1
    have := hin.2
    omega
  exact ⟨hin, Vector.toList_set (h := hlt), hidx⟩

/-- The index stays inside of the samples. -/
theorem InSamples.report {delta : ℤ} (h : pp.report delta = some pp') : pp'.InSamples := by
  obtain ⟨-, -, hidx⟩ := report_cases h
  rw [InSamples, hidx]
  have := Nat.mod_lt (pp.backendTimeDeltaIdx.toNat + 1) (show 0 < timeDeltaSamples by decide)
  omega

/-- The index stays inside of the samples in all calls. -/
theorem InSamples.call (h : pp.InSamples) {c : BackendCall} (hc : pp.call c = some pp') :
    pp'.InSamples := by
  cases c with
  | report delta => exact InSamples.report hc
  | get =>
    obtain rfl := Option.some.inj hc
    exact h

/-- The fresh samples hold no report, whatever the index is. -/
theorem holds_nxdHttpProxyPoolInit (memory : BackendClock) :
    (nxdHttpProxyPoolInit memory).Holds [] := by
  rw [Holds, nxdHttpProxyPoolInit, Vector.toList_replicate]
  exact keepsRecent_replicate _ _ _

/-- A call leaves the last reports, its own one among them. -/
theorem Holds.call {calls : List BackendCall} (h : pp.Holds calls) {c : BackendCall}
    (hc : pp.call c = some pp') : pp'.Holds (calls ++ [c]) := by
  cases c with
  | get =>
    obtain rfl := Option.some.inj hc
    rw [Holds, reportedDeltas_append]
    exact (List.append_nil (reportedDeltas calls)).symm ▸ h
  | report delta =>
    obtain ⟨hin, hsamples, hidx⟩ := report_cases hc
    have hlen : pp.backendTimeDelta.toList.length = timeDeltaSamples := Vector.length_toList
    have hlt : pp.backendTimeDeltaIdx.toNat < pp.backendTimeDelta.toList.length := by
      have := hin.1
      have := hin.2
      omega
    have hwrite := KeepsRecent.write h hlt delta
    rw [hlen] at hwrite
    rw [Holds, hsamples, hidx, Int.toNat_natCast, reportedDeltas_append]
    exact hwrite

/-- After any calls that have a result, the samples hold the last reports. -/
theorem Holds.run {before calls : List BackendCall} (h : pp.Holds before)
    (hrun : run BackendClock.call pp calls = some pp') : pp'.Holds (before ++ calls) := by
  induction calls generalizing pp before with
  | nil =>
    obtain rfl := Option.some.inj hrun
    rwa [List.append_nil]
  | cons c calls ih =>
    obtain ⟨pp₁, hc, hrest⟩ := Option.bind_eq_some_iff.mp hrun
    have := ih (h.call hc) hrest
    rwa [List.append_assoc] at this

/-- The value returned is computed from the last reports. -/
theorem Holds.get {calls : List BackendCall} (h : pp.Holds calls) :
    pp.get = meanWord (recentDeltas calls) := by
  have hperm := h.perm_filter (p := fun x => decide (x ≠ timeDeltaNoValue)) (by simp)
  rw [Vector.length_toList] at hperm
  rw [get_eq_meanWord]
  exact meanWord_perm hperm

/-- Calls with a report among them have a result only if the index was inside of the samples. -/
theorem inSamples_of_run {calls : List BackendCall} {delta : ℤ}
    (hrun : run BackendClock.call pp calls = some pp') (hmem : .report delta ∈ calls) :
    pp.InSamples := by
  induction calls with
  | nil => simp at hmem
  | cons c calls ih =>
    obtain ⟨pp₁, hc, hrest⟩ := Option.bind_eq_some_iff.mp hrun
    cases c with
    | report delta' => exact (report_cases hc).1
    | get =>
      obtain rfl := Option.some.inj hc
      exact ih hrest (by simpa using hmem)

/-- Calls have a result if the index is inside of the samples, or nothing is reported. -/
theorem run_ne_none {calls : List BackendCall}
    (h : (∀ delta, .report delta ∉ calls) ∨ pp.InSamples) :
    ∃ pp', run BackendClock.call pp calls = some pp' := by
  induction calls generalizing pp with
  | nil => exact ⟨pp, rfl⟩
  | cons c calls ih =>
    cases c with
    | get => exact ih (h.imp_left fun hnone delta hmem => hnone delta (List.mem_cons_of_mem _ hmem))
    | report delta =>
      have hin : pp.InSamples := h.resolve_left fun hnone => hnone delta List.mem_cons_self
      obtain ⟨pp₁, hpp₁⟩ := Option.ne_none_iff_exists'.mp ((report_ne_none_iff delta).mpr hin)
      obtain ⟨pp', hrun⟩ := ih (.inr (InSamples.report hpp₁))
      exact ⟨pp', Option.bind_eq_some_iff.mpr ⟨pp₁, hpp₁, hrun⟩⟩

end BackendClock

/-! ### When the clock is right -/

/-- For all contents of the memory and all calls, the calls stay inside of the samples and return
rounded means if and only if nothing is reported or the memory has an index inside of the samples,
and the last reports average whenever a value is asked for. -/
theorem backendClock_iff (memory : BackendClock) (calls : List BackendCall) :
    KeepsTime (nxdHttpProxyPoolInit memory) calls ↔
      ((∀ delta, .report delta ∉ calls) ∨
        0 ≤ memory.backendTimeDeltaIdx ∧ memory.backendTimeDeltaIdx < 8) ∧
      ∀ before after, calls = before ++ .get :: after → Averages (recentDeltas before) := by
  have hget {before : List BackendCall} {pp : BackendClock}
      (hrun : run BackendClock.call (nxdHttpProxyPoolInit memory) before = some pp) :
      IsRoundedMean (recentDeltas before) pp.get ↔ Averages (recentDeltas before) := by
    have hholds := (BackendClock.holds_nxdHttpProxyPoolInit memory).run hrun
    rw [hholds.get]
    exact isRoundedMean_meanWord_iff (length_recentDeltas_le before)
  constructor
  · intro h
    refine ⟨?_, fun before after hsplit => ?_⟩
    · by_contra hcon
      push Not at hcon
      obtain ⟨⟨delta, hmem⟩, hout⟩ := hcon
      -- The run up to the report and the report itself have a result.
      obtain ⟨before, after, hsplit⟩ := List.append_of_mem hmem
      obtain ⟨pp, hrun, hcall, -⟩ := h before _ after hsplit
      obtain ⟨pp', hpp'⟩ := Option.ne_none_iff_exists'.mp hcall
      have hall := run_append hrun (run_single hpp')
      have hin := BackendClock.inSamples_of_run hall
        (List.mem_append_right before (List.mem_singleton_self (BackendCall.report delta)))
      exact (hout hin.1).not_gt hin.2
    · obtain ⟨pp, hrun, -, hmean⟩ := h before .get after hsplit
      exact (hget hrun).mp (hmean rfl)
  · rintro ⟨hidx, havg⟩ before call after hsplit
    have hstart : (∀ delta, .report delta ∉ calls) ∨ (nxdHttpProxyPoolInit memory).InSamples := hidx
    have hmem {c : BackendCall} (hc : c ∈ before ∨ c = call) : c ∈ calls := by
      rw [hsplit, List.mem_append, List.mem_cons]
      exact hc.imp_right .inl
    obtain ⟨pp, hrun⟩ := BackendClock.run_ne_none
      (hstart.imp_left fun hnone delta hbefore => hnone delta (hmem (.inl hbefore)))
    refine ⟨pp, hrun, ?_, fun hcall => ?_⟩
    · cases call with
      | get => exact Option.some_ne_none pp
      | report delta =>
        have hin : (nxdHttpProxyPoolInit memory).InSamples :=
          hstart.resolve_left fun hnone => hnone delta (hmem (.inr rfl))
        have hpp : pp.InSamples := run_inv (fun _ c _ hs hstep => hs.call hstep) hin hrun
        exact (BackendClock.report_ne_none_iff delta).mpr hpp
    · exact (hget hrun).mpr (havg before after (hcall ▸ hsplit))

/-- In memory whose index is behind the samples, the first report is written behind them. -/
theorem not_keepsTime :
    ¬ ∀ (memory : BackendClock) (calls : List BackendCall),
      KeepsTime (nxdHttpProxyPoolInit memory) calls := by
  intro h
  obtain ⟨pp, hrun, hcall, -⟩ := h ⟨Vector.replicate _ 0, 8⟩ [.report 5] [] (.report 5) [] rfl
  obtain rfl := Option.some.inj hrun
  exact hcall rfl

/-- With the index inside of the samples, a mean of a negative sum is rounded up. -/
example : meanWord [-1, -2, -2] = -1 ∧ ¬ IsRoundedMean [-1, -2, -2] (-1) := by
  refine ⟨by decide, ?_⟩
  rw [IsRoundedMean, if_neg (by decide)]
  decide

/-! ### The samples of a running proxy -/

namespace BackendClock

/-- The samples as the proxied requests see them. -/
def toTimeDeltas (pp : BackendClock) : TimeDeltas where
  samples := pp.backendTimeDelta.toList
  idx := pp.backendTimeDeltaIdx.toNat

/-- Inside of the samples, a report is one of the proxied requests. -/
theorem report_eq {pp pp' : BackendClock} {delta : ℤ} (h : pp.report delta = some pp') :
    pp'.toTimeDeltas = pp.toTimeDeltas.report delta := by
  obtain ⟨-, hsamples, hidx⟩ := report_cases h
  rw [toTimeDeltas, hsamples, hidx, Int.toNat_natCast]
  rfl

/-- Where the values average, the value is the one the proxied requests get. -/
theorem get_eq (pp : BackendClock)
    (hfit : Averages (pp.toTimeDeltas.samples.filter (· ≠ timeDeltaNoValue))) :
    pp.get = pp.toTimeDeltas.get := by
  have hmean := meanWord_eq_of_averages hfit
  rw [get_eq_meanWord]
  exact hmean

end BackendClock

end Nxweb
