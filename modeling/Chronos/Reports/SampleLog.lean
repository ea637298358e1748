import Chronos.Benchmark.Decimals
import Chronos.Foundation.Pattern

/-! # The summary of a log of samples

`handler_sampling` prints a line at every tick of the sampling timer, and `sample2csv.pl` reads
the lines again and averages the rates. A `double` is taken as the decimal that is printed.
-/
namespace Chronos.Reports
open Foundation Benchmark Token

/-- What `handler_sampling` prints: a `double` in units of its last place. -/
structure SampleValues where
  durationMs : ℕ
  count : ℕ
  averageServiceDelayMs : ℕ
  totalFailedTxns : ℕ
  totalTimelyTxns : ℕ
  degreeTimingViolation : ℕ
  smothDegreeTimingViolation : ℕ
  totalTxnsEnqueued : ℕ
  numTxnToWait : ℕ

/-- The format of `handler_sampling` with its values: `%lf` has six places, `%.3lf` three. -/
def SampleValues.slots (s : SampleValues) : List (List Byte × List Byte) :=
  [(ascii "[ACC_DURATION_MS: ", formatFixed 6 s.durationMs),
    (ascii ", [NUM_TXN: ", formatNat s.count),
    (ascii ", [AVG_DURATION_MS: ", formatFixed 3 s.averageServiceDelayMs),
    (ascii " [NUM_FAILED_TXNS: ", formatNat s.totalFailedTxns),
    (ascii ", [NUM_TIMELY_TXNS: ", formatNat s.totalTimelyTxns),
    (ascii " [DELTA(k): ", formatFixed 3 s.degreeTimingViolation),
    (ascii ", [DELTA_S(k): ", formatFixed 3 s.smothDegreeTimingViolation),
    (ascii " [TNX_ENQUEUED: ", formatNat s.totalTxnsEnqueued),
    (ascii " [TXN_TO_WAIT: ", formatNat s.numTxnToWait)]

def SampleValues.text (s : SampleValues) : List Byte := ascii "SAMPLING " ++ render BRACKET s.slots

/-- `chronos_info`; the place is the name of the file, the number of the line and a newline. -/
def chronosInfo (text place : List Byte) : List Byte :=
  ascii "INFO: " ++ text.take 255 ++ ascii ": at " ++ place

/-- A sample whose text `chronos_info` does not cut off. -/
structure Sample extends SampleValues where
  fits : toSampleValues.text.length < 256

def Sample.line (s : Sample) (place : List Byte) : List Byte := chronosInfo s.text place

/-- `(\d+)`. -/
def integerGroup : List (Token Byte) := [.many 1 isDigit]

def decimalGroup : List (Token Byte) := [.many 1 isDigit, .lit POINT, .many 1 isDigit]

/-- The expression of `sample2csv.pl`. -/
def samplePattern : List (Token Byte) := compile BRACKET
  [(ascii "[ACC_DURATION_MS: ", decimalGroup),
    (ascii ", [NUM_TXN: ", integerGroup),
    (ascii ", [AVG_DURATION_MS: ", decimalGroup),
    (ascii " [NUM_FAILED_TXNS: ", integerGroup),
    (ascii ", [NUM_TIMELY_TXNS: ", integerGroup),
    (ascii " [DELTA(k): ", decimalGroup),
    (ascii ", [DELTA_S(k): ", decimalGroup),
    (ascii " [TNX_ENQUEUED: ", integerGroup),
    (ascii " [TXN_TO_WAIT: ", integerGroup)]

/-- The variables of `sample2csv.pl` that are summed up, and the rows it has printed. -/
structure Totals where
  avgDuration : ℚ
  avgSuccessRate : ℚ
  avgTimelyTxnRate : ℚ
  txnCnt : ℚ
  samplesize : ℕ
  rows : List (List CStr)

def Totals.zero : Totals := ⟨0, 0, 0, 0, 0, []⟩

/-- A division by zero ends the script. -/
def divide (x y : ℚ) : Option ℚ := if y = 0 then none else some (x / y)

/-- The body of `while (<FILE1>)`. Where nothing matches the variables are undefined, which counts
as zero. -/
def sampleLine (t : Totals) (line : List Byte) : Option Totals := do
  let captures := (search samplePattern line).getD []
  let avgdur := decimalValue (captures.getD 2 [])
  let num := decimalValue (captures.getD 1 [])
  let numfail := decimalValue (captures.getD 3 [])
  let numtimely := decimalValue (captures.getD 4 [])
  let success ← if num = 0 then divide (100 * (num - numfail)) num else some 0
  let timely ← if num = 0 then divide (100 * numtimely) num else some 0
  return { avgDuration := t.avgDuration + avgdur
           avgSuccessRate := t.avgSuccessRate + success
           avgTimelyTxnRate := t.avgTimelyTxnRate + timely
           txnCnt := t.txnCnt + num
           samplesize := t.samplesize + 1
           rows := t.rows ++ [captures] }

/-- `sample2csv.pl`: the rows and the averages that it prints. -/
def sample2csv (lines : List (List Byte)) : Option Totals := do
  let t ← lines.foldlM sampleLine .zero
  let avgDuration ← divide t.avgDuration t.samplesize
  let avgSuccessRate ← divide t.avgSuccessRate t.samplesize
  let avgTimelyTxnRate ← divide t.avgTimelyTxnRate t.samplesize
  let txnCnt ← divide t.txnCnt t.samplesize
  return { t with avgDuration, avgSuccessRate, avgTimelyTxnRate, txnCnt }

/-! ## What is asked of the summary -/

/-- A sample without transactions contributes nothing. -/
def Sample.successRate (s : Sample) : ℚ :=
  if s.count = 0 then 0 else 100 * (s.count - s.totalFailedTxns) / s.count

def Sample.timelyRate (s : Sample) : ℚ :=
  if s.count = 0 then 0 else 100 * s.totalTimelyTxns / s.count

def mean (samples : List Sample) (rate : Sample → ℚ) : ℚ := (samples.map rate).sum / samples.length

/-- Every line is matched, nothing is divided by zero, and the averages are the means over all
samples. -/
structure Summarised (samples : List Sample) (place : List Byte) : Prop where
  matched : ∀ s ∈ samples, search samplePattern (s.line place) = some (s.slots.map Prod.snd)
  averages : ∃ r, sample2csv (samples.map fun s => s.line place) = some r ∧
    r.avgSuccessRate = mean samples Sample.successRate ∧
      r.avgTimelyTxnRate = mean samples Sample.timelyRate

/-! ## Each line is matched -/

theorem reads_integer {value : List Byte} (hdigits : ∀ b ∈ value, isDigit b = true)
    (hpos : 0 < value.length) : Reads BRACKET integerGroup value := by
  intro ts s
  have hstops : Stops isDigit (.closing :: .lit BRACKET :: ts) :=
    stops_closing (stops_lit (by decide))
  have hread : run (.many 1 isDigit :: .closing :: .lit BRACKET :: ts) []
    (value ++ BRACKET :: s) = _ :=
    run_many hdigits hpos (by decide) hstops [] s
  rw [integerGroup, List.singleton_append, hread, List.nil_append]
  rfl

theorem reads_decimal {whole fraction : List Byte} (hwhole : ∀ b ∈ whole, isDigit b = true)
    (hpos : 0 < whole.length) (hfraction : ∀ b ∈ fraction, isDigit b = true)
    (hpos' : 0 < fraction.length) : Reads BRACKET decimalGroup (whole ++ POINT :: fraction) := by
  intro ts s
  have hpoint : Stops isDigit (.lit POINT :: .many 1 isDigit :: .closing :: .lit BRACKET :: ts) :=
    stops_lit (by decide)
  have hstops : Stops isDigit (.closing :: .lit BRACKET :: ts) :=
    stops_closing (stops_lit (by decide))
  have hread : run
    (.many 1 isDigit :: .lit POINT :: .many 1 isDigit :: .closing :: .lit BRACKET :: ts) []
      (whole ++ POINT :: (fraction ++ BRACKET :: s)) = _ :=
        run_many hwhole hpos (by decide) hpoint [] _
  have hread' : run (.many 1 isDigit :: .closing :: .lit BRACKET :: ts) (whole ++ [POINT])
    (fraction ++ BRACKET :: s) = _ :=
    run_many hfraction hpos' (by decide) hstops _ s
  simp only [decimalGroup, List.cons_append, List.nil_append, List.append_assoc]
  rw [hread, run, if_pos rfl, List.nil_append, hread', List.append_assoc, List.singleton_append]
  rfl

theorem reads_formatNat (n : ℕ) : Reads BRACKET integerGroup (formatNat n) :=
  reads_integer (isDigit_formatNat n) (formatNat_length_pos n)

theorem reads_formatFixed {places : ℕ} (hplaces : 0 < places) (units : ℕ) :
    Reads BRACKET decimalGroup (formatFixed places units) :=
  reads_decimal (isDigit_formatNat _) (formatNat_length_pos _) (isDigit_padNat _ _)
    (by rwa [padNat_length])

theorem samplePattern_matches (s : Sample) (place : List Byte) :
    search samplePattern (s.line place) = some (s.slots.map Prod.snd) := by
  have hline : s.line place =
      (ascii "INFO: " ++ ascii "SAMPLING ") ++
        (render BRACKET s.slots ++ (ascii ": at " ++ place)) := by
    have hlength := s.fits
    rw [Sample.line, chronosInfo, List.take_of_length_le (by omega), SampleValues.text]
    simp only [List.append_assoc]
  have hrun : run samplePattern [] (render BRACKET s.slots ++ (ascii ": at " ++ place)) =
    some (s.slots.map Prod.snd) := by
    refine run_compile ?_ [] _
    refine .cons ⟨rfl, reads_formatFixed (by decide) _⟩ <| .cons ⟨rfl, reads_formatNat _⟩ <|
      .cons ⟨rfl, reads_formatFixed (by decide) _⟩ <| .cons ⟨rfl, reads_formatNat _⟩ <|
      .cons ⟨rfl, reads_formatNat _⟩ <| .cons ⟨rfl, reads_formatFixed (by decide) _⟩ <|
      .cons ⟨rfl, reads_formatFixed (by decide) _⟩ <| .cons ⟨rfl, reads_formatNat _⟩ <|
      .cons ⟨rfl, reads_formatNat _⟩ .nil
  rw [hline]
  exact search_append (c := 91) (by decide) hrun

/-! ## What is summed up -/

/-- The tests are the wrong way round: a sample with transactions adds no rate, one without ends the
script. -/
theorem sampleLine_eq (t : Totals) (s : Sample) (place : List Byte) : sampleLine t (s.line place) =
    if s.count = 0 then none
    else some ⟨t.avgDuration + s.averageServiceDelayMs / 10 ^ 3, t.avgSuccessRate,
      t.avgTimelyTxnRate,
      t.txnCnt + s.count, t.samplesize + 1, t.rows ++ [s.slots.map Prod.snd]⟩ := by
  have hnum : decimalValue ((s.slots.map Prod.snd).getD 1 []) = s.count := decimalValue_formatNat _
  have havg : decimalValue ((s.slots.map Prod.snd).getD 2 []) = s.averageServiceDelayMs / 10 ^ 3 :=
    decimalValue_formatFixed _ _
  simp only [sampleLine, samplePattern_matches, Option.getD_some, hnum, havg, Nat.cast_eq_zero]
  by_cases hcount : s.count = 0
  · simp [hcount, divide]
  · simp [hcount]

theorem foldlM_sampleLine (samples : List Sample) (place : List Byte) (t : Totals)
    (hcount : ∀ s ∈ samples, s.count ≠ 0) : ∃ avgDuration txnCnt,
      (samples.map fun s => s.line place).foldlM sampleLine t =
        some ⟨avgDuration, t.avgSuccessRate, t.avgTimelyTxnRate,
        txnCnt, t.samplesize + samples.length, t.rows ++ samples.map
          fun s => s.slots.map Prod.snd⟩ := by
  induction samples generalizing t with
  | nil => exact ⟨t.avgDuration, t.txnCnt, by simp⟩
  | cons s samples ih =>
    have hs : s.count ≠ 0 := hcount s List.mem_cons_self
    obtain ⟨avgDuration, txnCnt, hrest⟩ := ih
      ⟨t.avgDuration + s.averageServiceDelayMs / 10 ^ 3, t.avgSuccessRate, t.avgTimelyTxnRate,
        t.txnCnt + s.count, t.samplesize + 1, t.rows ++ [s.slots.map Prod.snd]⟩
          fun s' hs' => hcount s' (List.mem_cons_of_mem s hs')
    refine ⟨avgDuration, txnCnt, ?_⟩
    rw [List.map_cons, List.foldlM_cons, sampleLine_eq, if_neg hs]
    refine hrest.trans ?_
    simp only [List.map_cons, List.append_assoc, List.singleton_append, List.length_cons]
    rw [Nat.add_right_comm, Nat.add_assoc]

theorem foldlM_sampleLine_none {samples : List Sample} {place : List Byte} (t : Totals)
    (hcount : ∃ s ∈ samples, s.count = 0) :
    (samples.map fun s => s.line place).foldlM sampleLine t = none := by
  induction samples generalizing t with
  | nil =>
    obtain ⟨s, hs, -⟩ := hcount
    cases hs
  | cons s samples ih =>
    rw [List.map_cons, List.foldlM_cons, sampleLine_eq]
    by_cases hs : s.count = 0
    · rw [if_pos hs]
      rfl
    · obtain ⟨s', hmem, hs'⟩ := hcount
      have hrest : s' ∈ samples := (List.mem_cons.mp hmem).resolve_left fun heq => hs (heq ▸ hs')
      rw [if_neg hs]
      exact ih _ ⟨s', hrest, hs'⟩

/-- Whatever the samples are, the rates that are printed are zero. -/
theorem sample2csv_eq (samples : List Sample) (place : List Byte) (hne : samples ≠ [])
    (hcount : ∀ s ∈ samples, s.count ≠ 0) :
    ∃ r, sample2csv (samples.map fun s => s.line place) = some r ∧ r.avgSuccessRate = 0 ∧
      r.avgTimelyTxnRate = 0 := by
  obtain ⟨avgDuration, txnCnt, hfold⟩ := foldlM_sampleLine samples place .zero hcount
  have hsize : ((0 + samples.length : ℕ) : ℚ) ≠ 0 := by
    rw [Nat.zero_add, Nat.cast_ne_zero]
    exact (List.length_pos_of_ne_nil hne).ne'
  have hdivide : ∀ x : ℚ, divide x ((0 + samples.length : ℕ) : ℚ) =
    some (x / ((0 + samples.length : ℕ) : ℚ)) :=
    fun x => if_neg hsize
  rw [sample2csv, hfold]
  simp only [Totals.zero, Option.bind_eq_bind, Option.bind_some, hdivide]
  exact ⟨_, rfl, zero_div _, zero_div _⟩

/-! ## When the means are right -/

theorem mean_eq_zero_iff {samples : List Sample} (hne : samples ≠ []) (rate : Sample → ℚ) :
    mean samples rate = 0 ↔ (samples.map rate).sum = 0 := by
  have hsize : (samples.length : ℚ) ≠ 0 := Nat.cast_ne_zero.mpr (List.length_pos_of_ne_nil hne).ne'
  rw [mean, div_eq_zero_iff, or_iff_left hsize]

theorem sum_successRate {samples : List Sample} (hcount : ∀ s ∈ samples, s.count ≠ 0) :
    (samples.map Sample.successRate).sum =
      100 * (samples.map fun s => ((s.count : ℚ) - s.totalFailedTxns) / s.count).sum := by
  rw [← List.sum_map_mul_left]
  refine congrArg List.sum (List.map_congr_left fun s hs => ?_)
  rw [Sample.successRate, if_neg (hcount s hs), mul_div_assoc]

theorem sum_timelyRate {samples : List Sample} (hcount : ∀ s ∈ samples, s.count ≠ 0) :
    (samples.map Sample.timelyRate).sum = 0 ↔ ∀ s ∈ samples, s.totalTimelyTxns = 0 := by
  have hnonneg : ∀ x ∈ samples.map Sample.timelyRate, 0 ≤ x := by
    intro x hx
    obtain ⟨s, -, rfl⟩ := List.mem_map.mp hx
    rw [Sample.timelyRate]
    split
    · exact le_rfl
    · positivity
  have hrate : ∀ s ∈ samples, s.timelyRate = 0 ↔ s.totalTimelyTxns = 0 := by
    intro s hs
    have hs' : (s.count : ℚ) ≠ 0 := Nat.cast_ne_zero.mpr (hcount s hs)
    rw [Sample.timelyRate, if_neg (hcount s hs), div_eq_zero_iff, or_iff_left hs']
    norm_num
  constructor
  · intro hsum s hs
    exact (hrate s hs).mp
      (List.all_zero_of_le_zero_le_of_sum_eq_zero hnonneg hsum (List.mem_map_of_mem hs))
  · intro hzero
    refine List.sum_eq_zero fun x hx => ?_
    obtain ⟨s, hs, rfl⟩ := List.mem_map.mp hx
    exact (hrate s hs).mpr (hzero s hs)

/-- One sample of ten transactions, none failed and all timely. -/
def busySample : Sample := ⟨⟨0, 10, 0, 0, 10, 0, 0, 0, 0⟩, by decide +kernel⟩

/-- Its rates are 100, but the printed averages are 0. -/
theorem busySample_not_summarised : ¬ Summarised [busySample] [10] := by
  rintro ⟨-, r, hr, hsuccess, -⟩
  obtain ⟨r', hr', hzero, -⟩ := sample2csv_eq [busySample] [10] (List.cons_ne_nil _ _) (by decide)
  obtain rfl : r' = r := Option.some.inj (hr'.symm.trans hr)
  rw [hzero] at hsuccess
  exact absurd hsuccess (by norm_num [mean, Sample.successRate, busySample])

/-- A non-empty log is summarised if and only if every sample counts a transaction, the success
rates add up to nothing, and nothing was timely. -/
theorem summarised_iff (samples : List Sample) (place : List Byte) (hne : samples ≠ []) :
    Summarised samples place ↔ (∀ s ∈ samples, s.count ≠ 0) ∧
      (samples.map fun s => ((s.count : ℚ) - s.totalFailedTxns) / s.count).sum = 0 ∧
        ∀ s ∈ samples, s.totalTimelyTxns = 0 := by
  by_cases hcount : ∀ s ∈ samples, s.count ≠ 0
  · obtain ⟨r, hr, hsuccess, htimely⟩ := sample2csv_eq samples place hne hcount
    have hrates : Summarised samples place ↔
        mean samples Sample.successRate = 0 ∧ mean samples Sample.timelyRate = 0 := by
      constructor
      · rintro ⟨-, r', hr', hsuccess', htimely'⟩
        obtain rfl : r' = r := Option.some.inj (hr'.symm.trans hr)
        exact ⟨hsuccess'.symm.trans hsuccess, htimely'.symm.trans htimely⟩
      · rintro ⟨hsuccess', htimely'⟩
        exact ⟨fun s _ => samplePattern_matches s place, r, hr, hsuccess.trans hsuccess'.symm,
          htimely.trans htimely'.symm⟩
    rw [hrates, mean_eq_zero_iff hne, mean_eq_zero_iff hne, sum_successRate hcount,
      sum_timelyRate hcount]
    rw [mul_eq_zero, or_iff_right (by norm_num)]
    exact ⟨fun h => ⟨hcount, h⟩, And.right⟩
  · refine iff_of_false ?_ fun h => hcount h.1
    rintro ⟨-, r, hr, -⟩
    rw [not_forall₂] at hcount
    obtain ⟨s, hs, hzero⟩ := hcount
    rw [sample2csv, foldlM_sampleLine_none _ ⟨s, hs, not_not.mp hzero⟩] at hr
    cases hr

/-- Three samples, none with a timely transaction: the second one counts two transactions and
one failed one, the third one counts two and three failed ones. -/
theorem summarised_iff_failed : Summarised
    [⟨⟨0, 1, 0, 1, 0, 0, 0, 0, 0⟩, by decide +kernel⟩,
      ⟨⟨1500, 2, 700, 1, 0, 0, 0, 12, 3⟩, by decide +kernel⟩,
      ⟨⟨1500, 2, 900, 3, 0, 0, 0, 7, 0⟩, by decide +kernel⟩] [10] :=
  (summarised_iff _ [10] (List.cons_ne_nil _ _)).mpr ⟨by decide, by norm_num, by decide⟩

end Chronos.Reports
