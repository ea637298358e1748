import Chronos.Benchmark.Decimals
import Chronos.Foundation.Pattern
import Chronos.Server.Trace

/-! # Traces as CSV

A processing thread prints a line for every transaction, and `trace2csv.py` reads the lines again.
Its expression is compiled with `re.VERBOSE`, which takes the blanks out of it.
-/
namespace Chronos.Reports
open Foundation Benchmark Token Trace

/-- A call of `ThreadTraceTxnElapsedTimePrint`. -/
structure TraceCall where
  enqueue : ChronosTime
  start : ChronosTime
  end_ : ChronosTime
  txnType : ℤ
  threadNum : ℤ

def TraceCall.traced (c : TraceCall) : TxnTrace :=
  threadTraceTxnElapsedTimePrint c.enqueue c.start c.end_ c.txnType c.threadNum

/-- `CHRONOS_THREAD_TRACE_FMT` with its values, up to the newline. -/
def traceSlots (t : TxnTrace) : List (List Byte × List Byte) :=
  [(ascii "[THR: ", formatInt t.threadNum),
    (ascii " [TYPE: ", ascii t.txnName),
    (ascii " [ENQUEUE: ", formatInt t.enqueueMs),
    (ascii " [START: ", formatInt t.startMs),
    (ascii " [END: ", formatInt t.endMs),
    (ascii " [EXECUTION: ", formatInt t.txnExecutionMs),
    (ascii " [DURATION: ", formatInt t.txnDurationMs)]

/-- The byte `,`. -/
abbrev COMMA : Byte := 44

def traceLine (t : TxnTrace) : List Byte := render BRACKET (traceSlots t) ++ [NEWLINE]

/-- The trace file of a thread. -/
def traceFile (txns : List TxnTrace) : List Byte := txns.flatMap traceLine

def anyGroup : List (Token Byte) := [.many 0 fun b => decide (b ≠ NEWLINE)]

/-- The expression of `extract_data2` as it is written. -/
def tracePattern : List (Token Byte) := compile BRACKET
  [(ascii "[THR: ", anyGroup),
    (ascii " [TYPE: ", anyGroup),
    (ascii " [ENQUEUE: ", anyGroup),
    (ascii " [START: ", anyGroup),
    (ascii " [END: ", anyGroup),
    (ascii " [EXECUTION: ", anyGroup),
    (ascii " [DURATION: ", anyGroup)] ++ [.eol NEWLINE]

def isBlank : Token Byte → Bool
  | .lit c => decide (c = 32 ∨ 9 ≤ c ∧ c ≤ 13)
  | _ => false

/-- `re.VERBOSE`: blanks of the pattern are ignored. -/
def verbose (ts : List (Token Byte)) : List (Token Byte) := ts.filter fun t => !isBlank t

/-- `extract_data2`; where nothing matches it returns `None`. -/
def extractData2 (s : List Byte) : Option (List (List Byte)) := run (verbose tracePattern) [] s

/-- `readlines`: a line keeps its newline. -/
def readlines : List Byte → List (List Byte)
  | [] => []
  | b :: s =>
    if b = NEWLINE then [b] :: readlines s
    else match readlines s with
      | [] => [[b]]
      | line :: lines => (b :: line) :: lines

/-- `trace2csv.py`: a `None` is not unpacked, which ends the script; the rows are written one after
another. -/
def trace2csv (infile : List Byte) : Option (List Byte) :=
  ((readlines infile).mapM extractData2).map fun rows =>
    rows.flatMap fun fields => [COMMA].intercalate fields

/-- The rows of a CSV file and their fields. -/
def csvRows (outfile : List Byte) : List (List (List Byte)) :=
  (readlines outfile).map fun row => (row.filter (· ≠ NEWLINE)).splitOn COMMA

/-- There is a row for every transaction, with what was printed of it. -/
def Converts (txns : List TxnTrace) : Prop :=
  ∃ outfile, trace2csv (traceFile txns) = some outfile ∧
    csvRows outfile = txns.map fun t => (traceSlots t).map Prod.snd

/-! ## What the pattern asks for -/

/-- Without its blanks the pattern asks for `][`. -/
theorem infix_of_extract {s : List Byte} {fields : List (List Byte)}
    (h : extractData2 s = some fields) : [BRACKET, 91] <:+: s := by
  have hpattern : ∃ pre post, verbose tracePattern = pre ++ (lits [BRACKET, 91] ++ post) :=
    ⟨lits (ascii "[THR:") ++ (.opening :: (anyGroup ++ [.closing])), _, rfl⟩
  obtain ⟨pre, post, hpattern⟩ := hpattern
  rw [extractData2, hpattern] at h
  exact infix_of_run (by rw [h]; exact Option.some_ne_none _)

theorem readlines_ne_nil {s : List Byte} (h : s ≠ []) : readlines s ≠ [] := by
  cases s with
  | nil => exact absurd rfl h
  | cons b s =>
    rw [readlines]
    split
    · exact List.cons_ne_nil _ _
    · cases readlines s <;> exact List.cons_ne_nil _ _

theorem readlines_flatten (s : List Byte) : (readlines s).flatten = s := by
  induction s with
  | nil => rfl
  | cons b s ih =>
    rw [readlines]
    split
    · rw [List.flatten_cons, ih]
      rfl
    · cases hlines : readlines s with
      | nil =>
        rw [hlines] at ih
        rw [← ih]
        rfl
      | cons line lines =>
        rw [hlines] at ih
        rw [← ih]
        rfl

theorem infix_of_mem_readlines {s line : List Byte} (h : line ∈ readlines s) : line <:+: s := by
  obtain ⟨before, after, hsplit⟩ := List.append_of_mem h
  refine ⟨before.flatten, after.flatten, ?_⟩
  rw [← readlines_flatten s, hsplit]
  simp

/-! ## What is printed -/

def Apart (a b : Byte) : Prop := ¬ (a = BRACKET ∧ b = 91)

theorem apart_append {u rest : List Byte} {c : Byte} (hu : BRACKET ∉ u) (hc : c ≠ 91)
    (hc' : c ≠ BRACKET) (h : rest.IsChain Apart) : (u ++ BRACKET :: c :: rest).IsChain Apart := by
  induction u with
  | nil =>
    refine List.IsChain.cons_cons (fun h => hc h.2) ?_
    cases rest with
    | nil => exact List.isChain_singleton c
    | cons d rest => exact List.IsChain.cons_cons (fun h => hc' h.1) h
  | cons b u ih =>
    have hrest := ih fun hmem => hu (List.mem_cons_of_mem b hmem)
    have hb : b ≠ BRACKET := fun heq => hu (heq ▸ List.mem_cons_self)
    cases u with
    | nil => exact List.IsChain.cons_cons (fun h => hb h.1) hrest
    | cons d u => exact List.IsChain.cons_cons (fun h => hb h.1) hrest

theorem bracket_notMem_formatInt (n : ℤ) : BRACKET ∉ formatInt n := by
  have hdigits : ∀ m, BRACKET ∉ formatNat m :=
    fun m hmem => absurd (isDigit_formatNat m _ hmem) (by decide)
  intro hmem
  rw [formatInt] at hmem
  split at hmem
  · rcases List.mem_cons.mp hmem with heq | hmem
    · exact absurd heq (by decide)
    · exact hdigits _ hmem
  · exact hdigits _ hmem

theorem bracket_notMem_traced (c : TraceCall) : BRACKET ∉ ascii c.traced.txnName := by
  have hnames : ∀ name ∈ "INVALID" :: chronosSystemTransactionStr ++ chronosUserTransactionStr,
    BRACKET ∉ ascii name := by
    decide +kernel
  apply hnames
  change (if c.txnType = -1 then _ else _) ∈ _
  split
  · decide
  · rw [chronosTxnName]
    split
    · rename_i hrange
      obtain ⟨hlo, hhi⟩ := hrange
      generalize c.txnType = txnType at hlo hhi
      interval_cases txnType <;> decide
    · decide

theorem apart_traceLine (c : TraceCall) {rest : List Byte} (h : rest.IsChain Apart) :
    (traceLine c.traced ++ rest).IsChain Apart := by
  have hname := bracket_notMem_traced c
  generalize c.traced = t at hname
  have hsplit : traceLine t ++ rest =
      (ascii "[THR: " ++ formatInt t.threadNum) ++ BRACKET :: 32 ::
      ((ascii "[TYPE: " ++ ascii t.txnName) ++ BRACKET :: 32 ::
      ((ascii "[ENQUEUE: " ++ formatInt t.enqueueMs) ++ BRACKET :: 32 ::
      ((ascii "[START: " ++ formatInt t.startMs) ++ BRACKET :: 32 ::
      ((ascii "[END: " ++ formatInt t.endMs) ++ BRACKET :: 32 ::
      ((ascii "[EXECUTION: " ++ formatInt t.txnExecutionMs) ++ BRACKET :: 32 ::
      ((ascii "[DURATION: " ++ formatInt t.txnDurationMs) ++ BRACKET :: NEWLINE :: rest)))))) := by
    have htype : ascii " [TYPE: " = 32 :: ascii "[TYPE: " := rfl
    have henqueue : ascii " [ENQUEUE: " = 32 :: ascii "[ENQUEUE: " := rfl
    have hstart : ascii " [START: " = 32 :: ascii "[START: " := rfl
    have hend : ascii " [END: " = 32 :: ascii "[END: " := rfl
    have hexecution : ascii " [EXECUTION: " = 32 :: ascii "[EXECUTION: " := rfl
    have hduration : ascii " [DURATION: " = 32 :: ascii "[DURATION: " := rfl
    simp only [traceLine, traceSlots, render, List.flatMap_cons, List.flatMap_nil,
      List.append_assoc, List.cons_append,
      List.nil_append, htype, henqueue, hstart, hend, hexecution, hduration]
  have hvalue : ∀ literal : List Byte, BRACKET ∉ literal →
    ∀ n, BRACKET ∉ literal ++ formatInt n := by
    intro literal hliteral n hmem
    exact (List.mem_append.mp hmem).elim hliteral (bracket_notMem_formatInt n)
  rw [hsplit]
  refine apart_append (hvalue _ (by decide) _) (by decide) (by decide) ?_
  refine apart_append (fun hmem => (List.mem_append.mp hmem).elim (by decide) hname) (by decide)
    (by decide) ?_
  refine apart_append (hvalue _ (by decide) _) (by decide) (by decide) ?_
  refine apart_append (hvalue _ (by decide) _) (by decide) (by decide) ?_
  refine apart_append (hvalue _ (by decide) _) (by decide) (by decide) ?_
  refine apart_append (hvalue _ (by decide) _) (by decide) (by decide) ?_
  exact apart_append (hvalue _ (by decide) _) (by decide) (by decide) h

theorem apart_traceFile (calls : List TraceCall) :
    (traceFile (calls.map TraceCall.traced)).IsChain Apart := by
  induction calls with
  | nil => exact .nil
  | cons c calls ih => exact apart_traceLine c ih

/-! ## What becomes of a trace -/

/-- No line of a trace matches. -/
theorem extract_trace {calls : List TraceCall} {line : List Byte}
    (h : line ∈ readlines (traceFile (calls.map TraceCall.traced))) : extractData2 line = none := by
  cases hfields : extractData2 line with
  | none => rfl
  | some fields =>
    obtain ⟨before, after, hfile⟩ := (infix_of_extract hfields).trans (infix_of_mem_readlines h)
    have hchain := apart_traceFile calls
    rw [← hfile] at hchain
    have hpair := hchain.left_of_append.right_of_append
    rw [List.isChain_cons_cons] at hpair
    exact absurd ⟨rfl, rfl⟩ hpair.1

theorem trace2csv_none {calls : List TraceCall} (hne : calls ≠ []) :
    trace2csv (traceFile (calls.map TraceCall.traced)) = none := by
  have hfile : traceFile (calls.map TraceCall.traced) ≠ [] := by
    cases calls with
    | nil => exact absurd rfl hne
    | cons c calls => exact List.append_ne_nil_of_left_ne_nil (by simp [traceLine]) _
  cases hlines : readlines (traceFile (calls.map TraceCall.traced)) with
  | nil => exact absurd hlines (readlines_ne_nil hfile)
  | cons line lines =>
    have hmem : line ∈ readlines (traceFile (calls.map TraceCall.traced)) := by
      rw [hlines]
      exact List.mem_cons_self
    have hnone := extract_trace hmem
    rw [trace2csv, hlines, List.mapM_cons, hnone]
    rfl

/-- One user transaction of thread 3. -/
theorem one_trace_fails : ¬ Converts ([⟨⟨1, 0⟩, ⟨2, 0⟩, ⟨3, 0⟩, 0, 3⟩].map TraceCall.traced) := by
  rintro ⟨outfile, hout, -⟩
  rw [trace2csv_none (List.cons_ne_nil _ _)] at hout
  cases hout

/-- Only the empty trace is converted. -/
theorem converts_iff (calls : List TraceCall) :
    Converts (calls.map TraceCall.traced) ↔ calls = [] := by
  constructor
  · rintro ⟨outfile, hout, -⟩
    by_contra hne
    rw [trace2csv_none hne] at hout
    cases hout
  · rintro rfl
    exact ⟨[], rfl, rfl⟩

end Chronos.Reports
