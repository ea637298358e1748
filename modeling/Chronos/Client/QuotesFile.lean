import Chronos.Benchmark.Decimals
import Chronos.Client.StocksFile

/-! # The quotes file

`query_quotes.py` prints a line for every quote, and `load_quotes_database` scans it into a
`QUOTE`. A `float` is taken as the decimal that is read.
-/
namespace Chronos.Client
open Benchmark

abbrev PERCENT : Byte := 37

/-- A decimal number as a text: a sign or none, digits, and digits after a point or no point. -/
structure DecimalText where
  sign : List Byte
  whole : CStr
  fraction : CStr
  sign_mem : sign ∈ [[], [43], [45]]
  whole_digits : ∀ b ∈ whole, isDigit b = true
  whole_ne_nil : whole ≠ []
  fraction_digits : ∀ b ∈ fraction, isDigit b = true

def DecimalText.text (d : DecimalText) : List Byte :=
  d.sign ++ (d.whole ++ if d.fraction = [] then [] else POINT :: d.fraction)

def DecimalText.value (d : DecimalText) : ℚ :=
  (if d.sign = [45] then -1 else 1) * digitsValue (d.whole ++ d.fraction) / 10 ^ d.fraction.length

/-- A text that fits a member of size `ID_SZ` and a field of a line. -/
structure FieldText where
  text : CStr
  ne_nil : text ≠ []
  noHash : HASH ∉ text
  short : text.length < ID_SZ
  inLine : ∀ b ∈ text, b ≠ 0 ∧ b ≠ NEWLINE

structure QuoteValues where
  symbol : FieldText
  lastPrice : DecimalText
  tradeTime : FieldText
  lowPriceDay : DecimalText
  highPriceDay : DecimalText
  percPriceChange : DecimalText
  biddingPrice : DecimalText
  askingPrice : DecimalText
  tradeVolume : ℤ
  marketCap : FieldText

/-- What `queryChunk` prints; the percentage comes with its `%`. -/
def QuoteValues.line (q : QuoteValues) : List Byte :=
  q.symbol.text ++
    HASH :: (q.lastPrice.text ++ HASH :: (q.tradeTime.text ++ HASH :: (q.lowPriceDay.text ++ HASH ::
    (q.highPriceDay.text ++ HASH ::
      (q.percPriceChange.text ++ PERCENT :: HASH :: (q.biddingPrice.text ++ HASH ::
    (q.askingPrice.text ++ HASH ::
      (formatInt q.tradeVolume ++ HASH :: (q.marketCap.text ++ [NEWLINE])))))))))

/-- `QUOTE`. -/
structure QuoteRecord where
  symbol : CStr
  currentPrice : ℚ
  tradeTime : CStr
  lowPriceDay : ℚ
  highPriceDay : ℚ
  percPriceChange : ℚ
  biddingPrice : ℚ
  askingPrice : ℚ
  tradeVolume : ℤ
  marketCap : CStr

def QuoteValues.record (q : QuoteValues) : QuoteRecord where
  symbol := q.symbol.text
  currentPrice := 500
  tradeTime := q.tradeTime.text
  lowPriceDay := q.lowPriceDay.value
  highPriceDay := q.highPriceDay.value
  percPriceChange := q.percPriceChange.value
  biddingPrice := q.biddingPrice.value
  askingPrice := q.askingPrice.value
  tradeVolume := q.tradeVolume
  marketCap := q.marketCap.text

/-! ## `sscanf` -/

/-- `%n[^c]`, a literal byte, `%f` and `%ld`. -/
inductive Conversion where
  | set (width : ℕ) (stop : Byte)
  | literal (c : Byte)
  | float
  | long

/-- What a conversion stores. -/
inductive Field where
  | text (s : CStr)
  | number (x : ℚ)
  | integer (n : ℤ)

def isSpace (b : Byte) : Bool := decide (b = 32 ∨ 9 ≤ b ∧ b ≤ 13)

/-- A sign, and what comes after it. -/
def scanSign : List Byte → ℤ × List Byte
  | [] => (1, [])
  | b :: s => if b = 45 then (-1, s) else if b = 43 then (1, s) else (1, b :: s)

/-- `%f` on a decimal without an exponent. -/
def scanFloat (s : List Byte) : Option (ℚ × List Byte) :=
  let signed := scanSign (s.dropWhile isSpace)
  let whole := signed.2.takeWhile isDigit
  match signed.2.drop whole.length with
  | [] => if whole = [] then none else some (signed.1 * digitsValue whole, [])
  | b :: rest =>
    if b = POINT then
      let fraction := rest.takeWhile isDigit
      if whole ++ fraction = [] then none
      else some (signed.1 * digitsValue (whole ++ fraction) / 10 ^ fraction.length,
        rest.drop fraction.length)
    else if whole = [] then none else some (signed.1 * digitsValue whole, b :: rest)

def scanLong (s : List Byte) : Option (ℤ × List Byte) :=
  let signed := scanSign (s.dropWhile isSpace)
  let digits := signed.2.takeWhile isDigit
  if digits = [] then none else some (signed.1 * digitsValue digits, signed.2.drop digits.length)

/-- The fields that are stored before the first conversion or literal that fails. -/
def sscanf : List Conversion → List Byte → List Field
  | [], _ => []
  | .set width stop :: cs, s =>
    let text := (s.takeWhile (· ≠ stop)).take width
    if text = [] then [] else .text text :: sscanf cs (s.drop text.length)
  | .literal c :: cs, s => match s with
    | [] => []
    | b :: s => if b = c then sscanf cs s else []
  | .float :: cs, s => match scanFloat s with
    | none => []
    | some (x, rest) => .number x :: sscanf cs rest
  | .long :: cs, s => match scanLong s with
    | none => []
    | some (n, rest) => .integer n :: sscanf cs rest

/-- `"%10[^#]#%f#%10[^#]#%f#%f#%f#%f#%f#%ld#%10[^\n]"`. -/
def quoteFormat : List Conversion :=
  [.set 10 HASH, .literal HASH, .float, .literal HASH, .set 10 HASH, .literal HASH, .float,
    .literal HASH, .float,
    .literal HASH, .float, .literal HASH, .float, .literal HASH, .float, .literal HASH, .long,
      .literal HASH,
    .set 10 NEWLINE]

def Field.string : Option Field → CStr
  | some (.text s) => s
  | _ => []

def Field.float : Option Field → ℚ
  | some (.number x) => x
  | _ => 0

def Field.long : Option Field → ℤ
  | some (.integer n) => n
  | _ => 0

/-- The zeroed `quote`, scanned from the line; the price is then set. -/
def scanQuote (buf : List Byte) : QuoteRecord :=
  let fields := sscanf quoteFormat (cString buf)
  { symbol := Field.string fields[0]?
    currentPrice := 500
    tradeTime := Field.string fields[2]?
    lowPriceDay := Field.float fields[3]?
    highPriceDay := Field.float fields[4]?
    percPriceChange := Field.float fields[5]?
    biddingPrice := Field.float fields[6]?
    askingPrice := Field.float fields[7]?
    tradeVolume := Field.long fields[8]?
    marketCap := Field.string fields[9]? }

def putQuote (quotes : List QuoteRecord) (buf : List Byte) : Option (List QuoteRecord) :=
  if (scanQuote buf).symbol ∈ quotes.map QuoteRecord.symbol then none
    else some (quotes ++ [scanQuote buf])

def loadQuotesDatabase (file : List Byte) : Option (List QuoteRecord) :=
  (fileLines file).foldlM putQuote []

/-- The line of the quote is loaded as the record with its values. -/
def Decoded (q : QuoteValues) : Prop := loadQuotesDatabase q.line = some [q.record]

/-! ## One conversion -/

theorem scanSign_append {sign whole : List Byte} (hsign : sign ∈ [[], [43], [45]])
    (hwhole : ∀ b ∈ whole, isDigit b = true) (hne : whole ≠ []) (rest : List Byte) :
    scanSign (sign ++ (whole ++ rest)) = (if sign = [45] then -1 else 1, whole ++ rest) := by
  obtain ⟨b, whole, rfl⟩ := List.exists_cons_of_ne_nil hne
  have hb := hwhole b List.mem_cons_self
  have hminus : b ≠ 45 := fun h => absurd (h ▸ hb) (by decide)
  have hplus : b ≠ 43 := fun h => absurd (h ▸ hb) (by decide)
  simp only [List.mem_cons, List.not_mem_nil, or_false] at hsign
  rcases hsign with rfl | rfl | rfl
  · simp [scanSign, hminus, hplus]
  · rfl
  · rfl

theorem isSpace_of_isDigit : ∀ b : Byte, isDigit b = true → isSpace b = false := by
  decide +kernel

theorem dropWhile_sign {sign whole : List Byte} (hsign : sign ∈ [[], [43], [45]])
    (hwhole : ∀ b ∈ whole, isDigit b = true) (hne : whole ≠ []) (rest : List Byte) :
    (sign ++ (whole ++ rest)).dropWhile isSpace = sign ++ (whole ++ rest) := by
  obtain ⟨b, whole, rfl⟩ := List.exists_cons_of_ne_nil hne
  have hb : isSpace b = false := isSpace_of_isDigit b (hwhole b List.mem_cons_self)
  simp only [List.mem_cons, List.not_mem_nil, or_false] at hsign
  rcases hsign with rfl | rfl | rfl
  · exact List.dropWhile_cons_of_neg (by rw [hb]; decide)
  · rfl
  · rfl

theorem takeWhile_digits {digits : List Byte} (h : ∀ b ∈ digits, isDigit b = true) {x : Byte}
    (hx : isDigit x = false) (rest : List Byte) :
    (digits ++ x :: rest).takeWhile isDigit = digits := by
  rw [List.takeWhile_append_of_pos h, List.takeWhile_cons_of_neg (by rw [hx]; decide),
    List.append_nil]

theorem scanFloat_text (d : DecimalText) {x : Byte} (hx : isDigit x = false) (hpoint : x ≠ POINT)
    (rest : List Byte) : scanFloat (d.text ++ x :: rest) = some (d.value, x :: rest) := by
  by_cases hfraction : d.fraction = []
  · have htext : d.text ++ x :: rest = d.sign ++ (d.whole ++ x :: rest) := by
      rw [DecimalText.text, if_pos hfraction, List.append_nil, List.append_assoc]
    rw [htext, scanFloat, dropWhile_sign d.sign_mem d.whole_digits d.whole_ne_nil,
      scanSign_append d.sign_mem d.whole_digits d.whole_ne_nil]
    simp only [takeWhile_digits d.whole_digits hx, List.drop_left, if_neg hpoint,
      if_neg d.whole_ne_nil]
    simp [DecimalText.value, hfraction]
  · have htext : d.text ++ x :: rest =
      d.sign ++ (d.whole ++ POINT :: (d.fraction ++ x :: rest)) := by
      rw [DecimalText.text, if_neg hfraction, List.append_assoc, List.append_assoc,
        List.cons_append]
    have hne : d.whole ++ d.fraction ≠ [] := List.append_ne_nil_of_left_ne_nil d.whole_ne_nil _
    rw [htext, scanFloat, dropWhile_sign d.sign_mem d.whole_digits d.whole_ne_nil,
      scanSign_append d.sign_mem d.whole_digits d.whole_ne_nil]
    simp only [takeWhile_digits d.whole_digits (by decide : isDigit POINT = false),
      List.drop_left, if_true, takeWhile_digits d.fraction_digits hx, if_neg hne, DecimalText.value]
    split <;> simp

theorem sscanf_float (d : DecimalText) (cs : List Conversion) (rest : List Byte) :
    sscanf (.float :: .literal HASH :: cs) (d.text ++ HASH :: rest) =
      .number d.value :: sscanf cs rest := by
  rw [sscanf, scanFloat_text d (by decide) (by decide)]
  rfl

theorem sscanf_text (f : FieldText) (cs : List Conversion) (rest : List Byte) :
    sscanf (.set 10 HASH :: .literal HASH :: cs) (f.text ++ HASH :: rest) =
      .text f.text :: sscanf cs rest := by
  have htake : (f.text ++ HASH :: rest).takeWhile (· ≠ HASH) = f.text := by
    have hfield : ∀ b ∈ f.text, decide (b ≠ HASH) = true := fun b hb =>
      decide_eq_true fun heq => f.noHash (heq ▸ hb)
    rw [List.takeWhile_append_of_pos hfield, List.takeWhile_cons_of_neg (by decide),
      List.append_nil]
  have hshort : f.text.take 10 = f.text := List.take_of_length_le f.short.le
  simp only [sscanf, htake, hshort, if_neg f.ne_nil, List.drop_left, if_true]

/-- The format has no `%` after the percentage: scanning stops there. -/
theorem sscanf_percent (d : DecimalText) (cs : List Conversion) (rest : List Byte) :
    sscanf (.float :: .literal HASH :: cs) (d.text ++ PERCENT :: rest) = [.number d.value] := by
  rw [sscanf, scanFloat_text d (by decide) (by decide)]
  rfl

/-! ## One line -/

theorem sscanf_line (q : QuoteValues) : sscanf quoteFormat q.line =
    [.text q.symbol.text, .number q.lastPrice.value, .text q.tradeTime.text,
      .number q.lowPriceDay.value,
      .number q.highPriceDay.value, .number q.percPriceChange.value] := by
  rw [quoteFormat, QuoteValues.line, sscanf_text, sscanf_float, sscanf_text, sscanf_float,
    sscanf_float, sscanf_percent]

theorem nonzero_of_isDigit {b : Byte} (h : isDigit b = true) : b ≠ 0 := by
  rintro rfl
  exact absurd h (by decide)

theorem DecimalText.nonzero (d : DecimalText) : ∀ b ∈ d.text, b ≠ 0 := by
  have hsign : ∀ b ∈ d.sign, b ≠ 0 := by
    have hmem := d.sign_mem
    simp only [List.mem_cons, List.not_mem_nil, or_false] at hmem
    rcases hmem with h | h | h <;> simp [h]
  intro b hb
  rcases List.mem_append.mp hb with hb | hb
  · exact hsign b hb
  rcases List.mem_append.mp hb with hb | hb
  · exact nonzero_of_isDigit (d.whole_digits b hb)
  split at hb
  · cases hb
  · rcases List.mem_cons.mp hb with rfl | hb
    · decide
    · exact nonzero_of_isDigit (d.fraction_digits b hb)

theorem nonzero_formatInt (n : ℤ) : ∀ b ∈ formatInt n, b ≠ 0 := by
  intro b hb
  rw [formatInt] at hb
  split at hb
  · rcases List.mem_cons.mp hb with rfl | hb
    · decide
    · exact nonzero_of_isDigit (isDigit_formatNat _ b hb)
  · exact nonzero_of_isDigit (isDigit_formatNat _ b hb)

theorem nonzero_join {field rest : List Byte} {c : Byte} (hfield : ∀ b ∈ field, b ≠ 0) (hc : c ≠ 0)
    (hrest : ∀ b ∈ rest, b ≠ 0) : ∀ b ∈ field ++ c :: rest, b ≠ 0 := by
  intro b hb
  rcases List.mem_append.mp hb with hb | hb
  · exact hfield b hb
  · rcases List.mem_cons.mp hb with rfl | hb
    · exact hc
    · exact hrest b hb

theorem nonzero_line (q : QuoteValues) : ∀ b ∈ q.line, b ≠ 0 := by
  have htext : ∀ f : FieldText, ∀ b ∈ f.text, b ≠ 0 := fun f b hb => (f.inLine b hb).1
  refine nonzero_join (htext _) (by decide) <| nonzero_join (DecimalText.nonzero _) (by decide) <|
    nonzero_join (htext _) (by decide) <| nonzero_join (DecimalText.nonzero _) (by decide) <|
    nonzero_join (DecimalText.nonzero _) (by decide) <|
      nonzero_join (DecimalText.nonzero _) (by decide) ?_
  refine nonzero_join (fun _ h => absurd h List.not_mem_nil) (by decide) <|
    nonzero_join (DecimalText.nonzero _) (by decide) <|
      nonzero_join (DecimalText.nonzero _) (by decide) <|
    nonzero_join (nonzero_formatInt _) (by decide) <| nonzero_join (htext _) (by decide)
      fun _ h => absurd h List.not_mem_nil

/-- The whole line scanned: the bid, the ask, the volume and the market cap are lost. -/
theorem scanQuote_line (q : QuoteValues) : scanQuote q.line =
    { q.record with biddingPrice := 0, askingPrice := 0, tradeVolume := 0, marketCap := [] } := by
  have hstring : cString q.line = q.line :=
    List.takeWhile_eq_self_iff.mpr fun b hb => decide_eq_true (nonzero_line q b hb)
  rw [scanQuote, hstring, sscanf_line]
  rfl

/-! ## Loading -/

theorem foldlM_putQuote {lines : List (List Byte)} {quotes loaded : List QuoteRecord}
    (h : lines.foldlM putQuote quotes = some loaded) : loaded = quotes ++ lines.map scanQuote := by
  induction lines generalizing quotes with
  | nil => exact (Option.some.inj h).symm.trans (List.append_nil _).symm
  | cons buf lines ih =>
    rw [List.foldlM_cons, putQuote] at h
    split at h
    · cases h
    · rw [ih h, List.map_cons, List.append_assoc, List.singleton_append]

theorem marketCap_of_loaded {q : QuoteValues} {r : QuoteRecord}
    (h : loadQuotesDatabase q.line = some [r]) : r.marketCap = [] := by
  have hloaded := foldlM_putQuote h
  rw [List.nil_append] at hloaded
  cases hlines : fileLines q.line with
  | nil =>
    rw [hlines] at hloaded
    cases hloaded
  | cons buf lines =>
    rw [hlines, List.map_cons, List.cons.injEq] at hloaded
    have hone : lines = [] := List.map_eq_nil_iff.mp hloaded.2.symm
    have hline := fileLines_flatten q.line
    rw [hlines, hone, List.flatten_singleton] at hline
    rw [hloaded.1, hline, scanQuote_line]

def sampleField (s : CStr) (h : s ≠ [] ∧ HASH ∉ s ∧ s.length < ID_SZ ∧ ∀ b ∈ s,
    b ≠ 0 ∧ b ≠ NEWLINE) : FieldText :=
  ⟨s, h.1, h.2.1, h.2.2.1, h.2.2.2⟩

def sampleDecimal (s : CStr) (h : (∀ b ∈ s, isDigit b = true) ∧ s ≠ []) : DecimalText :=
  ⟨[], s, [], by decide, h.1, h.2, fun _ hb => absurd hb List.not_mem_nil⟩

/-- Symbol A, date 1, prices 1, 1 and 1, a change of 1%, bid 2, ask 3, volume 4 and market cap M. -/
def sampleQuote : QuoteValues where
  symbol := sampleField [65] (by decide +kernel)
  lastPrice := sampleDecimal [49] (by decide +kernel)
  tradeTime := sampleField [49] (by decide +kernel)
  lowPriceDay := sampleDecimal [49] (by decide +kernel)
  highPriceDay := sampleDecimal [49] (by decide +kernel)
  percPriceChange := sampleDecimal [49] (by decide +kernel)
  biddingPrice := sampleDecimal [50] (by decide +kernel)
  askingPrice := sampleDecimal [51] (by decide +kernel)
  tradeVolume := 4
  marketCap := sampleField [77] (by decide +kernel)

theorem sampleQuote_not_decoded : ¬ Decoded sampleQuote := by
  intro h
  have hcap : [(77 : Byte)] = [] := marketCap_of_loaded h
  cases hcap

/-- No quote is decoded: its market cap is not empty, but what is loaded is. -/
theorem not_decoded (q : QuoteValues) : ¬ Decoded q := by
  intro h
  exact q.marketCap.ne_nil (marketCap_of_loaded h)

end Chronos.Client
