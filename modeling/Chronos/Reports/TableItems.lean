import Chronos.Client.Requests
import Chronos.Foundation.Layout

/-! # The items of the tables as they are shown

The records of the tables are C structures, stored as they are. The functions that show
them add up the sizes of the members themselves, and twice the sum is not the offset.
-/
namespace Chronos.Reports
open Foundation Packet
open Client (NAME_SZ strncpy strncpy_length)
variable {ν : Type}

abbrev LONG_NAME_SZ : ℕ := 200
abbrev PHONE_SZ : ℕ := 16

/-! ## The records -/

/-- A `char [n]`, with any contents. -/
abbrev Chars (n : ℕ) : Type := { bytes : List Byte // bytes.length = n }

def charMember (name : ν) (n : ℕ) : Member ν where
  name := name
  width := 1
  count := n
  width_pos := by norm_num

def intMember (name : ν) : Member ν where
  name := name
  width := 4
  count := 1
  width_pos := by norm_num

structure Stock where
  stockSymbol : Chars ID_SZ
  fullName : Chars NAME_SZ

inductive StockMember
  | stockSymbol
  | fullName
  deriving DecidableEq

structure Currency where
  currencySymbol : Chars ID_SZ
  country : Chars LONG_NAME_SZ
  currencyName : Chars NAME_SZ
  exchangeRateUsd : ℤ
  exchangeRateUsd_int : -INT_BOUND ≤ exchangeRateUsd ∧ exchangeRateUsd < INT_BOUND

inductive CurrencyMember
  | currencySymbol
  | country
  | currencyName
  | exchangeRateUsd
  deriving DecidableEq

structure Personal where
  accountId : Chars ID_SZ
  lastName : Chars NAME_SZ
  firstName : Chars NAME_SZ
  address : Chars NAME_SZ
  address2 : Chars NAME_SZ
  city : Chars NAME_SZ
  state : Chars NAME_SZ
  country : Chars NAME_SZ
  phone : Chars PHONE_SZ
  email : Chars LONG_NAME_SZ

inductive PersonalMember
  | accountId
  | lastName
  | firstName
  | address
  | address2
  | city
  | state
  | country
  | phone
  | email
  deriving DecidableEq

def Stock.struct (s : Stock) : Struct StockMember Byte where
  members := [charMember .stockSymbol ID_SZ, charMember .fullName NAME_SZ]
  contents
    | .stockSymbol => s.stockSymbol.1
    | .fullName => s.fullName.1
  sized := by simp [charMember, Member.size, s.stockSymbol.2, s.fullName.2]

def Currency.struct (c : Currency) : Struct CurrencyMember Byte where
  members := [charMember .currencySymbol ID_SZ, charMember .country LONG_NAME_SZ,
    charMember .currencyName NAME_SZ, intMember .exchangeRateUsd]
  contents
    | .currencySymbol => c.currencySymbol.1
    | .country => c.country.1
    | .currencyName => c.currencyName.1
    | .exchangeRateUsd => wordBytes c.exchangeRateUsd
  sized := by
    simp [charMember, intMember, Member.size, c.currencySymbol.2, c.country.2, c.currencyName.2,
      wordBytes_length]

def Personal.struct (p : Personal) : Struct PersonalMember Byte where
  members :=
    [charMember .accountId ID_SZ, charMember .lastName NAME_SZ, charMember .firstName NAME_SZ,
    charMember .address NAME_SZ, charMember .address2 NAME_SZ, charMember .city NAME_SZ,
      charMember .state NAME_SZ,
    charMember .country NAME_SZ, charMember .phone PHONE_SZ, charMember .email LONG_NAME_SZ]
  contents
    | .accountId => p.accountId.1
    | .lastName => p.lastName.1
    | .firstName => p.firstName.1
    | .address => p.address.1
    | .address2 => p.address2.1
    | .city => p.city.1
    | .state => p.state.1
    | .country => p.country.1
    | .phone => p.phone.1
    | .email => p.email.1
  sized := by
    simp [charMember, Member.size, p.accountId.2, p.lastName.2, p.firstName.2, p.address.2,
      p.address2.2, p.city.2, p.state.2, p.country.2, p.phone.2, p.email.2]

/-! ## How they are read -/

structure Read (ν : Type) where
  name : ν
  bytes : Option (List Byte)

/-- A `char *` into the record, printed by `%s`. -/
def readString (buf : List Byte) (name : ν) (pos : ℕ) : Read ν where
  name := name
  bytes := upTo 0 (buf.drop pos)

/-- `*((int *)(buf + pos))`. -/
def readInt (buf : List Byte) (name : ν) (pos : ℕ) : Read ν where
  name := name
  bytes := if pos + 4 ≤ buf.length then some ((buf.drop pos).take 4) else none

def showStockItem (buf : List Byte) : List (Read StockMember) :=
  let symbol := 0
  let bufPos := ID_SZ
  let name := bufPos
  [readString buf .stockSymbol symbol, readString buf .fullName name]

def showCurrenciesItem (buf : List Byte) : List (Read CurrencyMember) :=
  let currencySymbol := 0
  let bufPos := ID_SZ
  let country := bufPos
  let bufPos := bufPos + LONG_NAME_SZ
  let currencyName := bufPos
  let bufPos := bufPos + NAME_SZ
  let exchangeRateUsd := bufPos
  [readString buf .currencySymbol currencySymbol, readInt buf .exchangeRateUsd exchangeRateUsd,
    readString buf .country country, readString buf .currencyName currencyName]

/-- `phone` is passed over as if it were a name. -/
def showPersonalItem (buf : List Byte) : List (Read PersonalMember) :=
  let accountId := 0
  let bufPos := ID_SZ
  let lastName := bufPos
  let bufPos := bufPos + NAME_SZ
  let firstName := bufPos
  let bufPos := bufPos + NAME_SZ
  let address := bufPos
  let bufPos := bufPos + NAME_SZ
  let address2 := bufPos
  let bufPos := bufPos + NAME_SZ
  let city := bufPos
  let bufPos := bufPos + NAME_SZ
  let state := bufPos
  let bufPos := bufPos + NAME_SZ
  let country := bufPos
  let bufPos := bufPos + NAME_SZ
  let phone := bufPos
  let bufPos := bufPos + NAME_SZ
  let email := bufPos
  [readString buf .accountId accountId, readString buf .lastName lastName,
    readString buf .firstName firstName,
    readString buf .address address, readString buf .address2 address2, readString buf .city city,
    readString buf .state state, readString buf .country country, readString buf .phone phone,
    readString buf .email email]

/-- The bytes of the member are read: all of an `int`, those up to the NUL of a string. -/
def Read.Exact (r : Read ν) (contents : ν → List Byte) : Prop :=
  ∃ bytes, r.bytes = some bytes ∧ bytes <+: contents r.name

/-- A record of one of the three tables. -/
inductive Record
  | stock (s : Stock)
  | currency (c : Currency)
  | personal (p : Personal)

/-- Every member that is shown is read exactly. -/
def Record.Decoded (pad : ℕ → Byte) : Record → Prop
  | .stock s => ∀ r ∈ showStockItem (s.struct.bytes pad), r.Exact s.struct.contents
  | .currency c => ∀ r ∈ showCurrenciesItem (c.struct.bytes pad), r.Exact c.struct.contents
  | .personal p => ∀ r ∈ showPersonalItem (p.struct.bytes pad), r.Exact p.struct.contents

/-- When that is so: strings end in their members, the two halves of a rate and the padding
before it are alike, and from its 113th byte on an email has the same string again. -/
def Record.Readable (pad : ℕ → Byte) : Record → Prop
  | .stock s => 0 ∈ s.stockSymbol.1 ∧ 0 ∈ s.fullName.1
  | .currency c => 0 ∈ c.currencySymbol.1 ∧ 0 ∈ c.country.1 ∧ 0 ∈ c.currencyName.1 ∧
    [pad 338, pad 339] = (wordBytes c.exchangeRateUsd).take 2 ∧
    (wordBytes c.exchangeRateUsd).take 2 = (wordBytes c.exchangeRateUsd).drop 2
  | .personal p =>
    0 ∈ p.accountId.1 ∧ 0 ∈ p.lastName.1 ∧ 0 ∈ p.firstName.1 ∧ 0 ∈ p.address.1 ∧ 0 ∈ p.address2.1 ∧
    0 ∈ p.city.1 ∧ 0 ∈ p.state.1 ∧ 0 ∈ p.country.1 ∧ 0 ∈ p.phone.1 ∧
    0 ∈ p.email.1 ∧ upTo 0 (p.email.1.drop 112) = upTo 0 p.email.1

/-! ## Reads of a string and of an `int` -/

section Reads
variable {buf : List Byte} {name : ν} {pos : ℕ} {contents : ν → List Byte} {st : Struct ν Byte}
  {pad : ℕ → Byte}

/-- From the offset of a member just the member is read if the string ends there. -/
theorem exact_readString [DecidableEq ν] (h : st.offset name = some pos) :
    (readString (st.bytes pad) name pos).Exact st.contents ↔ 0 ∈ st.contents name := by
  obtain ⟨rest, hrest⟩ : st.contents name <+: (st.bytes pad).drop pos := st.contents_isPrefix h
  unfold Read.Exact readString
  rw [← hrest]
  exact upTo_isPrefix_iff rest

theorem exact_readString_elsewhere :
    (readString buf name pos).Exact contents ↔ 0 ∈ contents name ∧ upTo 0 (buf.drop pos) = upTo 0
    (contents name) := by
  constructor
  · rintro ⟨s, hs, rest, hrest⟩
    have hs : upTo 0 (buf.drop pos) = some s := hs
    have hcontents : contents name = s ++ rest := hrest.symm
    rw [hcontents, hs, upTo_append (upTo_self hs)]
    exact ⟨List.mem_append_left rest (mem_and_isPrefix_of_upTo hs).1, rfl⟩
  · rintro ⟨hmem, heq⟩
    obtain ⟨s, hs⟩ := upTo_of_mem hmem
    exact ⟨s, heq.trans hs, (mem_and_isPrefix_of_upTo hs).2⟩

end Reads

/-! ## The three records -/

section Records
variable {pad : ℕ → Byte}

theorem Stock.decoded_iff (s : Stock) : (Record.stock s).Decoded pad ↔
    (Record.stock s).Readable pad := by
  simp only [Record.Decoded, Record.Readable, showStockItem, List.forall_mem_cons, List.not_mem_nil,
    IsEmpty.forall_iff, implies_true, and_true]
  exact and_congr (exact_readString rfl) (exact_readString rfl)

/-- The rate is aligned to a multiple of four, two bytes after the name. -/
theorem Currency.bytes_eq (c : Currency) : c.struct.bytes pad =
    (c.currencySymbol.1 ++ c.country.1 ++ c.currencyName.1) ++
    ([pad 338, pad 339] ++ wordBytes c.exchangeRateUsd) := by
  simp [Struct.bytes, Currency.struct, layoutBytes, layoutEnd, padding, maxWidth, charMember,
    intMember, Member.size, alignUp, ID_SZ, LONG_NAME_SZ, NAME_SZ, List.range']

/-- The four bytes after the name are the padding and the low half of the rate. -/
theorem Currency.readInt_rate (c : Currency) :
    readInt (c.struct.bytes pad) CurrencyMember.exchangeRateUsd 338 =
    ⟨.exchangeRateUsd, some ([pad 338, pad 339] ++ (wordBytes c.exchangeRateUsd).take 2)⟩ := by
  have hlength : (c.currencySymbol.1 ++ c.country.1 ++ c.currencyName.1).length = 338 := by
    rw [List.length_append, List.length_append, c.currencySymbol.2, c.country.2, c.currencyName.2]
    rfl
  have hroom : 338 + 4 ≤ (c.struct.bytes pad).length := by
    rw [c.bytes_eq, List.length_append, hlength, List.length_append, wordBytes_length]
    norm_num
  rw [readInt, if_pos hroom, c.bytes_eq, ← hlength, List.drop_left]
  rfl

/-- They are the rate's where both its halves are those of the padding. -/
theorem Currency.exact_rate_iff (c : Currency) :
    (readInt (c.struct.bytes pad) .exchangeRateUsd 338).Exact c.struct.contents ↔
      [pad 338, pad 339] = (wordBytes c.exchangeRateUsd).take 2 ∧
        (wordBytes c.exchangeRateUsd).take 2 = (wordBytes c.exchangeRateUsd).drop 2 := by
  have hhalves := List.take_append_drop 2 (wordBytes c.exchangeRateUsd)
  rw [c.readInt_rate]
  constructor
  · rintro ⟨bytes, hbytes, hpre⟩
    obtain rfl := Option.some.inj hbytes
    have hpre : [pad 338, pad 339] ++
      (wordBytes c.exchangeRateUsd).take 2 <+: wordBytes c.exchangeRateUsd := hpre
    have heq := hpre.eq_of_length (by simp [wordBytes_length])
    exact List.append_inj (heq.trans hhalves.symm) (by simp [wordBytes_length])
  · rintro ⟨hpad, hsame⟩
    refine ⟨_, rfl, ?_⟩
    rw [hpad]
    nth_rewrite 2 [hsame]
    rw [hhalves]
    exact List.prefix_rfl

theorem Currency.decoded_iff (c : Currency) :
    (Record.currency c).Decoded pad ↔ (Record.currency c).Readable pad := by
  have hsymbol : (readString (c.struct.bytes pad) .currencySymbol 0).Exact c.struct.contents ↔
    0 ∈ c.currencySymbol.1 :=
    exact_readString rfl
  have hcountry : (readString (c.struct.bytes pad) .country 10).Exact c.struct.contents ↔
    0 ∈ c.country.1 :=
    exact_readString rfl
  have hname : (readString (c.struct.bytes pad) .currencyName 210).Exact c.struct.contents ↔
    0 ∈ c.currencyName.1 :=
    exact_readString rfl
  simp only [Record.Decoded, Record.Readable, showCurrenciesItem, List.forall_mem_cons,
    List.not_mem_nil, IsEmpty.forall_iff, implies_true, and_true]
  rw [← hsymbol, ← hcountry, ← hname, ← c.exact_rate_iff]
  constructor
  · rintro ⟨h₁, h₂, h₃, h₄⟩
    exact ⟨h₁, h₃, h₄, h₂⟩
  · rintro ⟨h₁, h₃, h₄, h₂⟩
    exact ⟨h₁, h₂, h₃, h₄⟩

theorem Personal.readString_email (p : Personal) :
    readString (p.struct.bytes pad) PersonalMember.email 1034 =
      ⟨.email, upTo 0 (p.email.1.drop 112)⟩ := by
  have hlength : (p.struct.bytes pad).length = 1122 := by
    rw [Struct.bytes_length]
    simp [structSize, maxWidth, Personal.struct, layoutEnd, charMember, Member.size, alignUp, ID_SZ,
      NAME_SZ, PHONE_SZ, LONG_NAME_SZ]
  have hoffset : p.struct.offset .email = some 922 := rfl
  have hpre : p.email.1 <+: (p.struct.bytes pad).drop 922 := p.struct.contents_isPrefix hoffset
  have hmember : p.email.1 = (p.struct.bytes pad).drop 922 := by
    refine hpre.eq_of_length ?_
    rw [List.length_drop, hlength, p.email.2]
  rw [readString, hmember, List.drop_drop]

theorem Personal.decoded_iff (p : Personal) :
    (Record.personal p).Decoded pad ↔ (Record.personal p).Readable pad := by
  have hemail : (readString (p.struct.bytes pad) .email 1034).Exact p.struct.contents ↔
      0 ∈ p.email.1 ∧ upTo 0 (p.email.1.drop 112) = upTo 0 p.email.1 := by
    have hbytes : upTo 0 ((p.struct.bytes pad).drop 1034) = upTo 0 (p.email.1.drop 112) :=
      congrArg Read.bytes p.readString_email
    rw [exact_readString_elsewhere, hbytes]
    rfl
  simp only [Record.Decoded, Record.Readable, showPersonalItem, List.forall_mem_cons,
    List.not_mem_nil, IsEmpty.forall_iff, implies_true, and_true]
  exact and_congr (exact_readString rfl) <| and_congr (exact_readString rfl) <|
    and_congr (exact_readString rfl) <|
    and_congr (exact_readString rfl) <| and_congr (exact_readString rfl) <|
      and_congr (exact_readString rfl) <|
    and_congr (exact_readString rfl) <| and_congr (exact_readString rfl) <|
      and_congr (exact_readString rfl) hemail

/-- The rate is shown right where its halves are those of the padding, the email where its
string comes again after 112 bytes. -/
theorem recordDecoded_iff (pad : ℕ → Byte) (r : Record) : r.Decoded pad ↔ r.Readable pad := by
  cases r with
  | stock s => exact s.decoded_iff
  | currency c => exact c.decoded_iff
  | personal p => exact p.decoded_iff

end Records

/-! ## Text in zeroed records -/

/-- A string in a member that was zeroed. -/
def text (n : ℕ) (s : List Byte) : Chars n := ⟨strncpy n s, strncpy_length n s⟩

/-- After zeroed padding the rate is shown right only if it is zero. -/
theorem Currency.zeroed_rate_iff (c : Currency) :
    ([0, 0] = (wordBytes c.exchangeRateUsd).take 2 ∧
      (wordBytes c.exchangeRateUsd).take 2 = (wordBytes c.exchangeRateUsd).drop 2) ↔
        c.exchangeRateUsd = 0 := by
  constructor
  · rintro ⟨hlow, hsame⟩
    have hword : wordBytes c.exchangeRateUsd = [0, 0, 0, 0] := by
      rw [← List.take_append_drop 2 (wordBytes c.exchangeRateUsd), ← hsame, ← hlow]
      rfl
    have hread := signedWord_wordBytes [] [] c.exchangeRateUsd
    rw [int32_eq_self c.exchangeRateUsd_int.1 c.exchangeRateUsd_int.2, List.nil_append,
      List.append_nil, hword] at hread
    rw [← hread]
    decide
  · intro h
    rw [h]
    decide

theorem text_eq {n : ℕ} {s : List Byte} (hs : s.length ≤ n) :
    (text n s).1 = s ++ List.replicate (n - s.length) 0 := by
  have htake : s.take n = s := List.take_of_length_le hs
  exact congrArg (· ++ _) htake

theorem upTo_drop_text {s : List Byte} (hs : s.length ≤ 112) :
    upTo 0 ((text LONG_NAME_SZ s).1.drop 112) = some [0] := by
  have hzeros : (text LONG_NAME_SZ s).1.drop 112 = List.replicate 88 0 := by
    rw [text_eq (by norm_num; omega), List.drop_append, List.drop_of_length_le hs, List.nil_append,
      List.drop_replicate]
    congr 1
    norm_num
    omega
  rw [hzeros]
  rfl

theorem upTo_text {n : ℕ} {s : List Byte} (hs : s.length < n) (hnonzero : 0 ∉ s) :
    upTo 0 (text n s).1 = some (s ++ [0]) := by
  obtain ⟨k, hk⟩ := Nat.exists_eq_add_of_lt hs
  have hzeros : n - s.length = k + 1 := by omega
  rw [text_eq hs.le, hzeros, List.replicate_succ, upTo_append_stop hnonzero]

def oneLetterEmail : Personal where
  accountId := text ID_SZ []
  lastName := text NAME_SZ []
  firstName := text NAME_SZ []
  address := text NAME_SZ []
  address2 := text NAME_SZ []
  city := text NAME_SZ []
  state := text NAME_SZ []
  country := text NAME_SZ []
  phone := text PHONE_SZ []
  email := text LONG_NAME_SZ [120]

def unitRate : Currency where
  currencySymbol := text ID_SZ []
  country := text LONG_NAME_SZ []
  currencyName := text NAME_SZ []
  exchangeRateUsd := 1
  exchangeRateUsd_int := by norm_num

/-- The email `x` is shown as nothing, the rate 1 as 65536. -/
theorem records_misread :
    ⟨.email, some [0]⟩ ∈ showPersonalItem (oneLetterEmail.struct.bytes fun _ => 0) ∧
      ⟨.exchangeRateUsd, some (wordBytes 65536)⟩ ∈ showCurrenciesItem
        (unitRate.struct.bytes fun _ => 0) ∧
      ¬ (Record.personal oneLetterEmail).Decoded (fun _ => 0) ∧
        ¬ (Record.currency unitRate).Decoded fun _ => 0 := by
  have hemail : upTo 0 (oneLetterEmail.email.1.drop 112) = some [0] := upTo_drop_text (by norm_num)
  refine ⟨?_, ?_, ?_, ?_⟩
  · rw [← hemail, ← Personal.readString_email]
    exact List.mem_of_getElem? (i := 9) rfl
  · have hrate : wordBytes 65536 = [0, 0] ++ (wordBytes 1).take 2 := by decide
    rw [hrate]
    exact List.mem_of_getElem? (i := 1) (congrArg some unitRate.readInt_rate)
  · intro h
    obtain ⟨-, -, -, -, -, -, -, -, -, -, heq⟩ := oneLetterEmail.decoded_iff.mp h
    have hwhole : upTo 0 oneLetterEmail.email.1 = some [120, 0] :=
      upTo_text (by norm_num) (by decide)
    rw [hemail, hwhole] at heq
    exact absurd heq (by decide)
  · intro h
    obtain ⟨-, -, -, hrate⟩ := unitRate.decoded_iff.mp h
    exact absurd (unitRate.zeroed_rate_iff.mp hrate) (by decide)

end Chronos.Reports
