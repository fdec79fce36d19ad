import TestCodes.Lib.Bytes
import TestCodes.Lib.Decimal
import TestCodes.Lib.Framing
import TestCodes.TestUnitsNew.HostProcessPool

/-! `chat_message`: a body behind a header that has its length in four characters. -/
namespace TestCodes.TestUnits

open TestUnitsNew

def headerLength : ℕ := 4

def maxBodyLength : ℕ := 512

@[ext] structure ChatMessage where
  data : List Int8
  bodyLength : ℕ
  sizeof_data : data.length = headerLength + maxBodyLength
  fits : bodyLength ≤ maxBodyLength

/-- What `atoi` gives, as a `size_t`. The header ends at its first NUL, or after four characters. -/
def headerValue (header : List Int8) : ℕ :=
  (UInt32.ofInt (atoi ((header.take headerLength).takeWhile (· ≠ 0)))).toNat

namespace ChatMessage

/-- The constructor leaves the characters as they are. -/
def new (data : List Int8) (sizeof_data : data.length = headerLength + maxBodyLength) :
    ChatMessage :=
  ⟨data, 0, sizeof_data, Nat.zero_le _⟩

def length (m : ChatMessage) : ℕ := headerLength + m.bodyLength

/-- `length()` characters from `data()` on. -/
def text (m : ChatMessage) : List Int8 := m.data.take m.length

def body (m : ChatMessage) : List Int8 := slice m.data headerLength m.bodyLength

def store (m : ChatMessage) (i : ℕ) (bytes : List Int8) : ChatMessage where
  data := overwrite m.data i bytes
  bodyLength := m.bodyLength
  sizeof_data := (overwrite_length _ _ _).trans m.sizeof_data
  fits := m.fits

@[simp] theorem store_data (m : ChatMessage) (i : ℕ) (bytes : List Int8) :
    (m.store i bytes).data = overwrite m.data i bytes := rfl

@[simp] theorem store_bodyLength (m : ChatMessage) (i : ℕ) (bytes : List Int8) :
    (m.store i bytes).bodyLength = m.bodyLength := rfl

def decodeHeader (m : ChatMessage) : ChatMessage × Bool :=
  if h : headerValue m.data ≤ maxBodyLength then
    ({ m with bodyLength := headerValue m.data, fits := h }, true)
  else ({ m with bodyLength := 0, fits := Nat.zero_le _ }, false)

/-- `%4d` -/
def fourWide (n : ℕ) : List Int8 :=
  List.replicate (4 - (decimal n).length) 0x20 ++ (decimal n).map UInt8.toInt8

def encodeHeader (m : ChatMessage) : ChatMessage :=
  m.store 0 ((fourWide m.bodyLength).take headerLength)

end ChatMessage

/-! What `%4d` writes is what `atoi` reads. -/

theorem digitsValue_snoc {text : List Int8} {c : Int8} (htext : ∀ d ∈ text, isDigit d = true)
    (hc : isDigit c = true) :
    digitsValue (text ++ [c]) = 10 * digitsValue text + (c - 0x30).toInt.toNat := by
  have hall : ∀ d ∈ text ++ [c], isDigit d = true := by
    intro d hd
    rcases List.mem_append.mp hd with hd | hd
    · exact htext d hd
    · rw [List.mem_singleton.mp hd, hc]
  rw [digitsValue, digitsValue, List.takeWhile_eq_self_iff.mpr hall,
    List.takeWhile_eq_self_iff.mpr htext, List.foldl_append]
  rfl

def digitChar (d : ℕ) : Int8 := (asciiDigit d).toInt8

theorem digitChar_digit : ∀ d < 10, isDigit (digitChar d) = true ∧
    (digitChar d - 0x30).toInt.toNat = d := by
  decide

theorem decimal_digits (n : ℕ) : ∀ c ∈ (decimal n).map UInt8.toInt8, isDigit c = true := by
  induction n using Nat.strong_induction_on with
  | _ n ih =>
      rcases Nat.lt_or_ge n 10 with h | h
      · rw [decimal_of_lt h]
        change ∀ c ∈ [digitChar n], isDigit c = true
        rw [List.forall_mem_singleton]
        exact (digitChar_digit n h).1
      · rw [decimal_of_le h, List.map_append]
        intro c hc
        rcases List.mem_append.mp hc with hc | hc
        · exact ih (n / 10) (by omega) c hc
        · rw [List.mem_singleton.mp hc]
          exact (digitChar_digit (n % 10) (Nat.mod_lt n (by decide))).1

theorem digitsValue_decimal (n : ℕ) : digitsValue ((decimal n).map UInt8.toInt8) = n := by
  induction n using Nat.strong_induction_on with
  | _ n ih =>
      rcases Nat.lt_or_ge n 10 with h | h
      · have hdigit := digitChar_digit n h
        rw [decimal_of_lt h]
        change digitsValue ([] ++ [digitChar n]) = n
        rw [digitsValue_snoc (List.forall_mem_nil _) hdigit.1, hdigit.2]
        exact Nat.zero_add n
      · have hdigit := digitChar_digit (n % 10) (Nat.mod_lt n (by decide))
        rw [decimal_of_le h, List.map_append]
        change digitsValue ((decimal (n / 10)).map UInt8.toInt8 ++ [digitChar (n % 10)]) = n
        rw [digitsValue_snoc (decimal_digits (n / 10)) hdigit.1, ih (n / 10) (by omega), hdigit.2]
        omega

theorem ne_of_digit {c : Int8} (h : isDigit c = true) :
    isSpace c = false ∧ c ≠ 0x2D ∧ c ≠ 0x2B ∧ c ≠ 0 := by
  have hlow : 48 ≤ c.toInt := by
    unfold isDigit at h
    rw [Bool.and_eq_true, decide_eq_true_eq, Int8.le_iff_toInt_le] at h
    exact h.1
  have hne (d : Int8) (hd : d.toInt < 48) : c ≠ d := by
    rintro rfl
    omega
  refine ⟨?_, hne _ (by decide), hne _ (by decide), hne _ (by decide)⟩
  have hle : ¬ c ≤ 13 := by
    rw [Int8.le_iff_toInt_le]
    exact Int.not_le.mpr (Int.lt_of_lt_of_le (by decide) hlow)
  simp [isSpace, hne 0x20 (by decide), hle]

theorem atoi_blanks {text : List Int8} (htext : ∀ c ∈ text, isDigit c = true) (hpos : text ≠ [])
    (n : ℕ) : atoi (List.replicate n 0x20 ++ text) = digitsValue text := by
  obtain ⟨c, rest, rfl⟩ := List.exists_cons_of_ne_nil hpos
  obtain ⟨hspace, hminus, hplus, -⟩ := ne_of_digit (htext c List.mem_cons_self)
  have hdrop : (List.replicate n (0x20 : Int8) ++ c :: rest).dropWhile isSpace = c :: rest := by
    induction n with
    | zero => exact List.dropWhile_cons_of_neg (by simp [hspace])
    | succ n ih => rw [List.replicate_succ, List.cons_append, List.dropWhile_cons_of_pos rfl, ih]
  rw [atoi, hdrop]
  simp only [if_neg hminus, if_neg hplus]

namespace ChatMessage

theorem fourWide_length {n : ℕ} (h : n < 10000) : (fourWide n).length = headerLength := by
  have hdecimal : (decimal n).length ≤ 4 := (decimal_length_le_iff (by decide)).mpr h
  rw [fourWide, List.length_append, List.length_replicate, List.length_map, headerLength]
  omega

theorem headerValue_fourWide {n : ℕ} (h : n < 10000) (rest : List Int8) :
    headerValue (fourWide n ++ rest) = n := by
  have hnul : ∀ c ∈ fourWide n, decide (c ≠ 0) = true := by
    intro c hc
    rcases List.mem_append.mp hc with hc | hc
    · rw [List.eq_of_mem_replicate hc]
      rfl
    · exact decide_eq_true (ne_of_digit (decimal_digits n c hc)).2.2.2
  have hpos : (decimal n).map UInt8.toInt8 ≠ [] := by
    rw [ne_eq, List.map_eq_nil_iff]
    exact List.ne_nil_of_length_pos (decimal_length_pos n)
  rw [headerValue, ← fourWide_length h, List.take_left, List.takeWhile_eq_self_iff.mpr hnul,
    fourWide, atoi_blanks (decimal_digits n) hpos, digitsValue_decimal]
  have hword : ((n : Int) % 2 ^ 32).toNat = n := by omega
  rw [UInt32.ofInt, hword]
  exact UInt32.toNat_ofNat_of_lt' (h.trans (by decide))

variable (m : ChatMessage)

theorem encodeHeader_data :
    m.encodeHeader.data = fourWide m.bodyLength ++ m.data.drop headerLength := by
  have hlength : (fourWide m.bodyLength).length = headerLength :=
    fourWide_length (m.fits.trans_lt (by decide))
  have htake : (fourWide m.bodyLength).take headerLength = fourWide m.bodyLength :=
    List.take_of_length_le hlength.le
  have hroom : (fourWide m.bodyLength).length ≤ m.data.length := by
    rw [hlength, m.sizeof_data]
    exact Nat.le_add_right _ _
  have hover := overwrite_append [] m.data hroom
  rw [hlength] at hover
  rw [encodeHeader, store_data, htake]
  exact hover

/-- The length that a message announces is its own, and its body is left alone. -/
theorem decode_encodeHeader : m.encodeHeader.decodeHeader = (m.encodeHeader, true) ∧
    m.encodeHeader.body = m.body := by
  have hvalue : headerValue m.encodeHeader.data = m.bodyLength := by
    rw [encodeHeader_data, headerValue_fourWide (m.fits.trans_lt (by decide))]
  constructor
  · rw [decodeHeader, dif_pos (by rw [hvalue]; exact m.fits)]
    exact congrArg (·, true) (ChatMessage.ext rfl hvalue)
  · apply slice_overwrite_of_disjoint
    left
    rw [Nat.zero_add]
    exact List.length_take_le _ _

end ChatMessage
end TestCodes.TestUnits
