import Mathlib.Data.List.Basic
import Mathlib.Data.List.TakeWhile

/-! The text between the quotes of a C++ character literal, and the bytes that its value stores. -/
namespace TestCodes.CharLiteral

def quote : UInt8 := 0x27

def backslash : UInt8 := 0x5C

def newline : UInt8 := 0x0A

abbrev Plain (c : UInt8) : Prop := c ≠ backslash ∧ c ≠ quote ∧ c ≠ newline

theorem plain_of_all {text : List UInt8} (h : (text.all fun c => decide (Plain c)) = true) :
    ∀ c ∈ text, Plain c :=
  fun c hc => of_decide_eq_true (List.all_eq_true.mp h c hc)

abbrev IsOctal (c : UInt8) : Prop := 0x30 ≤ c ∧ c ≤ 0x37

abbrev IsHex (c : UInt8) : Prop :=
  0x30 ≤ c ∧ c ≤ 0x39 ∨ 0x41 ≤ c ∧ c ≤ 0x46 ∨ 0x61 ≤ c ∧ c ≤ 0x66

/-- A program that reads character literals. `escape` reads what stands behind a backslash: a
character, with digits behind it for some. A literal of more than four characters is `long`, if the
program takes it at all, by the last four. -/
structure Reader where
  escape : List UInt8 → Option (UInt8 × List UInt8)
  long : Bool
  digits : ∀ {text c rest}, escape text = some (c, rest) →
    ∃ d ds, text = d :: (ds ++ rest) ∧ ∀ e ∈ ds, IsHex e
  escape_backslash : ∀ rest, escape (backslash :: rest) = some (backslash, rest)
  escape_nul : ∀ rest, (∀ c ∈ rest.head?, ¬ IsOctal c) → escape (0x30 :: rest) = some (0, rest)

namespace Reader

theorem escape_shorter (R : Reader) {text rest : List UInt8} {c : UInt8}
    (h : R.escape text = some (c, rest)) : rest.length < text.length := by
  obtain ⟨d, ds, rfl, -⟩ := R.digits h
  rw [List.length_cons, List.length_append]
  omega

/-- The characters of the text; none where it is not the text of a literal. -/
def chars (R : Reader) : List UInt8 → Option (List UInt8)
  | [] => some []
  | c :: text =>
      if c = backslash then
        match _h : R.escape text with
        | none => none
        | some (d, rest) => (R.chars rest).map (d :: ·)
      else if c = quote ∨ c = newline then none
      else (R.chars text).map (c :: ·)
termination_by text => text.length
decreasing_by
  · have hshorter := R.escape_shorter _h
    simp only [List.length_cons]
    omega
  · simp

/-- What stands above a value's characters: a single one keeps its sign. -/
def extension : List UInt8 → UInt8
  | [c] => if 0x80 ≤ c then 0xFF else 0
  | _ => 0

/-- The lowest bytes of the value, the last character first. -/
def stored (R : Reader) (width : ℕ) (text : List UInt8) : Option (List UInt8) :=
  (R.chars text).bind fun cs =>
    if cs = [] ∨ 4 < cs.length ∧ R.long = false then none
    else some ((cs.reverse ++ List.replicate width (extension cs)).take width)

/-- The text is that of a literal which every program takes. -/
def IsLiteral (R : Reader) (text : List UInt8) : Prop :=
  ∃ cs, R.chars text = some cs ∧ cs ≠ [] ∧ cs.length ≤ 4

variable {R : Reader} {c : UInt8} {text cs : List UInt8}

@[simp] theorem chars_nil : R.chars [] = some [] := by rw [chars]

theorem chars_plain (hc : Plain c) : R.chars (c :: text) = (R.chars text).map (c :: ·) := by
  rw [chars, if_neg hc.1, if_neg (not_or.mpr hc.2)]

theorem chars_quote : R.chars (quote :: text) = none := by
  rw [chars, if_neg (by decide), if_pos (.inl rfl)]

theorem chars_backslash : R.chars (backslash :: text) =
    (R.escape text).bind fun found => (R.chars found.2).map (found.1 :: ·) := by
  rw [chars, if_pos rfl]
  split
  · rename_i h
    rw [h]
    rfl
  · rename_i h
    rw [h]
    rfl

theorem chars_escapedNul (htext : ∀ c ∈ text.head?, ¬ IsOctal c) :
    R.chars (backslash :: 0x30 :: text) = (R.chars text).map (0 :: ·) := by
  rw [chars_backslash, R.escape_nul text htext]
  rfl

theorem chars_cons_cases (h : R.chars (c :: text) = some cs) :
    (Plain c ∧ ∃ ds, R.chars text = some ds ∧ cs = c :: ds) ∨
      c = backslash ∧ ∃ d rest ds, R.escape text = some (d, rest) ∧ R.chars rest = some ds ∧
        cs = d :: ds := by
  by_cases hback : c = backslash
  · right
    subst hback
    rw [chars_backslash] at h
    obtain ⟨⟨d, rest⟩, hescape, hrest⟩ := Option.bind_eq_some_iff.mp h
    obtain ⟨ds, hds, rfl⟩ := Option.map_eq_some_iff.mp hrest
    exact ⟨rfl, d, rest, ds, hescape, hds, rfl⟩
  · left
    have hplain : Plain c := by
      refine ⟨hback, not_or.mp fun hrefused => ?_⟩
      rw [chars, if_neg hback, if_pos hrefused] at h
      cases h
    rw [chars_plain hplain] at h
    obtain ⟨ds, hds, rfl⟩ := Option.map_eq_some_iff.mp h
    exact ⟨hplain, ds, hds, rfl⟩

theorem chars_append_plain {u : List UInt8} (hu : ∀ c ∈ u, Plain c) (w : List UInt8) :
    R.chars (u ++ w) = (R.chars w).map (u ++ ·) := by
  induction u with
  | nil => simp
  | cons c u ih =>
      rw [List.cons_append, chars_plain (hu c List.mem_cons_self),
        ih fun d hd => hu d (List.mem_cons_of_mem c hd), Option.map_map]
      rfl

theorem chars_of_plain (h : ∀ c ∈ text, Plain c) : R.chars text = some text := by
  have happend := chars_append_plain (R := R) h []
  rw [chars_nil, List.append_nil] at happend
  rw [happend, Option.map_some, List.append_nil]

theorem stored_eq_some_iff {width : ℕ} {bytes : List UInt8} :
    R.stored width text = some bytes ↔ ∃ cs, R.chars text = some cs ∧ cs ≠ [] ∧
      (R.long = true ∨ cs.length ≤ 4) ∧
        (cs.reverse ++ List.replicate width (extension cs)).take width = bytes := by
  have hrefused : ∀ cs : List UInt8, ¬ (cs = [] ∨ 4 < cs.length ∧ R.long = false) ↔
      cs ≠ [] ∧ (R.long = true ∨ cs.length ≤ 4) := by
    intro cs
    rw [not_or, not_and_or, Bool.not_eq_false, Nat.not_lt, or_comm (a := cs.length ≤ 4)]
  unfold stored
  rw [Option.bind_eq_some_iff]
  simp only [Option.ite_none_left_eq_some, hrefused, Option.some.injEq, and_assoc]

theorem length_stored {width : ℕ} {bytes : List UInt8} (h : R.stored width text = some bytes) :
    bytes.length = width := by
  obtain ⟨cs, -, -, -, rfl⟩ := stored_eq_some_iff.mp h
  rw [List.length_take, List.length_append, List.length_replicate]
  exact Nat.min_eq_left (Nat.le_add_left _ _)

theorem extension_cases (cs : List UInt8) : extension cs = 0 ∨
    ∃ c, cs = [c] ∧ extension cs = 0xFF := by
  match cs with
  | [] => exact .inl rfl
  | [c] =>
      by_cases hc : 0x80 ≤ c
      · exact .inr ⟨c, rfl, if_pos hc⟩
      · exact .inl (if_neg hc)
  | _ :: _ :: _ => exact .inl rfl

theorem chars_length (h : R.chars text = some cs) :
    cs.length ≤ text.length ∧ (cs.length = text.length → cs = text ∧ ∀ c ∈ text, Plain c) := by
  induction hn : text.length using Nat.strong_induction_on generalizing text cs with
  | _ n ih =>
    subst hn
    cases text with
    | nil =>
        rw [chars_nil] at h
        obtain rfl := Option.some.inj h
        exact ⟨le_rfl, fun _ => ⟨rfl, fun c hc => absurd hc List.not_mem_nil⟩⟩
    | cons c text =>
        rcases chars_cons_cases h with ⟨hplain, ds, hds, rfl⟩ | ⟨-, d, rest, ds, hescape, hds, rfl⟩
        · obtain ⟨hle, heq⟩ := ih text.length (Nat.lt_succ_self _) hds rfl
          refine ⟨Nat.succ_le_succ hle, fun hsame => ?_⟩
          obtain ⟨rfl, hall⟩ := heq (Nat.succ.inj hsame)
          exact ⟨rfl, List.forall_mem_cons.mpr ⟨hplain, hall⟩⟩
        · have hshorter := R.escape_shorter hescape
          have hle := (ih rest.length (by rw [List.length_cons]; omega) hds rfl).1
          simp only [List.length_cons]
          refine ⟨by omega, fun hsame => ?_⟩
          omega

theorem eq_nil_of_chars (h : R.chars text = some []) : text = [] := by
  cases text with
  | nil => rfl
  | cons c text =>
      rcases chars_cons_cases h with ⟨-, ds, -, hcs⟩ | ⟨-, d, rest, ds, -, -, hcs⟩ <;> cases hcs

/-- No character of the text behind is a digit: then that text is read from its start, or its first
character stands behind a backslash and belongs to the escape. -/
theorem chars_split {u w : List UInt8} (hw : ∀ c ∈ w.head?, ¬ IsHex c)
    (h : R.chars (u ++ w) = some cs) :
    ∃ cs₁ cs₂, cs = cs₁ ++ cs₂ ∧ (R.chars w = some cs₂ ∨
      u.getLast? = some backslash ∧ R.chars (backslash :: w) = some cs₂) := by
  induction hn : u.length using Nat.strong_induction_on generalizing u cs with
  | _ n ih =>
    subst hn
    cases u with
    | nil => exact ⟨[], cs, rfl, .inl h⟩
    | cons c u =>
        have hlast : u.getLast? = some backslash → (c :: u).getLast? = some backslash := by
          intro hu
          rw [List.getLast?_cons, hu]
          rfl
        rcases chars_cons_cases h with ⟨-, ds, hds, rfl⟩ | ⟨rfl, d, rest, ds, hescape, hds, rfl⟩
        · obtain ⟨cs₁, cs₂, rfl, hread⟩ := ih u.length (Nat.lt_succ_self _) hds rfl
          exact ⟨c :: cs₁, cs₂, rfl, hread.imp_right fun hread => ⟨hlast hread.1, hread.2⟩⟩
        cases u with
        | nil => exact ⟨[], _, rfl, .inr ⟨rfl, h⟩⟩
        | cons e u =>
            obtain ⟨e', es, htext, hes⟩ := R.digits hescape
            obtain ⟨rfl, htail⟩ : e = e' ∧ u ++ w = es ++ rest := List.cons.inj htext
            -- the digits of the escape end before the text behind does begin
            obtain ⟨v, rfl, rfl⟩ : ∃ v, u = es ++ v ∧ rest = v ++ w := by
              rcases List.append_eq_append_iff.mp htail with ⟨v, rfl, rfl⟩ | ⟨v, rfl, rfl⟩
              · cases v with
                | nil => exact ⟨[], by rw [List.append_nil, List.append_nil], rfl⟩
                | cons x v =>
                    have hx : IsHex x := hes x (by simp)
                    exact absurd hx (hw x rfl)
              · exact ⟨v, rfl, rfl⟩
            obtain ⟨cs₁, cs₂, rfl, hread⟩ := ih v.length (by simp; omega) hds rfl
            refine ⟨d :: cs₁, cs₂, rfl, hread.imp_right fun hread => ⟨?_, hread.2⟩⟩
            apply hlast
            rw [List.getLast?_cons, List.getLast?_append, hread.1]
            rfl

end Reader

/-! The escapes of C++. One that has no meaning there stands for its character. -/

/-- "a", "b", "f", "n", "r", "t" and "v" -/
def simpleEscape (c : UInt8) : UInt8 :=
  if c = 0x61 then 7 else if c = 0x62 then 8 else if c = 0x66 then 12 else if c = 0x6E then 10
  else if c = 0x72 then 13 else if c = 0x74 then 9 else if c = 0x76 then 11 else c

def digitValue (c : UInt8) : ℕ :=
  if c ≤ 0x39 then c.toNat - 0x30 else if c ≤ 0x46 then c.toNat - 0x37 else c.toNat - 0x57

def number (base : ℕ) (digits : List UInt8) : ℕ :=
  digits.foldl (fun n c => n * base + digitValue c) 0

/-- The number of an escape, which is that of a character. -/
def numeric (base : ℕ) (digits rest : List UInt8) : Option (UInt8 × List UInt8) :=
  if digits = [] ∨ 256 ≤ number base digits then none
  else some (.ofNat (number base digits), rest)

/-- Octal numbers have up to three digits, hexadecimal ones any number of them. -/
def escape : List UInt8 → Option (UInt8 × List UInt8)
  | [] => none
  | c :: text =>
      if IsOctal c then
        let more := (text.take 2).takeWhile fun d => IsOctal d
        numeric 8 (c :: more) (text.drop more.length)
      else if c = 0x78 then
        let more := text.takeWhile fun d => IsHex d
        numeric 16 more (text.drop more.length)
      else if c = newline then none
      else some (simpleEscape c, text)

theorem numeric_rest {base : ℕ} {digits rest rest' : List UInt8} {c : UInt8}
    (h : numeric base digits rest = some (c, rest')) : rest = rest' := by
  unfold numeric at h
  split at h
  · cases h
  · exact (Prod.mk.inj (Option.some.inj h)).2

theorem digits_of_prefix {more text : List UInt8} (hmore : more <+: text)
    (hhex : ∀ e ∈ more, IsHex e) (c : UInt8) :
    ∃ d ds, c :: text = d :: (ds ++ text.drop more.length) ∧ ∀ e ∈ ds, IsHex e :=
  ⟨c, more, congrArg (c :: ·) (List.prefix_iff_eq_append.mp hmore).symm, hhex⟩

theorem escape_digits {text rest : List UInt8} {c : UInt8} (h : escape text = some (c, rest)) :
    ∃ d ds, text = d :: (ds ++ rest) ∧ ∀ e ∈ ds, IsHex e := by
  cases text with
  | nil => cases h
  | cons d text =>
      rw [escape] at h
      split at h
      · obtain rfl := numeric_rest h
        refine digits_of_prefix ((List.takeWhile_prefix _).trans (List.take_prefix 2 text)) ?_ d
        intro e he
        have hoctal : IsOctal e := by simpa using List.mem_takeWhile_imp he
        have h9 : (0x37 : UInt8) ≤ 0x39 := by decide
        exact .inl ⟨hoctal.1, UInt8.le_trans hoctal.2 h9⟩
      split at h
      · obtain rfl := numeric_rest h
        refine digits_of_prefix (List.takeWhile_prefix _) ?_ d
        intro e he
        simpa using List.mem_takeWhile_imp he
      split at h
      · cases h
      · obtain rfl := (Prod.mk.inj (Option.some.inj h)).2
        exact ⟨d, [], rfl, fun e he => absurd he List.not_mem_nil⟩

/-- The reader of the compiler that the project is built with. -/
def msvc : Reader where
  escape := escape
  long := false
  digits := escape_digits
  escape_backslash _ := rfl
  escape_nul rest hrest := by
    have hnone : (rest.take 2).takeWhile (fun d => IsOctal d) = [] := by
      cases rest with
      | nil => rfl
      | cons c rest =>
          have hc : ¬ IsOctal c := hrest c rfl
          simp [hc]
    rw [escape, if_pos (by decide)]
    simp only [hnone]
    rfl

end TestCodes.CharLiteral
