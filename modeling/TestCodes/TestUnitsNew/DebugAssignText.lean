import TestCodes.TestUnitsNew.DebugAssignments

/-! The text of the assignments that `DebugAssignString` generates. -/
namespace TestCodes.TestUnitsNew
open CharLiteral (Reader Plain plain_of_all IsHex quote backslash msvc)

/-- The text is a list of assignments with "&" between them, and holds no null. -/
def WellFormed (R : Reader) (pointStr text : List UInt8) : Prop :=
  0 ∉ text ∧ ∃ as : List Assignment, as ≠ [] ∧ (∀ a ∈ as, R.IsLiteral a.literal) ∧
    text = [0x26].intercalate (as.map (Assignment.text pointStr))

variable {R : Reader} {pointStr : List UInt8}

theorem joined_text (pointStr : List UInt8) (as : List Assignment) :
    (joined as).flatMap (Piece.text pointStr) =
      [0x26].intercalate (as.map (Assignment.text pointStr)) := by
  induction as with
  | nil => rfl
  | cons a as ih =>
      cases as with
      | nil =>
          rw [List.map_singleton, List.intercalate_singleton]
          exact List.append_nil _
      | cons b bs =>
          simp only [List.map_cons] at ih ⊢
          rw [List.intercalate_cons_cons, ← ih, List.append_assoc]
          rfl

def furtherText (pointStr : List UInt8) (as : List Assignment) : List UInt8 :=
  as.flatMap fun a => 0x26 :: a.text pointStr

theorem intercalate_text (a : Assignment) (as : List Assignment) :
    [0x26].intercalate ((a :: as).map (Assignment.text pointStr)) =
      a.text pointStr ++ furtherText pointStr as := by
  induction as generalizing a with
  | nil =>
      rw [List.map_singleton, List.intercalate_singleton]
      exact (List.append_nil _).symm
  | cons b bs ih =>
      rw [List.map_cons, List.map_cons, List.intercalate_cons_cons, ← List.map_cons, ih,
        List.append_assoc]
      rfl

/-! A text of assignments is that of one list of literals only. -/

theorem append_cons_inj {x y u v : List UInt8} {c : UInt8} (hx : c ∉ x) (hy : c ∉ y)
    (h : x ++ c :: u = y ++ c :: v) : x = y ∧ u = v := by
  induction x generalizing y with
  | nil =>
      cases y with
      | nil => exact ⟨rfl, (List.cons.inj h).2⟩
      | cons d y => exact absurd ((List.cons.inj h).1 ▸ List.mem_cons_self) hy
  | cons d x ih =>
      cases y with
      | nil => exact absurd ((List.cons.inj h).1 ▸ List.mem_cons_self) hx
      | cons e y =>
          obtain ⟨rfl, htail⟩ := List.cons.inj h
          obtain ⟨rfl, rfl⟩ := ih (fun h => hx (List.mem_cons_of_mem d h))
            (fun h => hy (List.mem_cons_of_mem d h)) htail
          exact ⟨rfl, rfl⟩

/-- ")&(*((", between two assignments. -/
def between : List UInt8 :=
  [0x29, 0x26, 0x28, 0x2A, 0x28, 0x28]

/-- A quote that an escape has taken is not followed by the next assignment. -/
theorem not_escaped {cs x w : List UInt8} (h : R.chars (x ++ quote :: (between ++ w)) = some cs) :
    4 < cs.length := by
  have hhex : ∀ d ∈ (quote :: (between ++ w)).head?, ¬ IsHex d := by
    rintro d ⟨⟩
    decide
  obtain ⟨cs₁, cs₂, rfl, hread | ⟨-, hread⟩⟩ := Reader.chars_split hhex h
  · rw [Reader.chars_quote] at hread
    cases hread
  rw [Reader.chars_backslash] at hread
  obtain ⟨⟨d, rest⟩, hescape, hrest⟩ := Option.bind_eq_some_iff.mp hread
  obtain ⟨e, es, htext, hes⟩ := R.digits hescape
  obtain ⟨-, htail⟩ := List.cons.inj htext
  have hnone : es = [] := by
    cases es with
    | nil => rfl
    | cons f es =>
        obtain ⟨rfl, -⟩ := List.cons.inj htail
        exact absurd (hes 0x29 List.mem_cons_self) (by decide)
  rw [hnone, List.nil_append] at htail
  rw [← htail, Reader.chars_append_plain (plain_of_all (by decide))] at hrest
  obtain ⟨ds, hds, rfl⟩ := Option.map_eq_some_iff.mp hrest
  obtain ⟨fs, -, rfl⟩ := Option.map_eq_some_iff.mp hds
  simp only [List.length_append, List.length_cons, between]
  omega

theorem literal_of_text {literal literal' u v : List UInt8} (hquote : quote ∉ literal)
    (hliteral' : R.IsLiteral literal')
    (hu : u = [] ∨ ∃ w, 0x29 :: u = between ++ w)
    (h : literal ++ quote :: 0x29 :: u = literal' ++ quote :: 0x29 :: v) :
    literal = literal' ∧ u = v := by
  by_cases hquote' : quote ∈ literal'
  · exfalso
    obtain ⟨x, y, rfl, hx⟩ := List.eq_append_cons_of_mem hquote'
    rw [List.append_assoc, List.cons_append] at h
    obtain ⟨rfl, hbehind⟩ := append_cons_inj hquote hx h
    rcases hu with rfl | ⟨w, hw⟩
    · have hlen := congrArg List.length hbehind
      simp only [List.length_append, List.length_cons, List.length_nil] at hlen
      omega
    · obtain ⟨cs, hread, -, hle⟩ := hliteral'
      have hy : ∃ z, y = between ++ z := by
        rw [hw] at hbehind
        rcases List.append_eq_append_iff.mp hbehind with ⟨z, rfl, -⟩ | ⟨z, hz, hrest⟩
        · exact ⟨z, rfl⟩
        · cases z with
          | nil => exact ⟨[], by rw [hz, List.append_nil, List.append_nil]⟩
          | cons c z =>
              obtain ⟨rfl, -⟩ := List.cons.inj hrest
              have hmem : quote ∈ between := hz ▸ List.mem_append_right y List.mem_cons_self
              exact absurd hmem (by decide)
      obtain ⟨z, rfl⟩ := hy
      exact absurd (not_escaped hread) (Nat.not_lt.mpr hle)
  · obtain ⟨rfl, hbehind⟩ := append_cons_inj hquote hquote' h
    exact ⟨rfl, (List.cons.inj hbehind).2⟩

theorem furtherText_cases (pointStr : List UInt8) (as : List Assignment) :
    furtherText pointStr as = [] ∨ ∃ w, 0x29 :: furtherText pointStr as = between ++ w := by
  cases as with
  | nil => exact .inl rfl
  | cons a as => exact .inr ⟨_, rfl⟩

theorem literal_of_append {a b : Assignment} {u v : List UInt8}
    (h : a.text pointStr ++ u = b.text pointStr ++ v) :
    a.literal ++ quote :: 0x29 :: u = b.literal ++ quote :: 0x29 :: v := by
  have hname : ∀ type : AssignType, (0x2A : UInt8) ∉ type.name := by
    intro type
    cases type <;> decide
  have hdecimal : ∀ n, (0x5D : UInt8) ∉ decimal n :=
    fun n h => absurd (decimal_digit h).2 (by decide)
  simp only [Assignment.text, List.append_assoc, List.cons_append, List.nil_append,
    List.cons.injEq, true_and] at h
  obtain ⟨-, h⟩ := append_cons_inj (hname a.type) (hname b.type) h
  simp only [List.cons.injEq, true_and, List.append_cancel_left_eq] at h
  obtain ⟨-, h⟩ := append_cons_inj (hdecimal a.assignIdx) (hdecimal b.assignIdx) h
  simpa only [List.cons.injEq, true_and] using h

theorem isLiteral_of_further {a b : Assignment} {as bs : List Assignment}
    (has : ∀ c ∈ a :: as, quote ∉ c.literal) (hbs : ∀ c ∈ b :: bs, R.IsLiteral c.literal)
    (h : a.text pointStr ++ furtherText pointStr as = b.text pointStr ++ furtherText pointStr bs) :
    ∀ c ∈ a :: as, R.IsLiteral c.literal := by
  induction as generalizing a b bs with
  | nil =>
      obtain ⟨hsame, -⟩ := literal_of_text (has a List.mem_cons_self) (hbs b List.mem_cons_self)
        (furtherText_cases pointStr []) (literal_of_append h)
      exact List.forall_mem_singleton.mpr (hsame ▸ hbs b List.mem_cons_self)
  | cons a' as ih =>
      obtain ⟨hsame, hfurther⟩ := literal_of_text (has a List.mem_cons_self)
        (hbs b List.mem_cons_self) (furtherText_cases pointStr (a' :: as)) (literal_of_append h)
      cases bs with
      | nil => cases hfurther
      | cons b' bs =>
          have htail := ih (fun c hc => has c (List.mem_cons_of_mem a hc))
            (fun c hc => hbs c (List.mem_cons_of_mem b hc)) (List.cons.inj hfurther).2
          exact List.forall_mem_cons.mpr ⟨hsame ▸ hbs b List.mem_cons_self, htail⟩

/-- However the text is split into assignments, its literals are the same. -/
theorem WellFormed.isLiteral {as : List Assignment} (has : ∀ a ∈ as, quote ∉ a.literal)
    (h : WellFormed R pointStr ([0x26].intercalate (as.map (Assignment.text pointStr)))) :
    ∀ a ∈ as, R.IsLiteral a.literal := by
  obtain ⟨-, bs, hbs, hliteral, htext⟩ := h
  cases as with
  | nil => exact fun a ha => absurd ha List.not_mem_nil
  | cons a as =>
      cases bs with
      | nil => exact absurd rfl hbs
      | cons b bs =>
          rw [intercalate_text, intercalate_text] at htext
          exact isLiteral_of_further has hliteral htext

/-! The nulls and the quotes of a text. -/

theorem text_getLast (pointStr : List UInt8) (a : Assignment) :
    (a.text pointStr).getLast? = some 0x29 := by
  rw [Assignment.text, List.getLast?_append]
  rfl

theorem furtherText_getLast {as : List Assignment} (hne : as ≠ []) :
    (furtherText pointStr as).getLast? = some 0x29 := by
  rcases List.eq_nil_or_concat' as with rfl | ⟨as, a, rfl⟩
  · exact absurd rfl hne
  · rw [furtherText, List.flatMap_append, List.getLast?_append, List.flatMap_singleton,
      List.getLast?_cons, text_getLast]
    rfl

theorem WellFormed.getLast {text : List UInt8} (h : WellFormed R pointStr text) :
    text.getLast? = some 0x29 := by
  obtain ⟨-, as, hne, -, rfl⟩ := h
  cases as with
  | nil => exact absurd rfl hne
  | cons a as =>
      rw [intercalate_text, List.getLast?_append, text_getLast]
      by_cases has : as = []
      · rw [has]
        rfl
      · rw [furtherText_getLast has]
        rfl

theorem mem_intercalate {sep : List UInt8} {c : UInt8} (hc : c ∉ sep)
    {texts : List (List UInt8)} : c ∈ sep.intercalate texts ↔ ∃ text ∈ texts, c ∈ text := by
  induction texts with
  | nil => simp
  | cons text texts ih =>
      cases texts with
      | nil => simp
      | cons next texts =>
          rw [List.intercalate_cons_cons, List.mem_append, List.mem_append, ih]
          simp only [hc, or_false, List.exists_mem_cons_iff]

theorem mem_strValue {buffer : List UInt8} {c : UInt8} (h : c ∈ strValue buffer) :
    c ∈ buffer ∨ c ∈ escapedNul := by
  obtain ⟨cCur, hcur, hc⟩ := List.mem_flatMap.mp h
  rw [List.mem_reverse] at hcur
  split at hc
  · rcases List.mem_append.mp hc with hc | hc
    · exact .inr hc
    · exact .inl (List.mem_singleton.mp hc ▸ hcur)
  · exact .inl (List.mem_singleton.mp hc ▸ hcur)

theorem zero_mem_strValue {buffer : List UInt8} : 0 ∈ strValue buffer ↔ 0 ∈ buffer := by
  constructor
  · intro h
    exact (mem_strValue h).resolve_right (by decide)
  · intro h
    exact List.mem_flatMap.mpr ⟨0, List.mem_reverse.mpr h, by simp⟩

theorem zero_mem_text {a : Assignment} :
    0 ∈ a.text pointStr ↔ 0 ∈ pointStr ∨ 0 ∈ a.literal := by
  have hname : 0 ∉ a.type.name := by cases a.type <;> decide
  have hdecimal : 0 ∉ decimal a.assignIdx := fun h => absurd (decimal_digit h).1 (by decide)
  have hquote : (0 : UInt8) ≠ quote := by decide
  simp [Assignment.text, hname, hdecimal, hquote]

theorem debugText_eq (uninit : UInt8) (pointStr : List UInt8) {lenOfPtr : UInt32}
    (hlen : lenOfPtr ≠ 0) (toAssign : StdString) :
    debugText uninit pointStr lenOfPtr toAssign =
      [0x26].intercalate ((assigned uninit toAssign.bytes 0 lenOfPtr.toNat).map
        (Assignment.text pointStr)) ++
      (trailing toAssign.bytes lenOfPtr.toNat).flatMap (Piece.text pointStr) := by
  rw [debugText, debugAssign, assignLoop_eq, List.drop_zero, assignRest_eq uninit _ 0 hlen,
    List.flatMap_append, joined_text]

theorem zero_mem_chunk {rest : List UInt8} (hnul : 0 ∉ rest) (assignIdx : ℕ) :
    0 ∈ (chunk rest assignIdx).literal ↔ rest.length < 4 := by
  have htake : 0 ∉ rest.take 4 := fun h => hnul (List.mem_of_mem_take h)
  change 0 ∈ strValue _ ↔ _
  rw [zero_mem_strValue, List.mem_append, or_iff_right htake, List.mem_replicate,
    and_iff_left rfl]
  omega

theorem chunks_no_zero {rest : List UInt8} (hnul : 0 ∉ rest) (assignIdx : ℕ) :
    (∀ a ∈ chunks rest assignIdx, 0 ∉ a.literal) ↔ rest.length % 4 = 0 := by
  induction rest, assignIdx using chunks.induct with
  | case1 assignIdx => simp [chunks_nil]
  | case2 rest assignIdx hrest ih =>
      have hpos : 0 < rest.length := List.length_pos_iff.mpr hrest
      rw [chunks_of_ne_nil hrest, List.forall_mem_cons, zero_mem_chunk hnul,
        ih fun h => hnul (List.mem_of_mem_drop h), List.length_drop]
      omega

theorem lastThree_literal {uninit : UInt8} {rest : List UInt8} (hrest : 2 ≤ rest.length)
    {assignIdx : ℕ} {a : Assignment} (ha : a ∈ lastThree uninit rest assignIdx) {c : UInt8}
    (hc : c ∈ a.literal) : c ∈ rest ∨ c ∈ escapedNul := by
  rcases List.mem_cons.mp ha with rfl | ha
  · rcases mem_strValue hc with h | h
    · rw [take_two_written hrest] at h
      exact .inl (List.mem_of_mem_take h)
    · exact .inr h
  · rw [List.mem_singleton.mp ha] at hc
    exact .inr hc

theorem lastThree_no_zero {rest : List UInt8} (hnul : 0 ∉ rest) (hrest : rest ≠ [])
    (assignIdx : ℕ) :
    (∀ uninit, ∀ a ∈ lastThree uninit rest assignIdx, 0 ∉ a.literal) ↔ 2 ≤ rest.length := by
  constructor
  · intro h
    by_contra hlt
    have hone : rest.length = 1 := by
      have hpos : 0 < rest.length := List.length_pos_iff.mpr hrest
      omega
    obtain ⟨c, rfl⟩ := List.length_eq_one_iff.mp hone
    exact h 0 _ List.mem_cons_self (zero_mem_strValue.mpr (by simp))
  · intro h uninit a ha hzero
    rcases lastThree_literal h ha hzero with hz | hz
    · exact hnul hz
    · exact absurd hz (by decide)

/-- The lengths with which the text ends as it should: the string's last assignment takes
four characters, or the last two of three bytes take two, and the bytes do not run out
behind an "&". -/
def Ends (lenOfPtr length : ℕ) : Prop :=
  if lenOfPtr % 4 = 3 ∧ lenOfPtr < length + 3 then lenOfPtr ≤ length + 1
  else length % 4 = 0 ∧ (lenOfPtr % 4 = 0 → length ≤ lenOfPtr)

theorem ends_iff {toAssign : List UInt8} (hnul : 0 ∉ toAssign) (n : ℕ) :
    (∀ uninit, ∀ a ∈ assigned uninit toAssign 0 n, 0 ∉ a.literal) ∧ trailing toAssign n = [] ↔
      Ends n toAssign.length := by
  have htake : ∀ k, 0 ∉ toAssign.take k := fun k h => hnul (List.mem_of_mem_take h)
  have hamp : trailing toAssign n = [] ↔ (n % 4 = 0 → toAssign.length ≤ n) := by
    unfold trailing
    split <;> simp <;> omega
  rw [hamp]
  unfold Ends assigned
  by_cases h0 : n % 4 = 0
  · have h3 : ¬ (n % 4 = 3 ∧ n < toAssign.length + 3) := by omega
    simp only [if_pos h0, if_neg h3, chunks_no_zero (htake n), List.length_take]
    rw [forall_const]
    omega
  simp only [if_neg h0]
  by_cases h3 : n % 4 = 3 ∧ n < toAssign.length + 3
  · have hdrop : 0 ∉ toAssign.drop (n - 3) := fun h => hnul (List.mem_of_mem_drop h)
    have hne : toAssign.drop (n - 3) ≠ [] := by
      rw [Ne, List.drop_eq_nil_iff]
      omega
    simp only [if_pos h3, List.forall_mem_append, chunks_no_zero (htake (n - 3)), forall_and,
      lastThree_no_zero hdrop hne, List.length_take, List.length_drop, forall_const]
    omega
  · simp only [if_neg h3, chunks_no_zero hnul]
    rw [forall_const]

theorem zero_mem_debugText {uninit : UInt8} {lenOfPtr : UInt32}
    (hlen : lenOfPtr ≠ 0) {toAssign : StdString} :
    0 ∈ debugText uninit pointStr lenOfPtr toAssign ↔
      ∃ a ∈ assigned uninit toAssign.bytes 0 lenOfPtr.toNat, 0 ∈ pointStr ∨ 0 ∈ a.literal := by
  have hamp : (0 : UInt8) ∉
      (trailing toAssign.bytes lenOfPtr.toNat).flatMap (Piece.text pointStr) := by
    unfold trailing
    split <;> simp [Piece.text]
  rw [debugText_eq uninit pointStr hlen, List.mem_append, or_iff_left hamp,
    mem_intercalate (by decide)]
  simp only [List.mem_map, exists_exists_and_eq_and, zero_mem_text]

/-! The literals of a text without nulls and quotes. -/

/-- The characters, which stand the other way round in a literal, are those of one. -/
def Lexes (R : Reader) (characters : List UInt8) : Prop :=
  (R.chars characters.reverse).isSome

instance (R : Reader) (characters : List UInt8) : Decidable (Lexes R characters) :=
  inferInstanceAs (Decidable ((R.chars characters.reverse).isSome = true))

theorem lexes_nil : Lexes R [] := by
  rw [Lexes, List.reverse_nil, Reader.chars_nil]
  rfl

theorem lexes_iff {characters : List UInt8} (hnul : 0 ∉ characters) (hne : characters ≠ [])
    (hle : characters.length ≤ 4) : R.IsLiteral (strValue characters) ↔ Lexes R characters := by
  rw [strValue_of_not_mem hnul, Lexes, Option.isSome_iff_exists]
  constructor
  · rintro ⟨cs, hread, -, -⟩
    exact ⟨cs, hread⟩
  · rintro ⟨cs, hread⟩
    refine ⟨cs, hread, ?_, (length_of_reverse_read hread).trans hle⟩
    rintro rfl
    exact hne (List.reverse_eq_nil_iff.mp (Reader.eq_nil_of_chars hread))

theorem isLiteral_escapedNul : R.IsLiteral escapedNul :=
  ⟨_, chars_escapedNul, List.cons_ne_nil _ _, by decide⟩

theorem chunks_lex {rest : List UInt8} (hnul : 0 ∉ rest) (hmod : rest.length % 4 = 0)
    (assignIdx : ℕ) : (∀ a ∈ chunks rest assignIdx, R.IsLiteral a.literal) ↔
      ∀ k, Lexes R (group rest k) := by
  induction rest, assignIdx using chunks.induct with
  | case1 assignIdx =>
      refine iff_of_true (fun a ha => ?_) fun k => ?_
      · rw [chunks_nil] at ha
        cases ha
      · rw [group, List.drop_nil, List.take_nil]
        exact lexes_nil
  | case2 rest assignIdx hrest ih =>
      have hpos : 0 < rest.length := List.length_pos_iff.mpr hrest
      have hlen : (rest.take 4).length = 4 := length_take_four (by omega)
      have hliteral : (chunk rest assignIdx).literal = strValue (rest.take 4) := by
        change strValue (rest.take 4 ++ List.replicate (4 - rest.length) 0) = _
        rw [Nat.sub_eq_zero_of_le (by omega), List.replicate_zero, List.append_nil]
      rw [chunks_of_ne_nil hrest, List.forall_mem_cons, forall_groups (Lexes R) rest, hliteral,
        lexes_iff (fun h => hnul (List.mem_of_mem_take h))
          (List.ne_nil_of_length_pos (by omega)) hlen.le,
        ih (fun h => hnul (List.mem_of_mem_drop h)) (by rw [List.length_drop]; omega)]

theorem lastThree_lex {rest : List UInt8} (hnul : 0 ∉ rest) (hrest : 2 ≤ rest.length)
    (uninit : UInt8) (assignIdx : ℕ) :
    (∀ a ∈ lastThree uninit rest assignIdx, R.IsLiteral a.literal) ↔ Lexes R (rest.take 2) := by
  have hlen : (rest.take 2).length = 2 := by
    rw [List.length_take, Nat.min_eq_left hrest]
  rw [lastThree, take_two_written hrest, List.forall_mem_cons, List.forall_mem_singleton,
    lexes_iff (fun h => hnul (List.mem_of_mem_take h)) (List.ne_nil_of_length_pos (by omega))
      (by omega)]
  exact and_iff_left isLiteral_escapedNul

theorem assigned_lex {toAssign : List UInt8} (hnul : 0 ∉ toAssign) {n : ℕ}
    (hends : Ends n toAssign.length) (uninit : UInt8) :
    (∀ a ∈ assigned uninit toAssign 0 n, R.IsLiteral a.literal) ↔
      (∀ k, Lexes R (group (byFours n toAssign) k)) ∧ Lexes R (lastTwo n toAssign) := by
  unfold Ends at hends
  unfold assigned byFours lastTwo
  by_cases h3 : n % 4 = 3 ∧ n < toAssign.length + 3
  · have h0 : n % 4 ≠ 0 := by omega
    rw [if_pos h3] at hends
    simp only [if_neg h0, if_pos h3]
    rw [List.forall_mem_append, chunks_lex (fun h => hnul (List.mem_of_mem_take h)),
      lastThree_lex (fun h => hnul (List.mem_of_mem_drop h))]
    · rw [List.length_drop]
      omega
    · rw [List.length_take]
      omega
  · rw [if_neg h3] at hends
    simp only [if_neg h3]
    rw [and_iff_left lexes_nil]
    split
    · rename_i h0
      rw [List.take_of_length_le (hends.2 h0)]
      exact chunks_lex hnul hends.1 0
    · exact chunks_lex hnul hends.1 0

theorem mem_assigned {uninit : UInt8} {toAssign : List UInt8} {n : ℕ}
    (hends : Ends n toAssign.length) {a : Assignment} (ha : a ∈ assigned uninit toAssign 0 n)
    {c : UInt8} (hc : c ∈ a.literal) : c ∈ toAssign ∨ c ∈ escapedNul ∨ c = 0 := by
  have hchunk : ∀ {rest : List UInt8}, a ∈ chunks rest 0 → c ∈ rest ∨ c ∈ escapedNul ∨ c = 0 := by
    intro rest ha
    obtain ⟨k, -, rfl⟩ := mem_chunks ha
    rcases mem_strValue hc with h | h
    · rcases List.mem_append.mp h with h | h
      · exact .inl (List.mem_of_mem_drop (List.mem_of_mem_take h))
      · exact .inr (.inr (List.eq_of_mem_replicate h))
    · exact .inr (.inl h)
  unfold assigned at ha
  unfold Ends at hends
  split at ha
  · exact (hchunk ha).imp_left List.mem_of_mem_take
  split at ha
  · rename_i h0 h3
    rw [if_pos h3] at hends
    rcases List.mem_append.mp ha with ha | ha
    · exact (hchunk ha).imp_left List.mem_of_mem_take
    · have htwo : 2 ≤ (toAssign.drop (n - 3)).length := by
        rw [List.length_drop]
        omega
      exact (lastThree_literal htwo ha hc).imp List.mem_of_mem_drop .inl
  · exact hchunk ha

theorem assigned_no_quote {uninit : UInt8} {toAssign : List UInt8} (hquote : quote ∉ toAssign)
    {n : ℕ} (hends : Ends n toAssign.length) {a : Assignment}
    (ha : a ∈ assigned uninit toAssign 0 n) : quote ∉ a.literal := by
  intro h
  rcases mem_assigned hends ha h with h | h | h
  · exact hquote h
  · exact absurd h (by decide)
  · exact absurd h (by decide)

theorem trailing_of_wellFormed {uninit : UInt8} {lenOfPtr : UInt32} (hlen : lenOfPtr ≠ 0)
    {toAssign : StdString}
    (h : WellFormed R pointStr (debugText uninit pointStr lenOfPtr toAssign)) :
    trailing toAssign.bytes lenOfPtr.toNat = [] := by
  by_contra hamp
  have hlast := h.getLast
  have htrailing : trailing toAssign.bytes lenOfPtr.toNat = [.amp] := by
    unfold trailing at hamp ⊢
    split at hamp
    · exact if_pos ‹_›
    · exact absurd rfl hamp
  rw [debugText_eq uninit pointStr hlen, htrailing, List.getLast?_append] at hlast
  change some (0x26 : UInt8) = some 0x29 at hlast
  exact absurd (Option.some.inj hlast) (by decide)

theorem ends_of_wellFormed {lenOfPtr : UInt32} (hlen : lenOfPtr ≠ 0) {toAssign : StdString}
    (hnul : 0 ∉ toAssign.bytes)
    (h : ∀ uninit, WellFormed R pointStr (debugText uninit pointStr lenOfPtr toAssign)) :
    Ends lenOfPtr.toNat toAssign.bytes.length := by
  refine (ends_iff hnul _).mp ⟨?_, trailing_of_wellFormed hlen (h 0)⟩
  intro uninit a ha hz
  exact (h uninit).1 ((zero_mem_debugText hlen).mpr ⟨a, ha, .inr hz⟩)

theorem debugText_of_ends (uninit : UInt8) (pointStr : List UInt8) {lenOfPtr : UInt32}
    (hlen : lenOfPtr ≠ 0) {toAssign : StdString} (hnul : 0 ∉ toAssign.bytes)
    (hends : Ends lenOfPtr.toNat toAssign.bytes.length) :
    debugText uninit pointStr lenOfPtr toAssign =
      [0x26].intercalate ((assigned uninit toAssign.bytes 0 lenOfPtr.toNat).map
        (Assignment.text pointStr)) := by
  rw [debugText_eq uninit pointStr hlen, ((ends_iff hnul _).mpr hends).2]
  exact List.append_nil _

theorem well_formed_iff (R : Reader) {lenOfPtr : UInt32} (hlen : lenOfPtr ≠ 0)
    (pointStr : List UInt8) {toAssign : StdString} (hne : toAssign.bytes ≠ [])
    (hnul : 0 ∉ toAssign.bytes) (hquote : quote ∉ toAssign.bytes) :
    (∀ uninit, WellFormed R pointStr (debugText uninit pointStr lenOfPtr toAssign)) ↔
      0 ∉ pointStr ∧ Ends lenOfPtr.toNat toAssign.bytes.length ∧
        (∀ k, Lexes R (group (byFours lenOfPtr.toNat toAssign.bytes) k)) ∧
          Lexes R (lastTwo lenOfPtr.toNat toAssign.bytes) := by
  have hpos : lenOfPtr.toNat ≠ 0 := fun h => hlen (UInt32.toNat_inj.mp h)
  have hsome : ∀ uninit, assigned uninit toAssign.bytes 0 lenOfPtr.toNat ≠ [] :=
    fun uninit => assigned_ne_nil uninit hne 0 hpos
  constructor
  · intro h
    have hends := ends_of_wellFormed hlen hnul h
    have hwell := h 0
    rw [debugText_of_ends 0 pointStr hlen hnul hends] at hwell
    have hliteral := hwell.isLiteral fun a ha => assigned_no_quote hquote hends ha
    refine ⟨fun hz => ?_, hends, (assigned_lex hnul hends 0).mp hliteral⟩
    obtain ⟨a, ha⟩ := List.exists_mem_of_ne_nil _ (hsome 0)
    exact (h 0).1 ((zero_mem_debugText hlen).mpr ⟨a, ha, .inl hz⟩)
  · rintro ⟨hpoint, hends, hlexes⟩ uninit
    obtain ⟨hzero, -⟩ := (ends_iff hnul _).mpr hends
    constructor
    · intro hz
      obtain ⟨a, ha, hz⟩ := (zero_mem_debugText hlen).mp hz
      exact hz.elim hpoint (hzero uninit a ha)
    · exact ⟨_, hsome uninit, (assigned_lex hnul hends uninit).mpr hlexes,
        debugText_of_ends uninit pointStr hlen hnul hends⟩

theorem lexes_of_plain {characters : List UInt8} (h : ∀ c ∈ characters, Plain c) :
    Lexes R characters := by
  rw [Lexes, Reader.chars_of_plain fun c hc => h c (List.mem_reverse.mp hc)]
  rfl

theorem well_formed_myNameIsDennies : (19 : UInt32) ≠ 0 ∧ ∀ uninit,
    WellFormed msvc m_szToCharName (debugText uninit m_szToCharName 19 myNameIsDennies) := by
  refine ⟨by decide, ?_⟩
  apply (well_formed_iff msvc (by decide) m_szToCharName (by decide) (by decide) (by decide)).mpr
  have hplain : ∀ c ∈ myNameIsDennies.bytes, Plain c := plain_of_all (by decide)
  refine ⟨by decide, ?_, fun k => lexes_of_plain fun c hc => hplain c ?_,
    lexes_of_plain (plain_of_all (by decide))⟩
  · unfold Ends
    decide
  · exact List.mem_of_mem_take (List.mem_of_mem_drop (List.mem_of_mem_take hc))

/-- `DoWork`'s own text ends in an "&". -/
theorem doWork_not_well_formed :
    ¬ WellFormed msvc m_szToCharName (debugText 0 m_szToCharName 16 myNameIsDennies) := by
  intro h
  have htrailing : trailing myNameIsDennies.bytes (16 : UInt32).toNat = [.amp] := rfl
  rw [trailing_of_wellFormed (by decide) h] at htrailing
  cases htrailing

end TestCodes.TestUnitsNew
