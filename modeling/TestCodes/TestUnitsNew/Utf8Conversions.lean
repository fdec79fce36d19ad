import TestCodes.TestUnitsNew.Utf8Checked

/-! utf8/checked.h: the conversions between UTF-8, UTF-16 and UTF-32. -/
namespace TestCodes.TestUnitsNew.Utf8
open Unicode

def codePoint16 (start : List UInt16) : Except Exception (UInt32 × List UInt16) :=
  let cp := (mask16 (start.headD 0)).toUInt32
  let start := start.tail
  -- Take care of surrogate pairs first
  if isLeadSurrogate cp then
    if start ≠ [] then
      let trailSurrogate := (mask16 (start.headD 0)).toUInt32
      let start := start.tail
      if isTrailSurrogate trailSurrogate then
        .ok ((cp <<< (10 : UInt32)) + trailSurrogate + SURROGATE_OFFSET, start)
      else .error (.invalidUtf16 trailSurrogate.toUInt16)
    else .error (.invalidUtf16 cp.toUInt16)
  -- Lone trail surrogate
  else if isTrailSurrogate cp then .error (.invalidUtf16 cp.toUInt16)
  else .ok (cp, start)

def words (cp : UInt32) : List UInt16 :=
  if cp > 0xffff then
    [((cp >>> 10) + LEAD_OFFSET).toUInt16, ((cp &&& 0x3ff) + TRAIL_SURROGATE_MIN).toUInt16]
  else [cp.toUInt16]

section Surrogates

theorem isLeadSurrogate_iff (w : UInt16) :
    isLeadSurrogate w.toUInt32 = true ↔ 0xd800 ≤ w.toNat ∧ w.toNat < 0xdc00 := by
  simp only [isLeadSurrogate, LEAD_SURROGATE_MIN, LEAD_SURROGATE_MAX, Bool.and_eq_true,
    decide_eq_true_iff, UInt32.le_iff_toNat_le, UInt16.toNat_toUInt32]
  change 0xd800 ≤ w.toNat ∧ w.toNat ≤ 0xdbff ↔ _
  omega

theorem isTrailSurrogate_iff (w : UInt16) :
    isTrailSurrogate w.toUInt32 = true ↔ 0xdc00 ≤ w.toNat ∧ w.toNat < 0xe000 := by
  simp only [isTrailSurrogate, TRAIL_SURROGATE_MIN, TRAIL_SURROGATE_MAX, Bool.and_eq_true,
    decide_eq_true_iff, UInt32.le_iff_toNat_le, UInt16.toNat_toUInt32]
  change 0xdc00 ≤ w.toNat ∧ w.toNat ≤ 0xdfff ↔ _
  omega

theorem toNat_pair (w v : UInt16) (hw : 0xd800 ≤ w.toNat ∧ w.toNat < 0xdc00)
    (hv : 0xdc00 ≤ v.toNat ∧ v.toNat < 0xe000) :
    ((w.toUInt32 <<< (10 : UInt32)) + v.toUInt32 + SURROGATE_OFFSET).toNat =
      0x10000 + (w.toNat - 0xd800) * 1024 + (v.toNat - 0xdc00) := by
  have hoffset : SURROGATE_OFFSET.toNat = 4238353408 := by decide
  have hten : (10 : UInt32).toNat = 10 := by decide
  rw [UInt32.toNat_add, UInt32.toNat_add, UInt32.toNat_shiftLeft, UInt16.toNat_toUInt32,
    UInt16.toNat_toUInt32, Nat.shiftLeft_eq, hoffset, hten]
  simp only [Nat.reduceMod, Nat.reducePow]
  omega

theorem encodeChar16_eq_iff {c : Char} {ws : List UInt16} :
    encodeChar16 c = ws ↔ (encodeChar16 c).map UInt16.toNat = ws.map UInt16.toNat :=
  (List.map_inj_right fun _ _ => UInt16.toNat.inj).symm

theorem encodeChar16_one {c : Char} {w : UInt16} :
    encodeChar16 c = [w] ↔ c.val = w.toUInt32 := by
  have hw := w.toNat_lt
  rw [encodeChar16_eq_iff, toNat_encodeChar16, val_eq_iff, UInt16.toNat_toUInt32]
  split_ifs <;> simp
  omega

theorem encodeChar16_two {c : Char} {w v : UInt16} :
    encodeChar16 c = [w, v] ↔ isLeadSurrogate w.toUInt32 = true ∧
      isTrailSurrogate v.toUInt32 = true ∧
        c.val = (w.toUInt32 <<< (10 : UInt32)) + v.toUInt32 + SURROGATE_OFFSET := by
  have hc := toNat_valid c
  rw [encodeChar16_eq_iff, toNat_encodeChar16, val_eq_iff, isLeadSurrogate_iff,
    isTrailSurrogate_iff]
  constructor
  · intro h
    split_ifs at h
    · simp at h
    · simp only [List.map_cons, List.map_nil, List.cons.injEq, and_true] at h
      have hw : 0xd800 ≤ w.toNat ∧ w.toNat < 0xdc00 := by omega
      have hv : 0xdc00 ≤ v.toNat ∧ v.toNat < 0xe000 := by omega
      rw [toNat_pair w v hw hv]
      omega
  · rintro ⟨hw, hv, h⟩
    rw [toNat_pair w v hw hv] at h
    rw [if_neg (by omega)]
    simp only [List.map_cons, List.map_nil, List.cons.injEq, and_true]
    omega

theorem encodeChar16_cases (c : Char) :
    (∃ w, encodeChar16 c = [w]) ∨ ∃ w v, encodeChar16 c = [w, v] := by
  unfold encodeChar16
  split_ifs
  · exact .inl ⟨_, rfl⟩
  · exact .inr ⟨_, _, rfl⟩

theorem encodeChar16_ne_nil (c : Char) : encodeChar16 c ≠ [] := by
  obtain ⟨w, hc⟩ | ⟨w, v, hc⟩ := encodeChar16_cases c <;> simp [hc]

end Surrogates

theorem codePoint16_eq_ok {start rest : List UInt16} {cp : UInt32} (hne : start ≠ []) :
    codePoint16 start = .ok (cp, rest) ↔
      ∃ c : Char, c.val = cp ∧ start = encodeChar16 c ++ rest := by
  obtain ⟨w, t, rfl⟩ := List.exists_cons_of_ne_nil hne
  simp only [codePoint16, mask16_eq, List.headD_cons, List.tail_cons]
  constructor
  · intro h
    split_ifs at h with hlead hmore htrail htrail
    · obtain ⟨v, t, rfl⟩ := List.exists_cons_of_ne_nil hmore
      rw [List.headD_cons] at htrail h
      obtain ⟨hval, rfl⟩ := Prod.mk.inj (Except.ok.inj h)
      have hw := (isLeadSurrogate_iff w).mp hlead
      have hv := (isTrailSurrogate_iff v).mp htrail
      have hpair := toNat_pair w v hw hv
      obtain ⟨c, hc⟩ := exists_char (n := 0x10000 + (w.toNat - 0xd800) * 1024 + (v.toNat - 0xdc00))
        (by omega)
      have hcp : c.val = (w.toUInt32 <<< (10 : UInt32)) + v.toUInt32 + SURROGATE_OFFSET :=
        val_eq_iff.mpr (hc.trans hpair.symm)
      exact ⟨c, hcp.trans hval, by rw [encodeChar16_two.mpr ⟨hlead, htrail, hcp⟩]; rfl⟩
    · obtain ⟨hval, rfl⟩ := Prod.mk.inj (Except.ok.inj h)
      rw [isLeadSurrogate_iff] at hlead
      rw [isTrailSurrogate_iff] at htrail
      have hw := w.toNat_lt
      obtain ⟨c, hc⟩ := exists_char (n := w.toNat) (by omega)
      have hcp : c.val = w.toUInt32 := val_eq_iff.mpr hc
      exact ⟨c, hcp.trans hval, by rw [encodeChar16_one.mpr hcp]; rfl⟩
  · rintro ⟨c, rfl, heq⟩
    obtain ⟨w', hc⟩ | ⟨w', v, hc⟩ := encodeChar16_cases c
    · rw [hc] at heq
      obtain ⟨rfl, rfl⟩ := List.cons.inj heq
      have hval := encodeChar16_one.mp hc
      have hvalid := toNat_valid c
      have hnat : c.toNat = w.toNat := (val_eq_iff.mp hval).trans w.toNat_toUInt32
      rw [if_neg (by rw [isLeadSurrogate_iff]; omega), if_neg (by rw [isTrailSurrogate_iff]; omega),
        hval]
    · rw [hc] at heq
      obtain ⟨rfl, rfl⟩ := List.cons.inj heq
      obtain ⟨hlead, htrail, hval⟩ := encodeChar16_two.mp hc
      simp [hlead, htrail, hval]

theorem words_char (c : Char) : words c.val = encodeChar16 c := by
  have hc := toNat_valid c
  have h0 : c.val.toNat = c.toNat := rfl
  have h10 : (c.val >>> 10).toNat = c.toNat / 1024 := toNat_shiftRight c.val 10 (by decide)
  have hlow : (c.val &&& 0x3ff).toNat = c.toNat % 1024 := toNat_and_mask c.val 0x3ff (n := 10) rfl
  have hlead : LEAD_OFFSET.toNat = 0xd7c0 := by decide
  have htrail : TRAIL_SURROGATE_MIN.toNat = 0xdc00 := by decide
  symm
  rw [encodeChar16_eq_iff, toNat_encodeChar16, words]
  by_cases hbmp : c.toNat < 0x10000
  · have hle : ¬ c.val > 0xffff := by
      rw [gt_iff_lt, UInt32.lt_iff_toNat_lt]
      exact Nat.not_lt.mpr (Nat.le_of_lt_succ hbmp)
    rw [if_pos hbmp, if_neg hle, List.map_singleton, UInt32.toNat_toUInt16, h0,
      Nat.mod_eq_of_lt hbmp]
  · have hgt : c.val > 0xffff := by
      rw [gt_iff_lt, UInt32.lt_iff_toNat_lt]
      exact Nat.lt_of_succ_le (Nat.not_lt.mp hbmp)
    rw [if_neg hbmp, if_pos hgt]
    simp only [List.map_cons, List.map_nil, UInt32.toNat_toUInt16, UInt32.toNat_add, h10, hlow,
      hlead, htrail, List.cons.injEq, and_true]
    omega

theorem tail_shorter {α : Type} {xs : List α} (hne : xs ≠ []) : xs.tail.length < xs.length := by
  have hpos := List.length_pos_iff.mpr hne
  rw [List.length_tail]
  omega

/-! The loops. -/

def utf8to32Body : Body Exception UInt8 UInt32 where
  step start result := do
    let (cp, start) ← next start
    return (start, result ++ [cp])
  shorter _ h := by
    obtain ⟨⟨cp, it⟩, hnext, hret⟩ := bind_eq_ok.mp h
    cases hret
    exact next_length hnext

def utf8to32 (start : List UInt8) (result : List UInt32) : List UInt32 × Option Exception :=
  utf8to32Body.loop start result

def utf32to8Body : Body Exception UInt32 UInt8 where
  step start result := do
    let result ← append (start.headD 0) result
    return (start.tail, result)
  shorter hne h := by
    obtain ⟨_, -, hret⟩ := bind_eq_ok.mp h
    cases hret
    exact tail_shorter hne

def utf32to8 (start : List UInt32) (result : List UInt8) : List UInt8 × Option Exception :=
  utf32to8Body.loop start result

def utf8to16Body : Body Exception UInt8 UInt16 where
  step start result := do
    let (cp, start) ← next start
    return (start, result ++ words cp)
  shorter _ h := by
    obtain ⟨⟨cp, it⟩, hnext, hret⟩ := bind_eq_ok.mp h
    cases hret
    exact next_length hnext

def utf8to16 (start : List UInt8) (result : List UInt16) : List UInt16 × Option Exception :=
  utf8to16Body.loop start result

def utf16to8Body : Body Exception UInt16 UInt8 where
  step start result := do
    let (cp, start) ← codePoint16 start
    let result ← append cp result
    return (start, result)
  shorter hne h := by
    obtain ⟨⟨cp, it⟩, hread, h⟩ := bind_eq_ok.mp h
    obtain ⟨_, -, hret⟩ := bind_eq_ok.mp h
    cases hret
    obtain ⟨c, -, rfl⟩ := (codePoint16_eq_ok hne).mp hread
    have hpos := List.length_pos_iff.mpr (encodeChar16_ne_nil c)
    rw [List.length_append]
    omega

def utf16to8 (start : List UInt16) (result : List UInt8) : List UInt8 × Option Exception :=
  utf16to8Body.loop start result

theorem utf8to32Body_transcodes :
    utf8to32Body.Transcodes String.utf8EncodeChar fun c => [c.val] where
  nonempty _ := String.utf8EncodeChar_ne_nil
  takes c rest out := bind_eq_ok.mpr ⟨_, next_eq_ok.mpr ⟨c, rfl, rfl⟩, rfl⟩
  only _ h := by
    obtain ⟨⟨cp, it⟩, hnext, hret⟩ := bind_eq_ok.mp h
    cases hret
    obtain ⟨c, rfl, rfl⟩ := next_eq_ok.mp hnext
    exact ⟨c, rfl, rfl⟩

theorem utf32to8Body_transcodes :
    utf32to8Body.Transcodes (fun c => [c.val]) String.utf8EncodeChar where
  nonempty _ := by simp
  takes c rest out := bind_eq_ok.mpr ⟨_, append_eq_ok.mpr ⟨c, rfl, rfl⟩, rfl⟩
  only hne h := by
    obtain ⟨_, happend, hret⟩ := bind_eq_ok.mp h
    cases hret
    obtain ⟨c, hc, rfl⟩ := append_eq_ok.mp happend
    obtain ⟨cp, t, rfl⟩ := List.exists_cons_of_ne_nil hne
    exact ⟨c, congrArg (· :: t) hc.symm, rfl⟩

theorem utf8to16Body_transcodes :
    utf8to16Body.Transcodes String.utf8EncodeChar encodeChar16 where
  nonempty _ := String.utf8EncodeChar_ne_nil
  takes c rest out := by
    rw [← words_char]
    exact bind_eq_ok.mpr ⟨_, next_eq_ok.mpr ⟨c, rfl, rfl⟩, rfl⟩
  only _ h := by
    obtain ⟨⟨cp, it⟩, hnext, hret⟩ := bind_eq_ok.mp h
    cases hret
    obtain ⟨c, rfl, rfl⟩ := next_eq_ok.mp hnext
    exact ⟨c, rfl, by rw [words_char]⟩

theorem utf16to8Body_transcodes :
    utf16to8Body.Transcodes encodeChar16 String.utf8EncodeChar where
  nonempty := encodeChar16_ne_nil
  takes c rest out := by
    have hne : encodeChar16 c ++ rest ≠ [] := by simp [encodeChar16_ne_nil c]
    refine bind_eq_ok.mpr ⟨_, (codePoint16_eq_ok hne).mpr ⟨c, rfl, rfl⟩, ?_⟩
    exact bind_eq_ok.mpr ⟨_, append_eq_ok.mpr ⟨c, rfl, rfl⟩, rfl⟩
  only hne h := by
    obtain ⟨⟨cp, it⟩, hread, h⟩ := bind_eq_ok.mp h
    obtain ⟨_, happend, hret⟩ := bind_eq_ok.mp h
    cases hret
    obtain ⟨c, rfl, rfl⟩ := (codePoint16_eq_ok hne).mp hread
    obtain ⟨d, hd, rfl⟩ := append_eq_ok.mp happend
    rw [Char.ext hd]
    exact ⟨c, rfl, rfl⟩

/-- The two conversions between UTF-8 and UTF-32 return on the same texts and undo each other. -/
theorem utf8to32_utf32to8 {xs : List UInt8} {cps : List UInt32} :
    (utf8to32 xs [] = (cps, none) ↔ utf32to8 cps [] = (xs, none)) ∧
    (utf8to32 xs [] = (cps, none) ↔ ∃ cs, xs = encode8 cs ∧ cps = cs.map Char.val) := by
  refine ⟨utf8to32Body_transcodes.loop_inverse utf32to8Body_transcodes, ?_⟩
  simp only [List.map_eq_flatMap]
  exact utf8to32Body_transcodes.loop_eq_iff

theorem utf8to16_utf16to8 {xs : List UInt8} {ws : List UInt16} :
    (utf8to16 xs [] = (ws, none) ↔ utf16to8 ws [] = (xs, none)) ∧
    (utf8to16 xs [] = (ws, none) ↔ ∃ cs, xs = encode8 cs ∧ ws = encode16 cs) :=
  ⟨utf8to16Body_transcodes.loop_inverse utf16to8Body_transcodes,
    utf8to16Body_transcodes.loop_eq_iff⟩

/-- The conversions from UTF-8 stop where `find_invalid` does, with what is before that place
written. -/
theorem converts_to_invalid (start : List UInt8) :
    ∃ cs, start = encode8 cs ++ findInvalid start ∧
      (utf8to32 start []).1 = cs.map Char.val ∧ (utf8to16 start []).1 = encode16 cs ∧
        ((utf8to32 start []).2 = none ↔ findInvalid start = []) ∧
          ((utf8to16 start []).2 = none ↔ findInvalid start = []) := by
  obtain ⟨cs, hcs⟩ := findInvalid_split start
  have hstuck := findInvalid_stuck start
  have h32 : utf8to32 start [] = utf8to32Body.loop (findInvalid start) (cs.map Char.val) := by
    rw [List.map_eq_flatMap]
    nth_rewrite 1 [hcs]
    exact utf8to32Body_transcodes.loop_append cs _ []
  have h16 : utf8to16 start [] = utf8to16Body.loop (findInvalid start) (encode16 cs) := by
    nth_rewrite 1 [hcs]
    exact utf8to16Body_transcodes.loop_append cs _ []
  obtain ⟨hout32, hnone32⟩ := utf8to32Body_transcodes.loop_stuck hstuck (cs.map Char.val)
  obtain ⟨hout16, hnone16⟩ := utf8to16Body_transcodes.loop_stuck hstuck (encode16 cs)
  rw [h32, h16]
  exact ⟨cs, hcs, hout32, hout16, hnone32, hnone16⟩

end TestCodes.TestUnitsNew.Utf8
