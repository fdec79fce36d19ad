import TestCodes.Gagebu.IntText

/-! What becomes of a ledger that is saved and opened: the text of the total and of the
records is read as the memory of the total and of the slots. -/
namespace TestCodes.Gagebu

/-! The text of the records. -/

theorem moneyToString_entered {m : MONEY} (h : m.flag = 1 ∨ m.flag = 2) :
    ∃ name, name.length = 4 ∧ (∀ c ∈ name, Printed c) ∧ moneyToString m = recordText name m := by
  unfold moneyToString
  rcases h with h | h
  · rw [h]
    exact ⟨[0xC1, 0xF6, 0xC3, 0xE2], rfl, by simp [Printed], rfl⟩
  · rw [h]
    exact ⟨[0xBC, 0xF6, 0xC0, 0xD4], rfl, by simp [Printed], rfl⟩

theorem length_recordText {name : List UInt8} (h : name.length = 4) (m : MONEY) :
    20 ≤ (recordText name m).length := by
  have hyear := intText_length_pos m.year
  have hmonth := intText_length_pos m.month
  have hday := intText_length_pos m.day
  have hmoney := intText_length_pos m.money
  simp only [recordText, List.length_cons, List.length_append, List.length_nil]
  omega

theorem recordText_printed {name : List UInt8} (h : ∀ c ∈ name, Printed c) (m : MONEY) :
    ∀ c ∈ recordText name m, Printed c := by
  simp only [recordText, List.forall_mem_cons, List.forall_mem_append]
  have htext := intText_printed
  exact ⟨by decide, h, by decide, htext _, by decide, htext _, by decide,
    ⟨htext _, by simp [Printed]⟩, htext _, by simp [Printed]⟩

theorem fnSave_program (l : Ledger) :
    fnSave l.program = intText l.total ++ l.records.flatMap moneyToString := by
  have hzero : (List.replicate (MAX - l.records.length) MONEY.zero).flatMap
      (fun m => if m.day ≠ 0 then moneyToString m else []) = [] :=
    List.flatMap_eq_nil_iff.mpr fun m hm => by rw [(List.mem_replicate.mp hm).2]; rfl
  rw [fnSave, Ledger.program, List.flatMap_append, hzero, List.append_nil]
  congr 1
  exact List.flatMap_congr fun m hm => if_pos (l.entered m hm).1

/-! The slots after the loop. -/

variable {c : PartialItems} {p p' : Program} {i : ℕ} {rest : List UInt8}

theorem store_spec {m : MONEY} (h : p.store i m = some p') :
    i < p.mo.length ∧ p'.mo = p.mo.set i m ∧ p'.total = p.total := by
  unfold Program.store at h
  split at h
  · rename_i hlt
    obtain rfl := Option.some.inj h
    exact ⟨p.sizeof_mo ▸ hlt, rfl, rfl⟩
  · cases h

/-- The loop leaves the total and the slots before it. -/
theorem openLoop_before (h : openLoop c p i rest = some p') :
    p'.total = p.total ∧ ∀ j < i, p'.mo[j]? = p.mo[j]? := by
  induction p, i, rest using openLoop.induct with
  | case1 p i rest hfull ih =>
      rw [openLoop, if_pos hfull] at h
      obtain ⟨q, hstore, hloop⟩ := Option.bind_eq_some_iff.mp h
      obtain ⟨-, hmo, htotal⟩ := store_spec hstore
      obtain ⟨htotal', hbefore⟩ := ih q hloop
      refine ⟨htotal'.trans htotal, fun j hj => ?_⟩
      rw [hbefore j (Nat.lt_succ_of_lt hj), hmo, List.getElem?_set_ne (Nat.ne_of_gt hj)]
  | case2 p i hshort =>
      rw [openLoop, if_neg hshort, if_pos rfl] at h
      obtain rfl := Option.some.inj h
      exact ⟨rfl, fun _ _ => rfl⟩
  | case3 p i rest hshort hnil =>
      rw [openLoop, if_neg hshort, if_neg hnil] at h
      obtain ⟨m, -, hstore⟩ := Option.bind_eq_some_iff.mp h
      obtain ⟨-, hmo, htotal⟩ := store_spec hstore
      refine ⟨htotal, fun j hj => ?_⟩
      rw [hmo, List.getElem?_set_ne (Nat.ne_of_gt hj)]

theorem ofBytes_take (xs : List UInt8) : MONEY.ofBytes (xs.take sizeofMONEY) = .ofBytes xs := by
  have hint : ∀ i, i + 3 < sizeofMONEY → intAt (xs.take sizeofMONEY) i = intAt xs i := by
    intro i hi
    rw [intAt, wordAt_take xs (by omega), wordAt_take xs (by omega), intAt]
  have hflag : (xs.take sizeofMONEY).getD 0 0 = xs.getD 0 0 := by cases xs <;> rfl
  rw [MONEY.ofBytes, hflag, hint 4 (by decide), hint 8 (by decide), hint 12 (by decide),
    hint 16 (by decide), MONEY.ofBytes]

theorem openLoop_slot (h : openLoop c p i rest = some p') (hfull : sizeofMONEY ≤ rest.length) :
    p'.mo[i]? = some (.ofBytes rest) ∧
      ∃ q, openLoop c q (i + 1) (rest.drop sizeofMONEY) = some p' := by
  rw [openLoop, if_pos hfull] at h
  obtain ⟨q, hstore, hloop⟩ := Option.bind_eq_some_iff.mp h
  obtain ⟨hlt, hmo, -⟩ := store_spec hstore
  refine ⟨?_, q, hloop⟩
  rw [(openLoop_before hloop).2 i (Nat.lt_succ_self i), hmo, List.getElem?_set_self hlt,
    ofBytes_take]

/-! A ledger with records is not restored. -/

variable {l : Ledger}

theorem slot_flag (hrecords : p.records = l.records) {m : MONEY} (hm : p.mo[i]? = some m)
    (hday : m.day ≠ 0) : m.flag = 1 ∨ m.flag = 2 := by
  have hin : m ∈ p.records := by
    refine List.mem_filter.mpr ⟨List.mem_of_getElem? hm, ?_⟩
    simpa using hday
  rw [hrecords] at hin
  exact (l.entered m hin).2

theorem first_record {r m : MONEY} {rs : List MONEY} (hrecords : p.records = r :: rs)
    (hm : p.mo[0]? = some m) (hday : m.day ≠ 0) : r = m := by
  unfold Program.records at hrecords
  cases hmo : p.mo with
  | nil =>
      rw [hmo] at hm
      cases hm
  | cons a as =>
      rw [hmo] at hm hrecords
      obtain rfl := Option.some.inj hm
      rw [List.filter_cons_of_pos (by simpa using hday)] at hrecords
      exact (List.cons.inj hrecords).1.symm

/-- The first record, if read from its own text behind the digits `14265`, would be this
one, and its text would put a third flag in the second slot. -/
theorem second_flag {r : MONEY} {xs : List UInt8} (hflag : r.flag = 1)
    (hr : r = .ofBytes ([0x31, 0x34, 0x32, 0x36, 0x35] ++ moneyToString r ++ xs)) :
    ∃ ys, [0x31, 0x34, 0x32, 0x36, 0x35] ++ moneyToString r ++ xs = ys ∧
      2 * sizeofMONEY ≤ ys.length ∧ (MONEY.ofBytes (ys.drop sizeofMONEY)).flag = 3 ∧
      (MONEY.ofBytes (ys.drop sizeofMONEY)).day ≠ 0 := by
  have htext : moneyToString r = recordText [0xC1, 0xF6, 0xC3, 0xE2] r := by
    unfold moneyToString
    rw [hflag]
    rfl
  rw [htext, recordText] at hr ⊢
  have hyear : r.year = -155100363 :=
    (congrArg MONEY.year hr).trans ((intAt_drop rfl).trans (by decide))
  have hyearText : intText r.year =
      [0x2D, 0x31, 0x35, 0x35, 0x31, 0x30, 0x30, 0x33, 0x36, 0x33] := by
    rw [hyear]
    decide
  rw [hyearText] at hr ⊢
  have hmonth : r.month = 761127619 :=
    (congrArg MONEY.month hr).trans ((intAt_drop rfl).trans (by decide))
  have hday : r.day = 825570609 :=
    (congrArg MONEY.day hr).trans ((intAt_drop rfl).trans (by decide))
  have hmonthText : intText r.month =
      [0x37, 0x36, 0x31, 0x31, 0x32, 0x37, 0x36, 0x31, 0x39] := by
    rw [hmonth]
    decide
  have hdayText : intText r.day =
      [0x38, 0x32, 0x35, 0x35, 0x37, 0x30, 0x36, 0x30, 0x39] := by
    rw [hday]
    decide
  rw [hmonthText, hdayText]
  refine ⟨_, rfl, ?_, (flag_ofBytes rfl).trans (by decide), ?_⟩
  · simp [sizeofMONEY]
  · intro hzero
    exact absurd ((intAt_drop rfl).symm.trans hzero) (by decide)

theorem fnOpen_file {file : List UInt8} (hfile : 4 ≤ file.length)
    (h : fnOpen c (some file) p = some p') :
    p'.total = intAt file 0 ∧ ∃ q, openLoop c q 0 (file.drop 4) = some p' := by
  rw [fnOpen, if_pos (show sizeofInt ≤ file.length from hfile)] at h
  exact ⟨(openLoop_before h).1, _, h⟩

theorem records_printed (l : Ledger) : ∀ c ∈ l.records.flatMap moneyToString, Printed c := by
  intro c hc
  obtain ⟨m, hm, hc⟩ := List.mem_flatMap.mp hc
  obtain ⟨name, -, hname, htext⟩ := moneyToString_entered (l.entered m hm).2
  exact recordText_printed hname m c (htext ▸ hc)

/-- The total of a restored ledger with records has a text that starts with it in memory. -/
theorem total_self (hrecord : 20 ≤ (l.records.flatMap moneyToString).length)
    (h : intAt (intText l.total ++ l.records.flatMap moneyToString) 0 = l.total) :
    4 ≤ (intText l.total).length ∧ l.total ∈ selfReading := by
  rcases Nat.lt_or_ge (intText l.total).length 4 with hshort | hlen
  · have hall := List.forall_mem_append.mpr ⟨intText_printed l.total, records_printed l⟩
    have hlarge := intAt_large hall (i := 0) (by rw [List.length_append]; omega)
    have hsmall := intText_length_lt hshort
    rw [h] at hlarge
    omega
  · exact ⟨hlen, intText_self hlen _ h⟩

theorem records_lost {r : MONEY} {rs : List MONEY} (hl : l.records = r :: rs) :
    ¬ Restores c l := by
  rintro ⟨p, hopen, htotal, hrecords⟩
  have hflag := (l.entered r (hl ▸ List.mem_cons_self)).2
  obtain ⟨name, hname, -, htext⟩ := moneyToString_entered hflag
  have hsplit : l.records.flatMap moneyToString =
      moneyToString r ++ rs.flatMap moneyToString := by rw [hl, List.flatMap_cons]
  have hlong : 20 ≤ (l.records.flatMap moneyToString).length := by
    have hrecord := length_recordText hname r
    rw [hsplit, List.length_append, htext]
    omega
  rw [fnSave_program] at hopen
  obtain ⟨htotal', q, hloop⟩ := fnOpen_file (by rw [List.length_append]; omega) hopen
  obtain ⟨hlen, hself⟩ := total_self hlong (htotal'.symm.trans htotal)
  rw [List.drop_append_of_le_length hlen] at hloop
  -- the first slot is printed bytes, and in use: the first record is read from its own text
  have hall : ∀ c ∈ (intText l.total).drop 4 ++ l.records.flatMap moneyToString, Printed c :=
    List.forall_mem_append.mpr ⟨fun c hc => intText_printed l.total c (List.mem_of_mem_drop hc),
      records_printed l⟩
  have hfull : 20 ≤ ((intText l.total).drop 4 ++ l.records.flatMap moneyToString).length := by
    rw [List.length_append]
    omega
  obtain ⟨hslot, q', hloop'⟩ := openLoop_slot hloop hfull
  have hday : intAt ((intText l.total).drop 4 ++ l.records.flatMap moneyToString) 12 ≠ 0 := by
    intro hzero
    have hlarge := intAt_large hall (i := 12) (by omega)
    rw [hzero] at hlarge
    exact absurd hlarge (by decide)
  have hr := first_record (hrecords.trans hl) hslot hday
  simp only [selfReading, List.mem_cons, List.not_mem_nil, or_false] at hself
  rcases hself with hself | hself | hself
  · have hdigits : (intText 809054264).drop 4 = [0x35, 0x34, 0x32, 0x36, 0x34] := by decide
    rw [hself, hdigits] at hr
    have hfive : r.flag = 5 := (congrArg MONEY.flag hr).trans ((flag_ofBytes rfl).trans (by decide))
    exact absurd (hfive ▸ hflag) (by decide)
  · have hdigits : (intText 859387192).drop 4 = [0x38, 0x37, 0x31, 0x39, 0x32] := by decide
    rw [hself, hdigits] at hr
    have hzero : r.flag = 0 := (congrArg MONEY.flag hr).trans ((flag_ofBytes rfl).trans (by decide))
    exact absurd (hzero ▸ hflag) (by decide)
  · have hdigits : (intText 942814265).drop 4 = [0x31, 0x34, 0x32, 0x36, 0x35] := by decide
    rw [hself, hdigits, hsplit, ← List.append_assoc] at hr hloop'
    have hone : r.flag = 1 := (congrArg MONEY.flag hr).trans ((flag_ofBytes rfl).trans (by decide))
    obtain ⟨ys, hys, hlen, hthree, hday⟩ := second_flag hone hr
    rw [hys] at hloop'
    have hsecond := (openLoop_slot hloop' (by rw [List.length_drop]; omega)).1
    have hflags := slot_flag hrecords hsecond hday
    rw [hthree] at hflags
    exact absurd hflags (by decide)

/-! A ledger without records. -/

theorem records_first {m : MONEY} (h : p.mo = m :: List.replicate 99 .zero) :
    p.records = [] ↔ m.day = 0 := by
  have hzero : (List.replicate 99 MONEY.zero).filter (fun m => m.day ≠ 0) = [] := by decide
  rw [Program.records, h]
  by_cases hday : m.day = 0
  · rw [List.filter_cons_of_neg (by simpa using hday), hzero]
    exact iff_of_true rfl hday
  · rw [List.filter_cons_of_pos (by simpa using hday)]
    exact iff_of_false (List.cons_ne_nil _ _) hday

theorem fnOpen_partial (c : PartialItems) (file : List UInt8) (hlow : 4 < file.length)
    (hhigh : file.length < 24) :
    ∃ p, fnOpen c (some file) .fresh = some p ∧ p.total = intAt file 0 ∧
      (p.records = [] ↔ (c.money .zero (file.drop 4)).day = 0) := by
  have hshort : ¬ 20 ≤ (file.drop 4).length := by
    rw [List.length_drop]
    omega
  have hne : file.drop 4 ≠ [] := by
    rw [ne_eq, List.drop_eq_nil_iff]
    omega
  refine ⟨⟨Program.fresh.mo.set 0 (c.money .zero (file.drop 4)), intAt file 0, rfl⟩, ?_, rfl,
    records_first rfl⟩
  rw [fnOpen, if_pos (show sizeofInt ≤ file.length by unfold sizeofInt; omega), openLoop,
    if_neg (show ¬ sizeofMONEY ≤ (file.drop sizeofInt).length from hshort),
    if_neg (show ¬ file.drop sizeofInt = [] from hne)]
  rfl

theorem self_text {value : Int32} (h : value ∈ selfReading) :
    (intText value).length = 9 ∧ intAt (intText value) 0 = value := by
  simp only [selfReading, List.mem_cons, List.not_mem_nil, or_false] at h
  rcases h with rfl | rfl | rfl <;> decide

theorem fnOpen_short {file : List UInt8} (hne : file ≠ []) (hshort : file.length < 4)
    (c : PartialItems) :
    ∃ p, fnOpen c (some file) .fresh = some p ∧ p.total = c.int 0 file ∧ p.records = [] := by
  refine ⟨{ Program.fresh with total := c.int 0 file }, ?_, rfl, ?_⟩
  · rw [fnOpen, if_neg (show ¬ sizeofInt ≤ file.length from Nat.not_le.mpr hshort), if_neg hne]
    rfl
  · exact (records_first (m := .zero) rfl).mpr rfl

/-- A ledger without records: its text is shorter than a total, or a total that is its own
text in memory, and what is read in part is not specified. -/
theorem restores_empty (c : PartialItems) (hl : l.records = []) : Restores c l ↔
    (intText l.total).length < 4 ∧ c.int 0 (intText l.total) = l.total ∨
    l.total ∈ selfReading ∧ (c.money .zero ((intText l.total).drop 4)).day = 0 := by
  have hfile : fnSave l.program = intText l.total := by
    rw [fnSave_program, hl, List.flatMap_nil, List.append_nil]
  unfold Restores
  rw [hfile, hl]
  rcases Nat.lt_or_ge (intText l.total).length 4 with hshort | hlen
  · have hself : l.total ∉ selfReading := fun h => by
      have hnine := (self_text h).1
      omega
    have hne : intText l.total ≠ [] := List.ne_nil_of_length_pos (intText_length_pos l.total)
    obtain ⟨p, hopen, htotal, hrecords⟩ := fnOpen_short hne hshort c
    constructor
    · rintro ⟨p', hopen', htotal', -⟩
      obtain rfl := Option.some.inj (hopen.symm.trans hopen')
      exact .inl ⟨hshort, htotal.symm.trans htotal'⟩
    · rintro (⟨-, hint⟩ | ⟨h, -⟩)
      · exact ⟨p, hopen, htotal.trans hint, hrecords⟩
      · exact absurd h hself
  · have hread : ∀ p, fnOpen c (some (intText l.total)) .fresh = some p → p.total = l.total →
        l.total ∈ selfReading := by
      intro p hopen htotal
      have hmemory := (fnOpen_file hlen hopen).1.symm.trans htotal
      exact intText_self hlen [] ((List.append_nil _).symm ▸ hmemory)
    constructor
    · rintro ⟨p', hopen', htotal', hrecords'⟩
      have hself := hread p' hopen' htotal'
      have hnine := (self_text hself).1
      obtain ⟨p, hopen, -, hrecords⟩ := fnOpen_partial c (intText l.total) (by omega) (by omega)
      obtain rfl := Option.some.inj (hopen.symm.trans hopen')
      exact .inr ⟨hself, hrecords.mp hrecords'⟩
    · rintro (⟨hshort, -⟩ | ⟨hself, hday⟩)
      · omega
      · have hnine := (self_text hself).1
        obtain ⟨p, hopen, htotal, hrecords⟩ :=
          fnOpen_partial c (intText l.total) (by omega) (by omega)
        exact ⟨p, hopen, htotal.trans (self_text hself).2, hrecords.mpr hday⟩

/-- A ledger that is saved and opened is there again only without records, and only with a
total that the text of a total happens to be in memory. -/
theorem restores_iff (c : PartialItems) (l : Ledger) : Restores c l ↔ l.records = [] ∧
    ((intText l.total).length < 4 ∧ c.int 0 (intText l.total) = l.total ∨
      l.total ∈ selfReading ∧ (c.money .zero ((intText l.total).drop 4)).day = 0) := by
  cases hl : l.records with
  | nil =>
      rw [restores_empty c hl]
      exact (and_iff_right rfl).symm
  | cons r rs => exact iff_of_false (records_lost hl) fun h => nomatch h.1

def firstIncome : Ledger where
  total := 10000
  records := [⟨1, 2012, 11, 29, 10000⟩]
  fits := by decide
  entered := by decide

/-- Its total comes back as 808464433, whatever a read in part leaves. -/
theorem first_income_lost : ¬ ∃ c, Restores c firstIncome := by
  rintro ⟨c, p, hopen, htotal, -⟩
  have hmemory := (fnOpen_file (by decide) hopen).1.symm.trans htotal
  exact absurd hmemory (by decide)

end TestCodes.Gagebu
