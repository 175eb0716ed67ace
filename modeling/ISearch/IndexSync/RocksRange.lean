import ISearch.IndexSync.RocksIndex

/-!
# Which ranges the storage index gets right

The value of an entry is read from the bytes behind the last `#` of the key. These begin with the
first byte of the encoded value, or behind a byte `#` in it, and denote 0 in almost all cases. The
scans of one page take the start of the range for a bound also where the range has none.
-/

namespace ISearch.IndexSync

open List
open KeyFormat (encodeBytesS64 encodeIntoCmpUint strtoll toStringDouble wholePart atof)

/-! ## The recovered value -/

theorem afterLastSharp_append (p s : Bytes) :
    afterLastSharp (p ++ 35 :: s) = some (s.reverse.takeWhile (· ≠ 35)).reverse := by
  have hmem : (35 : UInt8) ∈ p ++ 35 :: s := by simp
  rw [afterLastSharp, if_pos hmem, reverse_append, reverse_cons, append_assoc,
    singleton_append, takeWhile_append]
  split
  · rename_i hall
    rw [takeWhile_cons_of_neg (by simp), append_nil, List.IsPrefix.eq_of_length
      (List.takeWhile_prefix _) hall]
  · rfl

/-- What `setEntry` makes of the key of a value. -/
def recovered (v : Int64) : Option ℚ := atof ((encodeBytesS64 v).reverse.takeWhile (· ≠ 35)).reverse

theorem setEntry_keywordRow (appid : Bytes) (field : Int) (d : IndexedDoc) :
    setEntry (keywordRow appid field d) = { docEntry field d with key := recovered d.value } := by
  have hkey : (keywordRow appid field d).key =
      (appid ++ 35 :: indexSymbol) ++ 35 :: encodeBytesS64 d.value := by
    simp [keywordRow, genDtcKeyString]
  rw [setEntry, hkey, afterLastSharp_append]
  rfl

theorem recovered_zero : recovered 0 = some 0 := by
  have hbytes : ((encodeBytesS64 0).reverse.takeWhile (· ≠ 35)).reverse =
      [128, 0, 0, 0, 0, 0, 0, 0] := by decide
  rw [recovered, hbytes, KeyFormat.atof_of_not_number (.inr rfl)]

/-- The value of a field of type `int`. -/
def IsInt (v : Int64) : Prop := -(2 ^ 31) ≤ v.toInt ∧ v.toInt < 2 ^ 31

/-- The bytes of an `int`, last one first. -/
theorem reverse_encodeBytesS64 {v : Int64} (h : IsInt v) :
    ∃ b₀ b₁ b₂ b₃ c d : UInt8,
      (encodeBytesS64 v).reverse = [b₀, b₁, b₂, b₃, c, c, c, d] ∧ c ≠ 35 ∧ (d = 127 ∨ d = 128) ∧
        v.toInt = b₀.toNat + 256 * b₁.toNat + 65536 * b₂.toNat + 16777216 * b₃.toNat -
          if b₃.toNat < 128 then 0 else 4294967296 := by
  obtain ⟨hlo, hhi⟩ := h
  have hu := KeyFormat.toNat_encodeIntoCmpUint v
  rw [KeyFormat.encodeBytesS64_eq, reverse_reverse]
  generalize (encodeIntoCmpUint v).toNat = u at hu
  have hsum : v.toInt = (u % 256 : Nat) + 256 * (u / 256 % 256 : Nat) +
      65536 * (u / 256 / 256 % 256 : Nat) + 16777216 * (u / 256 / 256 / 256 % 256 : Nat) -
        if u / 256 / 256 / 256 % 256 < 128 then 0 else 4294967296 := by
    split <;> omega
  have hhigh : leBytes 4 (u / 256 / 256 / 256 / 256) = [0, 0, 0, 128] ∨
      leBytes 4 (u / 256 / 256 / 256 / 256) = [255, 255, 255, 127] := by
    have hdiv : u / 256 / 256 / 256 / 256 = 2147483648 ∨ u / 256 / 256 / 256 / 256 =
      2147483647 := by
      omega
    rcases hdiv with hdiv | hdiv
    · exact .inl (by rw [hdiv]; decide)
    · exact .inr (by rw [hdiv]; decide)
  have hbytes : leBytes 8 u = UInt8.ofNat u :: UInt8.ofNat (u / 256) ::
      UInt8.ofNat (u / 256 / 256) :: UInt8.ofNat (u / 256 / 256 / 256) ::
        leBytes 4 (u / 256 / 256 / 256 / 256) := rfl
  rcases hhigh with hhigh | hhigh
  · exact ⟨_, _, _, _, 0, 128, by rw [hbytes, hhigh], by decide, .inr rfl,
      by simpa only [toNat_ofNat_uint8] using hsum⟩
  · exact ⟨_, _, _, _, 255, 127, by rw [hbytes, hhigh], by decide, .inl rfl,
      by simpa only [toNat_ofNat_uint8] using hsum⟩

/-- No other text of three characters with an exponent is the value of its own bytes. -/
theorem exponent_ne : ∀ a < 10, ∀ e < 10, ∀ m ∈ [69, 101],
    a * 10 ^ e ≠ 48 + e + 256 * m + 65536 * (48 + a) + 16777216 * 35 := by
  decide

theorem digit_range {c : UInt8} (h : KeyFormat.isDigit c = true) : 48 ≤ c.toNat ∧ c.toNat < 58 := by
  simp only [KeyFormat.isDigit, Bool.and_eq_true, decide_eq_true_eq, UInt8.le_iff_toNat_le] at h
  have h48 : UInt8.toNat 48 = 48 := rfl
  have h57 : UInt8.toNat 57 = 57 := rfl
  omega

/-- Of the values of type `int` only 0 is recovered. -/
theorem eq_zero_of_recovered {v : Int64} (h : IsInt v) (hv : recovered v = some (v.toInt : ℚ)) :
    v = 0 := by
  obtain ⟨b₀, b₁, b₂, b₃, c, d, hbytes, hc, hd, hsum⟩ := reverse_encodeBytesS64 h
  have hz : v.toInt = 0 → v = 0 := fun h0 => Int64.toInt_inj.mp h0
  have h₀ := b₀.toNat_lt
  have h₁ := b₁.toNat_lt
  have h₂ := b₂.toNat_lt
  have h₃ := b₃.toNat_lt
  have h35 : UInt8.toNat 35 = 35 := rfl
  rw [recovered, hbytes] at hv
  have hsmall {n : Int} (hlt : |(v.toInt : ℚ)| < n) : |v.toInt| < n := by exact_mod_cast hlt
  -- The bytes are searched for `#` from the last one on.
  by_cases e₀ : b₀ = 35
  · have hzero : atof [] = some 0 := by decide
    rw [e₀] at hv
    simp only [takeWhile_cons, ne_eq, not_true_eq_false, decide_false, Bool.false_eq_true,
      if_false, reverse_nil, hzero, Option.some.injEq] at hv
    exact hz (by exact_mod_cast hv.symm)
  by_cases e₁ : b₁ = 35
  · have hlt := hsmall (n := 100) (by
      simpa using KeyFormat.atof_short (s := [b₀]) (by simp) (by simpa [e₀, e₁] using hv))
    rw [e₁, h35] at hsum
    split at hsum <;> rw [abs_lt] at hlt <;> omega
  by_cases e₂ : b₂ = 35
  · have hlt := hsmall (n := 100) (by
      simpa using KeyFormat.atof_short (s := [b₁, b₀]) (by simp) (by simpa [e₀, e₁, e₂] using hv))
    rw [e₂, h35] at hsum
    split at hsum <;> rw [abs_lt] at hlt <;> omega
  by_cases e₃ : b₃ = 35
  · rw [e₃, h35, if_pos (by decide)] at hsum
    have hthree : atof [b₂, b₁, b₀] = some (v.toInt : ℚ) := by simpa [e₀, e₁, e₂, e₃] using hv
    rcases KeyFormat.atof_three hthree with hlt | ⟨ha, hm, he, heq⟩
    · have hlt := hsmall (n := 1000) (by simpa using hlt)
      rw [abs_lt] at hlt
      omega
    · have hda := digit_range ha
      have hde := digit_range he
      have hmark : b₁.toNat ∈ [69, 101] := by
        rcases hm with rfl | rfl <;> decide
      have hne := exponent_ne (b₂.toNat - 48) (by omega) (b₀.toNat - 48) (by omega) b₁.toNat hmark
      have hval : v.toInt = ((b₂.toNat - 48) * 10 ^ (b₀.toNat - 48) : Nat) := by
        exact_mod_cast heq
      omega
  · have hall : atof [d, c, c, c, b₃, b₂, b₁, b₀] = some (v.toInt : ℚ) := by
      have hd35 : d ≠ 35 := by rcases hd with rfl | rfl <;> decide
      simpa [e₀, e₁, e₂, e₃, hc, hd35] using hv
    rw [KeyFormat.atof_of_not_number hd, Option.some.injEq] at hall
    exact hz (by exact_mod_cast hall.symm)

/-! ## Conditions on the key -/

theorem CondOpr.test_compare (op : CondOpr) (a b : Int) :
    op.test (compare a b) = match op with
      | .eq => decide (a = b)
      | .ne => decide (a ≠ b)
      | .lt => decide (a < b)
      | .le => decide (a ≤ b)
      | .gt => decide (b < a)
      | .ge => decide (b ≤ a) := by
  rcases lt_trichotomy a b with h | rfl | h
  · rw [compare_lt_iff_lt.mpr h]
    cases op <;> simp [CondOpr.test, h, h.le, h.ne, h.not_gt, h.not_ge]
  · rw [compare_eq_iff_eq.mpr rfl]
    cases op <;> simp [CondOpr.test]
  · rw [compare_gt_iff_gt.mpr h]
    cases op <;> simp [CondOpr.test, h, h.le, h.ne', h.not_gt, h.not_ge]

theorem compare_toInt (a b : Int64) : compare a b = compare a.toInt b.toInt :=
  KeyFormat.compareOfLessAndEq_congr Int64.lt_iff_toInt_lt Int64.toInt_inj.symm

section

variable {appid : Bytes} {field : Int} {d d' : IndexedDoc} {x : ℚ}

/-- Keys of values compare as the values do. -/
theorem compare_indexKeys (v w : Int64) :
    compare (genDtcKeyString appid indexSymbol (encodeBytesS64 v))
      (genDtcKeyString appid indexSymbol (encodeBytesS64 w)) = compare v w := by
  have hcode := KeyFormat.orderCode_s64.compare_eq v w
  simp only [genDtcKeyString, indexSymbol, cons_append, nil_append]
  rw [compare_append_left]
  simpa using hcode

theorem compare_bound :
    compare (keywordRow appid field d).key (genDtcKeyStringOf appid indexSymbol x) =
    compare d.value.toInt (wholePart x).toInt := by
  rw [genDtcKeyStringOf, KeyFormat.strtoll_toStringDouble, keywordRow, compare_indexKeys,
    compare_toInt]

theorem compare_minBound :
    compare (keywordRow appid field d).key (genDtcKeyStringOf appid minBorderSymbol x) =
      compare d.value.toInt (wholePart x).toInt := compare_bound

theorem compare_maxBorder (key : Bytes) :
    compare (keywordRow appid field d).key (genDtcKeyString appid maxBorderSymbol key) = .lt := by
  simp only [keywordRow, genDtcKeyString, indexSymbol, maxBorderSymbol, cons_append,
    nil_append]
  rw [compare_append_left]
  rfl

theorem compare_maxBound :
    compare (keywordRow appid field d).key (genDtcKeyStringOf appid maxBorderSymbol x) = .lt :=
  compare_maxBorder _

theorem compare_minBorder :
    compare (keywordRow appid field d).key (genDtcKeyString appid minBorderSymbol []) = .gt := by
  obtain ⟨c, s, hcs⟩ := exists_cons_of_length_pos
    (l := encodeBytesS64 d.value) (by rw [KeyFormat.length_encodeBytesS64]; decide)
  simp only [keywordRow, genDtcKeyString, indexSymbol, minBorderSymbol, cons_append,
    nil_append, hcs]
  rw [compare_append_left]
  simp

end

section

variable {appid : Bytes} {field : Int} {start stop : ℚ} {rangeType : RangeType}

/-- The query of a range for rows of the requested application and field. -/
theorem meets_rangeQuery {q : RangeQuery}
    (hq : rangeQuery ⟨appid, field, start⟩ ⟨appid, field, stop⟩ rangeType = some q)
    (d : IndexedDoc) :
    (q.fieldConds.all (·.meets (keywordRow appid field d))) =
      inRange (wholePart start).toInt (wholePart stop).toInt rangeType d.value.toInt := by
  have hfield : (keywordRow appid field d).field = field := rfl
  have hlt : CondOpr.lt.test .lt = true := rfl
  have hgt : CondOpr.gt.test .gt = true := rfl
  cases rangeType with
  | init => cases hq
  | _ =>
    cases hq
    simp [keyRangeQuery, QueryCond.meets, hfield, RangeBound.indexKey, RangeBound.maxBorder,
      RangeBound.minBorder, compare_bound, compare_maxBorder, compare_minBorder, hlt, hgt,
      CondOpr.test_compare, inRange]

/-- The query of a page: where the range has no start, its start is a bound all the same. -/
theorem meets_terminalQuery (hrange : rangeType ≠ .init) (cond : TerminalQryCond) (d : IndexedDoc) :
    ((terminalQuery rangeType ⟨appid, field, start⟩ ⟨appid, field, stop⟩ cond).fieldConds.all
        (·.meets (keywordRow appid field d))) =
      (decide (rangeType = .le ∨ rangeType = .lt → (wholePart start).toInt < d.value.toInt) &&
        inRange (wholePart start).toInt (wholePart stop).toInt rangeType d.value.toInt) := by
  have hfield : (keywordRow appid field d).field = field := rfl
  have hlt : CondOpr.lt.test .lt = true := rfl
  cases rangeType with
  | init => exact absurd rfl hrange
  | _ =>
    simp [terminalQuery, QueryCond.meets, hfield, hlt, compare_bound, compare_minBound,
      compare_maxBound, CondOpr.test_compare, inRange]

theorem rowOrder_keywordRow (ascending : Bool) (d d' : IndexedDoc) :
    rowOrder [(.key, ascending), (.docId, ascending)] (keywordRow appid field d)
      (keywordRow appid field d') = docOrder ascending d d' := by
  cases ascending <;> simp [rowOrder, docOrder, lexBy, KeywordRow.compareBy,
    IndexedDoc.compareBy, keywordRow, compare_indexKeys]

end

/-! ## When the ranges are right -/

/-- The documents whose value lies in the range. -/
def docsIn (docs : List IndexedDoc) (rangeType : RangeType) (start stop : ℚ) : List IndexedDoc :=
  docs.filter fun d => inRange start stop rangeType (d.value.toInt : ℚ)

/-- `GetRangeIndex` returns an entry for each document of the range, and `GetRangeIndexInTerminal`
the entries of a page of them. -/
structure RangesRight (helper : RangeQuery → List KeywordRow) (docs : List IndexedDoc)
    (appid : Bytes) (field : Int) (rangeType : RangeType) (start stop : ℚ)
    (cond : TerminalQryCond) : Prop where
  all : (getRangeIndex helper rangeType ⟨appid, field, start⟩ ⟨appid, field, stop⟩).Perm
    ((docsIn docs rangeType start stop).map (docEntry field))
  page : ∃ l : List IndexedDoc, l.Perm (docsIn docs rangeType start stop) ∧
    SortedFor (docOrder cond.ascending) l ∧
      getRangeIndexInTerminal helper rangeType ⟨appid, field, start⟩ ⟨appid, field, stop⟩ cond =
        ((l.drop cond.limitStart.toNat).take cond.pageSize.toNat).map (docEntry field)

/-- The values in the range are 0, no value lies between a bound and the number it is encoded as,
and for a range without a start the start that is passed on is below 0 or the page is empty. -/
structure RangesHold (docs : List IndexedDoc) (rangeType : RangeType) (start stop : ℚ)
    (cond : TerminalQryCond) : Prop where
  zero : ∀ d ∈ docsIn docs rangeType start stop, d.value = 0
  bounds : ∀ d ∈ docs,
    inRange (wholePart start).toInt (wholePart stop).toInt rangeType d.value.toInt =
    inRange start stop rangeType (d.value.toInt : ℚ)
  start_below : rangeType = .le ∨ rangeType = .lt → (wholePart start).toInt < 0 ∨
    cond.pageSize.toNat = 0 ∨ (docsIn docs rangeType start stop).length ≤ cond.limitStart.toNat

section

variable {helper : RangeQuery → List KeywordRow} {docs : List IndexedDoc} {appid : Bytes}
  {field : Int} {rangeType : RangeType} {start stop : ℚ} {cond : TerminalQryCond}

/-- The rows that a query matches, as documents. -/
theorem filter_keywordRows {q : RangeQuery} {p : IndexedDoc → Bool}
    (hp : ∀ d ∈ docs, (q.fieldConds.all (·.meets (keywordRow appid field d))) = p d) :
    ((docs.map (keywordRow appid field)).filter fun row => q.fieldConds.all (·.meets row)) =
      (docs.filter p).map (keywordRow appid field) := by
  rw [filter_map]
  exact congrArg _ (filter_congr hp)

/-- The page fits the `int` fields of the query. -/
def TerminalQryCond.Fits (cond : TerminalQryCond) : Prop :=
  cond.limitStart.toNat < 2 ^ 31 ∧ cond.pageSize.toNat < 2 ^ 31

theorem toInt_of_lt {n : UInt32} (h : n.toNat < 2 ^ 31) : toInt n = n.toNat := by
  have hint : n.toInt32.toInt = Int.bmod n.toNat (2 ^ 32) := n.toInt32.toBitVec.toInt_eq_toNat_bmod
  rw [toInt, hint, Int.bmod_def]
  split <;> omega

/-- What a page returns, for the documents that its query matches. -/
theorem getRangeIndexInTerminal_eq (start stop : ℚ)
    (h : ∀ q, Answers (docs.map (keywordRow appid field)) q (helper q))
    (hrange : rangeType ≠ .init) (hpage : cond.Fits) :
    ∃ l : List IndexedDoc,
      l.Perm (docs.filter fun d =>
        decide (rangeType = .le ∨ rangeType = .lt → (wholePart start).toInt < d.value.toInt) &&
          inRange (wholePart start).toInt (wholePart stop).toInt rangeType d.value.toInt) ∧
      SortedFor (docOrder cond.ascending) l ∧
        getRangeIndexInTerminal helper rangeType ⟨appid, field, start⟩ ⟨appid, field, stop⟩ cond =
          ((l.drop cond.limitStart.toNat).take cond.pageSize.toNat).map
            (setEntry ∘ keywordRow appid field) := by
  obtain ⟨rows, hrows, hsorted, hres⟩ :=
    h (terminalQuery rangeType ⟨appid, field, start⟩ ⟨appid, field, stop⟩ cond)
  rw [filter_keywordRows fun d _ => meets_terminalQuery hrange cond d] at hrows
  obtain ⟨l, rfl, hl⟩ := (congrFun (congrFun
    (eq_map_comp_perm (keywordRow appid field)) rows) _).mpr hrows
  refine ⟨l, hl, ?_, ?_⟩
  · rw [SortedFor, pairwise_map] at hsorted
    exact hsorted.imp fun hle => by rwa [← rowOrder_keywordRow]
  · have hneg : ¬ (toInt cond.limitStart < 0 ∨ toInt cond.pageSize < 0) := by
      rw [toInt_of_lt hpage.1, toInt_of_lt hpage.2]
      omega
    rw [getRangeIndexInTerminal, hres, terminalQuery, slice, if_neg hneg, toInt_of_lt hpage.1,
      toInt_of_lt hpage.2, Int.toNat_natCast, Int.toNat_natCast, ← map_drop, ← map_take,
      map_map]

theorem getRangeIndex_perm (start stop : ℚ)
    (h : ∀ q, Answers (docs.map (keywordRow appid field)) q (helper q))
    (hrange : rangeType ≠ .init) :
    (getRangeIndex helper rangeType ⟨appid, field, start⟩ ⟨appid, field, stop⟩).Perm
      ((docs.filter fun d => inRange (wholePart start).toInt (wholePart stop).toInt rangeType
        d.value.toInt).map (setEntry ∘ keywordRow appid field)) := by
  obtain ⟨q, hq⟩ : ∃ q, rangeQuery ⟨appid, field, start⟩ ⟨appid, field, stop⟩ rangeType =
    some q := by
    cases rangeType with
    | init => exact absurd rfl hrange
    | _ => exact ⟨_, rfl⟩
  have hlimit : q.limitStart = -1 := by
    cases rangeType with
    | init => cases hq
    | _ => cases hq; rfl
  obtain ⟨rows, hrows, -, hres⟩ := h q
  rw [filter_keywordRows fun d _ => meets_rangeQuery hq d] at hrows
  rw [getRangeIndex, hq, Option.elim_some, hres, slice, hlimit, if_pos (.inl (by decide)),
    ← map_map]
  exact hrows.map setEntry

theorem setEntry_zero {d : IndexedDoc} (hd : d.value = 0) :
    setEntry (keywordRow appid field d) = docEntry field d := by
  rw [setEntry_keywordRow, hd, recovered_zero, docEntry, hd]
  rfl

/-- The condition suffices for values of both types. -/
theorem RangesHold.right (hold : RangesHold docs rangeType start stop cond)
    (h : ∀ q, Answers (docs.map (keywordRow appid field)) q (helper q))
    (hrange : rangeType ≠ .init) (hpage : cond.Fits) :
    RangesRight helper docs appid field rangeType start stop cond := by
  have hmap : ∀ l : List IndexedDoc, (∀ d ∈ l, d ∈ docsIn docs rangeType start stop) →
      l.map (setEntry ∘ keywordRow appid field) = l.map (docEntry field) := fun l hl =>
    map_congr_left fun d hd => setEntry_zero (hold.zero d (hl d hd))
  have hin : (docs.filter fun d => inRange (wholePart start).toInt (wholePart stop).toInt rangeType
      d.value.toInt) = docsIn docs rangeType start stop := filter_congr hold.bounds
  constructor
  · have hperm := getRangeIndex_perm start stop h hrange
    rwa [hin, hmap _ fun d hd => hd] at hperm
  · obtain ⟨l, hl, hsorted, hres⟩ := getRangeIndexInTerminal_eq start stop h hrange hpage
    rw [← filter_filter, hin] at hl
    by_cases hbelow : rangeType = .le ∨ rangeType = .lt → (wholePart start).toInt < 0
    · have hall : ((docsIn docs rangeType start stop).filter fun d => decide
          (rangeType = .le ∨ rangeType = .lt → (wholePart start).toInt < d.value.toInt)) =
          docsIn docs rangeType start stop := by
        refine filter_eq_self.mpr fun d hd => decide_eq_true fun hle => ?_
        rw [hold.zero d hd]
        exact hbelow hle
      rw [hall] at hl
      refine ⟨l, hl, hsorted, ?_⟩
      rw [hres, hmap]
      exact fun d hd => hl.mem_iff.mp (mem_of_mem_drop (mem_of_mem_take hd))
    · -- No document of the range is found, and none belongs to the page.
      obtain ⟨hle, hlow⟩ : (rangeType = .le ∨ rangeType = .lt) ∧ ¬ (wholePart start).toInt < 0 := by
        simpa using hbelow
      have hnone : ((docsIn docs rangeType start stop).filter fun d => decide
          (rangeType = .le ∨ rangeType = .lt → (wholePart start).toInt < d.value.toInt)) = [] := by
        refine filter_eq_nil_iff.mpr fun d hd hlt => ?_
        have hlt := of_decide_eq_true hlt hle
        rw [hold.zero d hd] at hlt
        exact hlow hlt
      rw [hnone] at hl
      rw [hl.eq_nil, drop_nil, take_nil, map_nil] at hres
      obtain ⟨l', hl', hsorted'⟩ :=
        exists_sortedFor (docOrder cond.ascending) (docsIn docs rangeType start stop)
      refine ⟨l', hl', hsorted', ?_⟩
      have hempty : (l'.drop cond.limitStart.toNat).take cond.pageSize.toNat = [] := by
        rw [← length_eq_zero_iff, length_take, length_drop, hl'.length_eq]
        have hor := (hold.start_below hle).resolve_left hlow
        omega
      rw [hres, hempty, map_nil]

/-- For values of type `int`, in documents that have one value each, the condition is necessary. -/
theorem RangesRight.hold (right : RangesRight helper docs appid field rangeType start stop cond)
    (h : ∀ q, Answers (docs.map (keywordRow appid field)) q (helper q))
    (hrange : rangeType ≠ .init) (hpage : cond.Fits) (hint : ∀ d ∈ docs, IsInt d.value)
    (hdocs : ∀ d ∈ docs, ∀ d' ∈ docs, d.docId = d'.docId → d.docVersion = d'.docVersion → d = d') :
    RangesHold docs rangeType start stop cond := by
  have hperm := (getRangeIndex_perm start stop h hrange).symm.trans right.all
  have hentry : ∀ d ∈ docs, ∀ d' ∈ docs,
      setEntry (keywordRow appid field d) = docEntry field d' → d = d' := fun d hd d' hd' heq =>
    hdocs d hd d' hd' (congrArg RocksEntry.docId heq) (congrArg RocksEntry.docVersion heq)
  -- A document of the range has an entry, which only its own row can have given.
  have hsound : ∀ d ∈ docsIn docs rangeType start stop,
      inRange (wholePart start).toInt (wholePart stop).toInt rangeType d.value.toInt = true ∧
        setEntry (keywordRow appid field d) = docEntry field d := by
    intro d hd
    obtain ⟨d', hd', heq⟩ := mem_map.mp (hperm.mem_iff.mpr (mem_map_of_mem hd))
    obtain ⟨hmem, hin⟩ := mem_filter.mp hd'
    obtain rfl := hentry d' hmem d (mem_filter.mp hd).1 heq
    exact ⟨hin, heq⟩
  have hcomplete : ∀ d ∈ docs,
      inRange (wholePart start).toInt (wholePart stop).toInt rangeType d.value.toInt = true →
        d ∈ docsIn docs rangeType start stop := by
    intro d hd hin
    obtain ⟨d', hd', heq⟩ := mem_map.mp (hperm.mem_iff.mp
      (mem_map_of_mem (mem_filter.mpr ⟨hd, hin⟩)))
    obtain rfl := hentry d hd d' (mem_filter.mp hd').1 heq.symm
    exact hd'
  have hzero : ∀ d ∈ docsIn docs rangeType start stop, d.value = 0 := by
    intro d hd
    have hkey := congrArg RocksEntry.key (hsound d hd).2
    rw [setEntry_keywordRow] at hkey
    exact eq_zero_of_recovered (hint d (mem_filter.mp hd).1) hkey
  refine ⟨hzero, fun d hd => Bool.eq_iff_iff.mpr ⟨fun hin => ?_, fun hin => ?_⟩, fun hle => ?_⟩
  · exact (mem_filter.mp (hcomplete d hd hin)).2
  · exact (hsound d (mem_filter.mpr ⟨hd, hin⟩)).1
  · by_contra hnot
    rw [not_or, not_or] at hnot
    obtain ⟨hlow, hsize, hlen⟩ := hnot
    obtain ⟨l, hl, -, hres⟩ := getRangeIndexInTerminal_eq start stop h hrange hpage
    obtain ⟨l', hl', -, hres'⟩ := right.page
    have hnone : (docs.filter fun d =>
        decide (rangeType = .le ∨ rangeType = .lt → (wholePart start).toInt < d.value.toInt) &&
          inRange (wholePart start).toInt (wholePart stop).toInt rangeType d.value.toInt) = [] := by
      refine filter_eq_nil_iff.mpr fun d hd hboth => ?_
      obtain ⟨hlt, hin⟩ := Bool.and_eq_true_iff.mp hboth
      have hlt := of_decide_eq_true hlt hle
      rw [hzero d (hcomplete d hd hin)] at hlt
      exact hlow hlt
    rw [hnone] at hl
    rw [hres, hl.eq_nil, drop_nil, take_nil, map_nil] at hres'
    have hempty := congrArg List.length hres'
    rw [length_map, length_take, length_drop, hl'.length_eq, length_nil] at hempty
    omega

/-- The ranges are right if the condition holds; for values of type `int`, in documents that have
one value each, only then. -/
theorem rangesRight_iff (helper : RangeQuery → List KeywordRow) (docs : List IndexedDoc)
    (appid : Bytes) (field : Int) (rangeType : RangeType) (start stop : ℚ) (cond : TerminalQryCond)
    (h : ∀ q, Answers (docs.map (keywordRow appid field)) q (helper q))
    (hrange : rangeType ≠ .init) :
    (cond.Fits → RangesHold docs rangeType start stop cond →
      RangesRight helper docs appid field rangeType start stop cond) ∧
    (cond.Fits → (∀ d ∈ docs, IsInt d.value) →
      (∀ d ∈ docs, ∀ d' ∈ docs, d.docId = d'.docId → d.docVersion = d'.docVersion → d = d') →
        RangesRight helper docs appid field rangeType start stop cond →
          RangesHold docs rangeType start stop cond) :=
  ⟨fun hpage hold => hold.right h hrange hpage,
    fun hpage hint hdocs right => right.hold h hrange hpage hint hdocs⟩

end

/-- A document whose value is recovered, and one outside the range. -/
def nearDocs : List IndexedDoc := [⟨0, [97], 1⟩, ⟨50, [98], 1⟩]

theorem rangesHold_nearDocs : RangesHold nearDocs .gele (-1) 1 ⟨true, 0, 10⟩ := by
  have hlo : wholePart (-1) = -1 := by simpa using KeyFormat.wholePart_intCast (-1)
  have hhi : wholePart 1 = 1 := by simpa using KeyFormat.wholePart_intCast 1
  have hfifty : Int64.toInt 50 = 50 := rfl
  refine ⟨?_, ?_, by simp⟩
  · simp [docsIn, nearDocs, inRange, hfifty]
  · simp [nearDocs, hlo, hhi, inRange, hfifty]

theorem rangesRight_nearDocs :
    RangesRight (sortedAnswer (nearDocs.map (keywordRow [49] 2))) nearDocs [49] 2 .gele (-1) 1
      ⟨true, 0, 10⟩ :=
  (rangesRight_iff _ nearDocs [49] 2 .gele (-1) 1 ⟨true, 0, 10⟩ (answers_sortedAnswer _)
    (by decide)).1 ⟨by decide, by decide⟩ rangesHold_nearDocs

/-- A document with the value 5. -/
def fiveDoc : IndexedDoc := ⟨5, [97], 1⟩

/-- The value 5 comes back as 0. -/
theorem not_rangesRight_fiveDoc :
    ¬ RangesRight (sortedAnswer ([fiveDoc].map (keywordRow [49] 2))) [fiveDoc] [49] 2 .gele 0 10
      ⟨true, 0, 10⟩ := by
  intro right
  have hold := right.hold (answers_sortedAnswer _) (by decide) ⟨by decide, by decide⟩
    (by simp [IsInt, fiveDoc]) (by simp)
  have hfive : Int64.toInt 5 = 5 := rfl
  have hzero := hold.zero fiveDoc (by norm_num [docsIn, fiveDoc, inRange, hfive])
  exact absurd hzero (by decide)

end ISearch.IndexSync
