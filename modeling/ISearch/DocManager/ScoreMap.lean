import ISearch.KeyFormat.Codec
import Mathlib.Data.List.TakeWhile

/-!
# The sort field of a snapshot

A snapshot is the JSON text of an object. Where the sort field is an `int`, `GetScoreMap` does not
parse the text: it looks for the first place where the name of the field occurs, and reads the
number two characters behind it. The name may occur before, in the name or in the value of a member
that is sorted in front.
-/

namespace ISearch.DocManager

open List (nil_append cons_append append_assoc mem_range length_drop length_append prefix_append
  take_of_length_le)
open KeyFormat (isSpace isDigit digitsValue strtonum decimal)

abbrev Text := List UInt8

/-! ## Snapshots as they are written -/

/-- What a real number is printed as. -/
structure RealText where
  text : Text
  printable : 0 ∉ text

inductive Json where
  | null
  | bool (b : Bool)
  | int (v : Int)
  | real (x : RealText)
  | string (s : Text)
  | array (elements : List Json)
  | object (members : List (Text × Json))

def hexDigit (n : UInt8) : UInt8 := if n < 10 then 48 + n else 55 + n

/-- A character between quotes. -/
def escapeChar (c : UInt8) : Text :=
  if c = 34 then [92, 34] else if c = 92 then [92, 92] else if c = 8 then [92, 98]
  else if c = 12 then [92, 102] else if c = 10 then [92, 110] else if c = 13 then [92, 114]
  else if c = 9 then [92, 116]
  else if c < 32 then [92, 117, 48, 48, hexDigit (c / 16), hexDigit (c % 16)] else [c]

/-- `valueToQuotedString`. -/
def quoted (s : Text) : Text := 34 :: (s.flatMap escapeChar ++ [34])

/-- `valueToString` of an integer. -/
def writeInt (v : Int) : Text := if v < 0 then 45 :: decimal v.natAbs else decimal v.natAbs

mutual

/-- `FastWriter::writeValue`. -/
def writeValue : Json → Text
  | .null => [110, 117, 108, 108]
  | .bool true => [116, 114, 117, 101]
  | .bool false => [102, 97, 108, 115, 101]
  | .int v => writeInt v
  | .real x => x.text
  | .string s => quoted s
  | .array elements => 91 :: (writeElements true elements ++ [93])
  | .object members => 123 :: (writeMembers true members ++ [125])

def writeElements (begin : Bool) : List Json → Text
  | [] => []
  | value :: elements =>
    (if begin then [] else [44]) ++ writeValue value ++ writeElements false elements

def writeMember : Text × Json → Text
  | (name, value) => quoted name ++ 58 :: writeValue value

def writeMembers (begin : Bool) : List (Text × Json) → Text
  | [] => []
  | m :: members => (if begin then [] else [44]) ++ writeMember m ++ writeMembers false members

end

/-- `FastWriter::write` of an object. -/
def writeObject (members : List (Text × Json)) : Text := writeValue (.object members) ++ [10]

/-- The value of an integer member. -/
def intMember (members : List (Text × Json)) (name : Text) : Option Int :=
  match members.find? fun m => m.1 = name with
  | some (_, .int v) => some v
  | _ => none

/-- `find(pat)`. -/
def findText (text pat : Text) : Option Nat :=
  (List.range (text.length + 1)).find? fun i => pat.isPrefixOf (text.drop i)

/-- `find_first_of(c, pos)`. -/
def findFirstOf (text : Text) (c : UInt8) (pos : Nat) : Option Nat :=
  (List.range text.length).find? fun i => pos ≤ i ∧ text[i]? = some c

/-- `strlen(s.c_str())`. -/
def strlen (s : Text) : Nat := (s.takeWhile (· ≠ 0)).length

/-- `iss >> field_int`: without anything but spaces the variable stays as it is. -/
def scanInt (field : Int) (s : Text) : Int :=
  if s.dropWhile isSpace = [] then field
  else
    let (neg, n) := strtonum s
    if neg then max (-(2 ^ 31)) (-(n : Int)) else min (2 ^ 31 - 1) n

/-- The score of `GetScoreMap` for a field of type `int`, `none` where `substr` throws. The variable
that is read into holds `field` at first. -/
def getScoreInt (field : Int) (extend name : Text) : Option Int :=
  let len := strlen name + 2
  match findText extend name with
  | none => some 0
  | some pos1 =>
    match (findFirstOf extend 44 pos1).or (findFirstOf extend 125 pos1) with
    | none => some 0
    | some pos2 =>
      if extend.length < pos1 + len then none
      else
        let rest := extend.drop (pos1 + len)
        -- `pos2 - pos1 - len` wraps to more than any length
        some (scanInt field (if pos2 < pos1 + len then rest else rest.take (pos2 - (pos1 + len))))

/-- The members of an object, by name. -/
def NamesSorted (members : List (Text × Json)) : Prop := (members.map (·.1)).Pairwise (· < ·)

instance (members : List (Text × Json)) : Decidable (NamesSorted members) :=
  inferInstanceAs (Decidable (List.Pairwise _ _))

/-- Behind the members `before`, the value of the member `name` is its score, whatever it is and
whatever comes behind. -/
def ReadsMember (before : List (Text × Json)) (name : Text) : Prop :=
  ∀ (field v : Int) (after : List (Text × Json)), -(2 ^ 31) ≤ v → v < 2 ^ 31 →
    NamesSorted (before ++ (name, .int v) :: after) →
    getScoreInt field (writeObject (before ++ (name, .int v) :: after)) name =
      intMember (before ++ (name, .int v) :: after) name

/-- The text in front of the value of the member `name`. -/
def front (before : List (Text × Json)) (name : Text) : Text :=
  123 :: (writeMembers true before ++ (if before = [] then [] else [44]) ++ quoted name ++ [58])

/-- The name first occurs right in front of the quote and the colon before the value. -/
def FirstIsOwn (before : List (Text × Json)) (name : Text) : Prop :=
  (findText (front before name) name).map (· + strlen name + 2) = some (front before name).length

instance (before : List (Text × Json)) (name : Text) : Decidable (FirstIsOwn before name) :=
  inferInstanceAs (Decidable (_ = _))

/-! ## The text of an object -/

variable {before after : List (Text × Json)} {name : Text} {v : Int}

theorem writeMembers_append (begin : Bool) (ms ms' : List (Text × Json)) :
    writeMembers begin (ms ++ ms') =
      writeMembers begin ms ++ writeMembers (begin && ms.isEmpty) ms' := by
  induction ms generalizing begin with
  | nil => rw [nil_append, List.isEmpty_nil, Bool.and_true, writeMembers, nil_append]
  | cons m ms ih =>
    rw [cons_append, writeMembers, ih, writeMembers, List.isEmpty_cons, Bool.and_false,
      Bool.false_and, append_assoc _ _ (writeMembers false ms')]

/-- The text behind the value. -/
def back (after : List (Text × Json)) : Text := writeMembers false after ++ [125, 10]

theorem writeObject_eq : writeObject (before ++ (name, .int v) :: after) =
    front before name ++ (writeInt v ++ back after) := by
  have hsep : (if (true && before.isEmpty) = true then [] else [44] : Text) =
      if before = [] then [] else [44] := by
    cases before <;> rfl
  rw [writeObject, writeValue, writeMembers_append, writeMembers, hsep, writeMember, writeValue,
    front, back]
  simp only [append_assoc, cons_append, nil_append]

/-- Behind a value comes a comma or a brace. -/
theorem back_cons (after : List (Text × Json)) : ∃ c s, back after = c :: s ∧ (c = 44 ∨ c = 125) := by
  cases after with
  | nil => exact ⟨125, [10], rfl, .inr rfl⟩
  | cons m after => exact ⟨44, _, rfl, .inl rfl⟩

theorem brace_mem_back (after : List (Text × Json)) : (125 : UInt8) ∈ back after := by
  rw [back]
  simp

/-! No byte of the text is zero. -/

set_option maxRecDepth 2000 in
theorem zero_not_mem_escapeChar (c : UInt8) : (0 : UInt8) ∉ escapeChar c := by
  have hall : ∀ n < 256, (0 : UInt8) ∉ escapeChar (UInt8.ofNat n) := by decide
  have hc := hall c.toNat c.toNat_lt
  rwa [UInt8.ofNat_toNat] at hc

theorem zero_not_mem_quoted (s : Text) : (0 : UInt8) ∉ quoted s := by
  rw [quoted]
  simp [zero_not_mem_escapeChar]

theorem zero_not_mem_writeInt (v : Int) : (0 : UInt8) ∉ writeInt v := by
  have hdecimal : (0 : UInt8) ∉ decimal v.natAbs := fun h =>
    absurd (KeyFormat.isDigit_of_mem_decimal 0 h) (by decide)
  rw [writeInt]
  split
  · simp [hdecimal]
  · exact hdecimal

mutual

theorem zero_not_mem_writeValue : (value : Json) → (0 : UInt8) ∉ writeValue value
  | .null => by rw [writeValue]; decide
  | .bool true => by rw [writeValue]; decide
  | .bool false => by rw [writeValue]; decide
  | .int v => by rw [writeValue]; exact zero_not_mem_writeInt v
  | .real x => by rw [writeValue]; exact x.printable
  | .string s => by rw [writeValue]; exact zero_not_mem_quoted s
  | .array elements => by
    rw [writeValue]
    simp [zero_not_mem_writeElements true elements]
  | .object members => by
    rw [writeValue]
    simp [zero_not_mem_writeMembers true members]

theorem zero_not_mem_writeElements (begin : Bool) :
    (elements : List Json) → (0 : UInt8) ∉ writeElements begin elements
  | [] => by rw [writeElements]; exact List.not_mem_nil
  | value :: elements => by
    rw [writeElements]
    cases begin <;>
      simp [zero_not_mem_writeValue value, zero_not_mem_writeElements false elements]

theorem zero_not_mem_writeMember : (m : Text × Json) → (0 : UInt8) ∉ writeMember m
  | (name, value) => by
    rw [writeMember]
    simp [zero_not_mem_quoted name, zero_not_mem_writeValue value]

theorem zero_not_mem_writeMembers (begin : Bool) :
    (members : List (Text × Json)) → (0 : UInt8) ∉ writeMembers begin members
  | [] => by rw [writeMembers]; exact List.not_mem_nil
  | m :: members => by
    rw [writeMembers]
    cases begin <;> simp [zero_not_mem_writeMember m, zero_not_mem_writeMembers false members]

end

variable {text pat : Text} {p : Nat}

theorem findText_eq_some : findText text pat = some p ↔
    p ≤ text.length ∧ pat <+: text.drop p ∧ ∀ i < p, ¬pat <+: text.drop i := by
  rw [findText, List.find?_range_eq_some]
  simp only [List.isPrefixOf_iff_prefix, mem_range, Nat.lt_succ_iff, Bool.not_eq_true',
    Bool.eq_false_iff, ne_eq]
  tauto

theorem findText_length_le (h : findText text pat = some p) : p + pat.length ≤ text.length := by
  obtain ⟨hle, hprefix, -⟩ := findText_eq_some.mp h
  have := hprefix.length_le
  rw [length_drop] at this
  omega

/-- What comes behind does not matter to what is found. -/
theorem findText_append (h : findText text pat = some p) (rest : Text) :
    findText (text ++ rest) pat = some p := by
  have hfits := findText_length_le h
  obtain ⟨hle, hprefix, hfirst⟩ := findText_eq_some.mp h
  refine findText_eq_some.mpr ⟨by rw [length_append]; omega, ?_, fun i hi hpre => ?_⟩
  · rw [List.drop_append_of_le_length hle]
    exact hprefix.trans (prefix_append _ _)
  · rw [List.drop_append_of_le_length (by omega)] at hpre
    refine hfirst i hi (List.prefix_of_prefix_length_le hpre (prefix_append _ _) ?_)
    rw [length_drop]
    omega

/-- What is found only with the text behind reaches into it. -/
theorem lt_of_findText_append {rest : Text} (hnone : findText text pat = none)
    (h : findText (text ++ rest) pat = some p) : text.length < p + pat.length := by
  by_contra hle
  obtain ⟨-, hprefix, -⟩ := findText_eq_some.mp h
  rw [List.drop_append_of_le_length (by omega)] at hprefix
  have hpre : pat <+: text.drop p := by
    refine List.prefix_of_prefix_length_le hprefix (prefix_append _ _) ?_
    rw [length_drop]
    omega
  have := List.find?_eq_none.mp hnone p (mem_range.mpr (by omega))
  exact this (List.isPrefixOf_iff_prefix.mpr hpre)

theorem findFirstOf_isSome {c : UInt8} {i : Nat} (hp : p ≤ i) (hi : text[i]? = some c) :
    (findFirstOf text c p).isSome := by
  rw [findFirstOf, List.find?_isSome]
  exact ⟨i, mem_range.mpr (List.getElem?_eq_some_iff.mp hi).1, by simp [hp, hi]⟩

theorem findFirstOf_spec {c : UInt8} {i : Nat} (h : findFirstOf text c p = some i) :
    p ≤ i ∧ text[i]? = some c := by
  simpa using List.find?_some h

theorem digitsValue_of_head {rest : Text} (h : ∀ c ∈ rest.head?, isDigit c = false) (n : Nat) :
    digitsValue n rest = n := by
  cases rest with
  | nil => rfl
  | cons c rest => rw [digitsValue, if_neg (by simp [h c rfl])]

theorem not_space_of_isDigit {c : UInt8} (h : isDigit c = true) : isSpace c = false :=
  (KeyFormat.not_sign_of_isDigit h).1

theorem scanInt_writeInt {rest : Text} (h : ∀ c ∈ rest.head?, isDigit c = false)
    (hlo : -(2 ^ 31) ≤ v) (hhi : v < 2 ^ 31) (field : Int) :
    scanInt field (writeInt v ++ rest) = v := by
  by_cases hneg : v < 0
  · have hspace : ((45 : UInt8) :: (decimal v.natAbs ++ rest)).dropWhile isSpace ≠ [] := by
      rw [List.dropWhile_cons_of_neg (by decide)]
      exact List.cons_ne_nil _ _
    rw [writeInt, if_pos hneg, cons_append, scanInt, if_neg hspace,
      KeyFormat.strtonum_minus_decimal_append, digitsValue_of_head h]
    simp only [if_true]
    omega
  · obtain ⟨c, s, hcs⟩ := List.exists_cons_of_ne_nil (KeyFormat.decimal_ne_nil v.natAbs)
    have hc : isDigit c = true := KeyFormat.isDigit_of_mem_decimal c (hcs ▸ List.mem_cons_self)
    have hspace : (decimal v.natAbs ++ rest).dropWhile isSpace ≠ [] := by
      rw [hcs, cons_append, List.dropWhile_cons_of_neg (by simp [not_space_of_isDigit hc])]
      exact List.cons_ne_nil _ _
    rw [writeInt, if_neg hneg, scanInt, if_neg hspace, KeyFormat.strtonum_decimal_append,
      digitsValue_of_head h]
    simp only [Bool.false_eq_true, if_false]
    omega

theorem digitsValue_colon (s rest rest' : Text) (n : Nat) :
    digitsValue n (s ++ 58 :: rest) = digitsValue n (s ++ 58 :: rest') := by
  induction s generalizing n with
  | nil => rfl
  | cons c s ih =>
    rw [cons_append, cons_append, digitsValue, digitsValue, ih]

theorem strtonum_of_not_sign {s t : Text} {c : UInt8} (h : s.dropWhile isSpace = c :: t)
    (h45 : c ≠ 45) (h43 : c ≠ 43) : strtonum s = (false, digitsValue 0 (c :: t)) := by
  rw [strtonum, h]
  split
  · rename_i heq
    exact absurd (List.cons.inj heq).1 h45
  · rename_i heq
    exact absurd (List.cons.inj heq).1 h43
  · rfl

/-- Nothing behind a colon is read. -/
theorem scanInt_colon (field : Int) (s rest rest' : Text) :
    scanInt field (s ++ 58 :: rest) = scanInt field (s ++ 58 :: rest') := by
  have hspace : ∀ rest : Text, (s ++ 58 :: rest).dropWhile isSpace =
      s.dropWhile isSpace ++ 58 :: rest := by
    intro rest
    induction s with
    | nil => rfl
    | cons c s ih =>
      by_cases hc : isSpace c = true
      · rw [cons_append, List.dropWhile_cons_of_pos hc, List.dropWhile_cons_of_pos hc, ih]
      · rw [cons_append, List.dropWhile_cons_of_neg hc, List.dropWhile_cons_of_neg hc]
        rfl
  have hnum : strtonum (s ++ 58 :: rest) = strtonum (s ++ 58 :: rest') := by
    cases ht : s.dropWhile isSpace with
    | nil => rw [strtonum, strtonum, hspace, hspace, ht]; rfl
    | cons c t =>
      by_cases h45 : c = 45
      · subst h45
        simp only [strtonum, hspace, ht, cons_append, digitsValue_colon t rest rest']
      · by_cases h43 : c = 43
        · subst h43
          simp only [strtonum, hspace, ht, cons_append, digitsValue_colon t rest rest']
        · have hc : ∀ rest : Text, strtonum (s ++ 58 :: rest) =
              (false, digitsValue 0 ((c :: t) ++ 58 :: rest)) := fun rest =>
            strtonum_of_not_sign (by rw [hspace, ht]; rfl) h45 h43
          rw [hc, hc, digitsValue_colon (c :: t) rest rest']
  rw [scanInt, scanInt, hspace, hspace, if_neg (by simp), if_neg (by simp), hnum]

theorem scanInt_take_colon (field : Int) (s rest rest' : Text) (n : Nat) :
    scanInt field ((s ++ 58 :: rest).take n) = scanInt field ((s ++ 58 :: rest').take n) := by
  by_cases hn : n ≤ s.length
  · rw [List.take_append_of_le_length hn, List.take_append_of_le_length hn]
  · obtain ⟨k, rfl⟩ := Nat.exists_eq_add_of_lt (not_le.mp hn)
    have htake : ∀ rest : Text, (s ++ 58 :: rest).take (s.length + k + 1) =
        s ++ 58 :: rest.take k := by
      intro rest
      rw [List.take_append, take_of_length_le (by omega),
        show s.length + k + 1 - s.length = k + 1 by omega, List.take_succ_cons]
    rw [htake, htake, scanInt_colon field s _ (rest'.take k)]

theorem separator_not_mem_writeInt {c : UInt8} (h : c ∈ writeInt v) : c ≠ 44 ∧ c ≠ 125 := by
  have hdigit : isDigit c = true → c ≠ 44 ∧ c ≠ 125 := by
    intro hc
    constructor <;> rintro rfl <;> cases hc
  rw [writeInt] at h
  split at h
  · rcases List.mem_cons.mp h with rfl | h
    · decide
    · exact hdigit (KeyFormat.isDigit_of_mem_decimal c h)
  · exact hdigit (KeyFormat.isDigit_of_mem_decimal c h)

/-- Where the first name found is the member's, its value is read. -/
theorem getScoreInt_of_firstIsOwn (h : FirstIsOwn before name) (field : Int)
    (hlo : -(2 ^ 31) ≤ v) (hhi : v < 2 ^ 31) :
    getScoreInt field (writeObject (before ++ (name, .int v) :: after)) name = some v := by
  obtain ⟨pos1, hfind, hstart⟩ := Option.map_eq_some_iff.mp h
  rw [writeObject_eq]
  set text := front before name ++ (writeInt v ++ back after) with htext
  have hlen : text.length = (front before name).length + (writeInt v ++ back after).length := by
    rw [htext, length_append]
  obtain ⟨i, hi⟩ := List.mem_iff_getElem?.mp (brace_mem_back after)
  have hbrace : text[(front before name).length + ((writeInt v).length + i)]? = some 125 := by
    rw [htext, List.getElem?_append_right (by omega), Nat.add_sub_cancel_left,
      List.getElem?_append_right (by omega), Nat.add_sub_cancel_left, hi]
  have hrest : text.drop (front before name).length = writeInt v ++ back after := by
    rw [htext, List.drop_left]
  obtain ⟨c, s, hback, hc⟩ := back_cons after
  have hnotDigit : ∀ c ∈ (back after).head?, isDigit c = false := by
    rw [hback]
    rintro _ ⟨⟩
    rcases hc with rfl | rfl <;> rfl
  rw [getScoreInt, findText_append hfind]
  simp only [← Nat.add_assoc, hstart]
  cases hpos2 : (findFirstOf text 44 pos1).or (findFirstOf text 125 pos1) with
  | none =>
    have hsome := findFirstOf_isSome (p := pos1) (by omega) hbrace
    rw [Option.or_eq_none_iff.mp hpos2 |>.2] at hsome
    cases hsome
  | some pos2 =>
    have hchar : text[pos2]? = some 44 ∨ text[pos2]? = some 125 := by
      rcases Option.or_eq_some_iff.mp hpos2 with h | ⟨-, h⟩
      · exact .inl (findFirstOf_spec h).2
      · exact .inr (findFirstOf_spec h).2
    simp only [hrest]
    rw [if_neg (by omega)]
    by_cases hlt : pos2 < (front before name).length
    · rw [if_pos hlt, scanInt_writeInt hnotDigit hlo hhi]
    · -- the comma or brace comes behind the digits
      obtain ⟨k, rfl⟩ := Nat.exists_eq_add_of_le (not_lt.mp hlt)
      have hk : (writeInt v).length ≤ k := by
        by_contra hk
        have hget : text[(front before name).length + k]? = (writeInt v)[k]? := by
          rw [htext, List.getElem?_append_right (by omega), Nat.add_sub_cancel_left,
            List.getElem?_append_left (by omega)]
        rw [hget] at hchar
        rcases hchar with h | h
        · exact (separator_not_mem_writeInt (List.mem_of_getElem? h)).1 rfl
        · exact (separator_not_mem_writeInt (List.mem_of_getElem? h)).2 rfl
      rw [if_neg hlt, Nat.add_sub_cancel_left, List.take_append, take_of_length_le hk,
        scanInt_writeInt _ hlo hhi]
      intro c hc
      rw [List.head?_take] at hc
      split at hc
      · cases hc
      · exact hnotDigit c hc

/-! ## When it is not -/

theorem infix_of_findText (h : findText text pat = some p) : pat <:+: text :=
  (findText_eq_some.mp h).2.1.isInfix.trans (List.drop_suffix p text).isInfix

theorem strlen_eq (h : (0 : UInt8) ∉ pat) : strlen pat = pat.length := by
  rw [strlen, List.takeWhile_eq_self_iff.mpr]
  intro c hc
  exact decide_eq_true fun h0 => h (h0 ▸ hc)

theorem strlen_le (pat : Text) : strlen pat ≤ pat.length :=
  (List.takeWhile_prefix _).length_le

/-- A digit as the last value of an object. -/
def lastDigit (before : List (Text × Json)) (name : Text) (digit : UInt8) : Text :=
  front before name ++ digit :: [125, 10]

theorem zero_not_mem_front : (0 : UInt8) ∉ front before name := by
  rw [front]
  by_cases h : before = [] <;> simp [h, zero_not_mem_writeMembers, zero_not_mem_quoted]

/-- Where the name is not found in front of the value, nothing is read. -/
theorem getScoreInt_of_not_found (h : findText (front before name) name = none) (field : Int)
    {digit : UInt8} (hdigit : digit ≠ 0) {score : Int}
    (hscore : getScoreInt field (lastDigit before name digit) name = some score) :
    score = 0 ∨ score = field := by
  have hlen : (lastDigit before name digit).length = (front before name).length + 3 := by
    rw [lastDigit, length_append]
    rfl
  rw [getScoreInt] at hscore
  cases hfind : findText (lastDigit before name digit) name with
  | none =>
    rw [hfind] at hscore
    exact .inl (Option.some.inj hscore).symm
  | some pos1 =>
    have hlate := lt_of_findText_append h hfind
    have hzero : (0 : UInt8) ∉ name := by
      intro hmem
      have := (infix_of_findText hfind).subset hmem
      rw [lastDigit] at this
      simp [zero_not_mem_front, hdigit.symm] at this
    rw [hfind] at hscore
    simp only [strlen_eq hzero] at hscore
    split at hscore
    · exact .inl (Option.some.inj hscore).symm
    · split at hscore
      · cases hscore
      · right
        rw [List.drop_of_length_le (by omega), List.take_nil, ite_self] at hscore
        exact (Option.some.inj hscore).symm

/-- Where the text is read from another place, the digit does not matter. -/
theorem getScoreInt_of_other_place {pos1 : Nat} (h : findText (front before name) name = some pos1)
    (hne : pos1 + strlen name + 2 ≠ (front before name).length) (field : Int) {digit digit' : UInt8}
    (hdigit : digit ≠ 44 ∧ digit ≠ 125) (hdigit' : digit' ≠ 44 ∧ digit' ≠ 125) :
    getScoreInt field (lastDigit before name digit) name =
      getScoreInt field (lastDigit before name digit') name := by
  have hfits := findText_length_le h
  have hstrlen := strlen_le name
  have hlen : ∀ d, (lastDigit before name d).length = (front before name).length + 3 := by
    intro d
    rw [lastDigit, length_append]
    rfl
  have hsep : ∀ c : UInt8, c = 44 ∨ c = 125 → findFirstOf (lastDigit before name digit) c pos1 =
      findFirstOf (lastDigit before name digit') c pos1 := by
    intro c hc
    have hget : ∀ i : Nat, (lastDigit before name digit)[i]? = some c ↔
        (lastDigit before name digit')[i]? = some c := by
      intro i
      rw [lastDigit, lastDigit, List.getElem?_append, List.getElem?_append]
      split
      · rfl
      · cases i - (front before name).length with
        | zero => rcases hc with rfl | rfl <;> simp [hdigit, hdigit']
        | succ i => rfl
    simp only [findFirstOf, hlen, hget]
  have hrest : ∀ n, scanInt field (((lastDigit before name digit).drop
      (pos1 + (strlen name + 2))).take n) = scanInt field (((lastDigit before name digit').drop
      (pos1 + (strlen name + 2))).take n) := by
    intro n
    obtain hlt | hgt : pos1 + (strlen name + 2) < (front before name).length ∨
        (front before name).length < pos1 + (strlen name + 2) := by omega
    · obtain ⟨s, hs⟩ : ∃ s, front before name = s ++ [58] :=
        ⟨_, by rw [front, ← cons_append]⟩
      rw [hs, length_append, List.length_singleton] at hlt
      rw [lastDigit, lastDigit, hs, append_assoc, append_assoc,
        List.drop_append_of_le_length (by omega), List.drop_append_of_le_length (by omega)]
      exact scanInt_take_colon _ _ _ _ _
    · obtain ⟨k, hk⟩ := Nat.exists_eq_add_of_lt hgt
      have hdrop : ∀ d, (lastDigit before name d).drop (pos1 + (strlen name + 2)) =
          [125, 10].drop k := by
        intro d
        rw [hk, lastDigit, List.drop_append, List.drop_of_length_le (by omega), nil_append,
          show (front before name).length + k + 1 - (front before name).length = k + 1 by omega,
          List.drop_succ_cons]
      rw [hdrop, hdrop]
  have hall := hrest (front before name).length.succ.succ.succ
  rw [take_of_length_le (by rw [length_drop, hlen]; omega),
    take_of_length_le (by rw [length_drop, hlen]; omega)] at hall
  have hfind : ∀ d, findText (lastDigit before name d) name = some pos1 := fun d =>
    findText_append h _
  simp only [getScoreInt, hfind, hsep 44 (.inl rfl), hsep 125 (.inr rfl), hlen]
  split
  · rfl
  · split
    · rfl
    · split
      · rw [hall]
      · rw [hrest]

theorem intMember_eq (h : NamesSorted (before ++ (name, .int v) :: after)) :
    intMember (before ++ (name, .int v) :: after) name = some v := by
  have hbefore : before.find? (fun m => m.1 = name) = none := by
    rw [List.find?_eq_none]
    intro m hm heq
    rw [NamesSorted, List.map_append, List.pairwise_append] at h
    have hlt := h.2.2 m.1 (List.mem_map_of_mem hm) name List.mem_cons_self
    rw [of_decide_eq_true heq] at hlt
    exact List.lt_irrefl name hlt
  rw [intMember, List.find?_append, hbefore, Option.none_or, List.find?_cons_of_pos (by simp)]

theorem writeObject_lastDigit (digit : UInt8) (hdigit : writeInt v = [digit]) :
    writeObject (before ++ [(name, .int v)]) = lastDigit before name digit := by
  rw [writeObject_eq, hdigit]
  rfl

theorem writeInt_digit {n : Nat} (h : n < 10) : writeInt n = [UInt8.ofNat (48 + n)] := by
  rw [writeInt, if_neg (by omega), Int.natAbs_natCast, decimal, dif_pos h]

/-- The value of a member is read, whatever it is, where the first name found is the member's. -/
theorem readsMember_iff (h : NamesSorted (before ++ [(name, .null)])) :
    ReadsMember before name ↔ FirstIsOwn before name := by
  constructor
  · intro hreads
    have hsorted (v : Int) : NamesSorted (before ++ (name, .int v) :: []) := by
      rwa [NamesSorted, List.map_append] at h ⊢
    have hdigit (field : Int) {v : Int} (hlo : -(2 ^ 31) ≤ v) (hhi : v < 2 ^ 31) {digit : UInt8}
        (heq : writeInt v = [digit]) :
        getScoreInt field (lastDigit before name digit) name = some v := by
      rw [← writeObject_lastDigit digit heq, hreads field v [] hlo hhi (hsorted v),
        intMember_eq (hsorted v)]
    have hone := @hdigit 0 1 (by decide) (by decide) 49 (@writeInt_digit 1 (by decide))
    have htwo := @hdigit 0 2 (by decide) (by decide) 50 (@writeInt_digit 2 (by decide))
    cases hfind : findText (front before name) name with
    | none => rcases getScoreInt_of_not_found hfind 0 (by decide) hone with h | h <;> cases h
    | some pos1 =>
      by_contra hne
      have hplace : pos1 + strlen name + 2 ≠ (front before name).length := fun heq =>
        hne (by rw [FirstIsOwn, hfind, Option.map_some, heq])
      have hother := @getScoreInt_of_other_place before name pos1 hfind hplace 0 49 50 (by decide)
        (by decide)
      rw [hone, htwo] at hother
      cases hother
  · intro hown field v after hlo hhi hsorted
    rw [getScoreInt_of_firstIsOwn hown field hlo hhi, intMember_eq hsorted]

/-- `score` behind `id`. -/
theorem readsMember_score : ReadsMember [([105, 100], .string [120])] [115, 99, 111, 114, 101] :=
  (readsMember_iff (by decide)).mpr (by decide)

/-- The name `age` is found in `Image`, and the string behind is read as 0. -/
theorem not_readsMember_image :
    ¬ReadsMember [([73, 109, 97, 103, 101], .string [120])] [97, 103, 101] := by
  intro h
  have hdigit : writeInt 7 = [55] := @writeInt_digit 7 (by decide)
  have hseven := h 0 7 [] (by decide) (by decide) (by decide)
  rw [writeObject_lastDigit 55 hdigit] at hseven
  exact absurd hseven (by decide)

end ISearch.DocManager
