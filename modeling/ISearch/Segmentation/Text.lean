import ISearch.Segmentation.Dag

/-!
# Texts in UTF-8 (`utf8_str.cc`)

A well-formed text is cut at the first bytes of its characters, so that positions, characters and
substrings are those of the list of characters.
-/

namespace ISearch.Segmentation

open List

/-- `operator[]`. -/
def charAt (data : Word) (index : Nat) : Word :=
  if index ≥ length data then []
  else
    let start := (offerset data).getD index 0
    let stop := (offerset data).getD (index + 1) 0
    (data.drop start).take (stop - start)

/-- The bytes of a text in UTF-8. -/
def encode (chars : List Char) : Word := chars.flatMap String.utf8EncodeChar

/-- The bytes of one character: only the first one is taken for a start. -/
def IsCharacter (c : Word) : Prop :=
  ∃ b rest, c = b :: rest ∧ starts b = true ∧ ∀ b' ∈ rest, starts b' = false

theorem starts_ascii : ∀ v < 128, v ≠ 0 → starts (UInt8.ofNat v) = true := by decide

theorem starts_continuation : ∀ v < 64, starts (UInt8.ofNat (v + 0x80)) = false := by decide

theorem starts_lead : ∀ v < 64, starts (UInt8.ofNat (v + 0xc0)) = true := by decide

theorem isCharacter_utf8EncodeChar {c : Char} (hc : c ≠ '\x00') :
    IsCharacter (String.utf8EncodeChar c) := by
  have hcont (v : Nat) : starts (UInt8.ofNat (v % 64 + 0x80)) = false :=
    starts_continuation _ (Nat.mod_lt _ (by decide))
  have hzero : c.val.toNat ≠ 0 := fun h => hc (Char.ext (UInt32.toNat.inj h))
  rw [String.utf8EncodeChar]
  split_ifs with h₁ h₂ h₃
  · exact ⟨_, [], rfl, starts_ascii _ (by omega) hzero, nofun⟩
  · exact ⟨_, _, rfl, starts_lead _ (by omega), forall_mem_singleton.mpr (hcont _)⟩
  · refine ⟨_, _, rfl, ?_, ?_⟩
    · rw [show c.val.toNat / 4096 % 16 + 0xe0 = c.val.toNat / 4096 % 16 + 32 + 0xc0 by omega]
      exact starts_lead _ (by omega)
    · exact forall_mem_cons.mpr ⟨hcont _, forall_mem_singleton.mpr (hcont _)⟩
  · refine ⟨_, _, rfl, ?_, ?_⟩
    · rw [show c.val.toNat / 262144 % 8 + 0xf0 = c.val.toNat / 262144 % 8 + 48 + 0xc0 by omega]
      exact starts_lead _ (by omega)
    · exact forall_mem_cons.mpr ⟨hcont _,
        forall_mem_cons.mpr ⟨hcont _, forall_mem_singleton.mpr (hcont _)⟩⟩

theorem utf8EncodeChar_injective : Function.Injective String.utf8EncodeChar := by
  intro c d h
  have hbytes : (String.ofList [c]).toByteArray = (String.ofList [d]).toByteArray := by
    rw [String.toByteArray_ofList, String.toByteArray_ofList, utf8Encode_singleton,
      utf8Encode_singleton, h]
  exact singleton_inj.mp (String.ofList_inj.mp (String.toByteArray_inj.mp hbytes))

theorem IsCharacter.length_pos {c : Word} (hc : IsCharacter c) : 0 < List.length c := by
  obtain ⟨b, rest, rfl, -⟩ := hc
  exact Nat.succ_pos _

theorem IsCharacter.ne_nil {c : Word} (hc : IsCharacter c) : c ≠ [] :=
  ne_nil_of_length_pos hc.length_pos

/-! ## The positions -/

theorem filter_starts_character {c data : Word} (hc : IsCharacter c) :
    (List.range c.length).filter (fun i => starts ((c ++ data).getD i 0)) = [0] := by
  obtain ⟨b, rest, rfl, hb, hrest⟩ := hc
  rw [length_cons, range_succ_eq_map, filter_cons_of_pos (by simpa using hb),
    filter_eq_nil_iff.mpr]
  intro i hi
  obtain ⟨k, hk, rfl⟩ := mem_map.mp hi
  have hk' : k < rest.length := mem_range.mp hk
  rw [cons_append, getD_cons_succ, getD_append _ _ _ _ hk',
    getD_eq_getElem _ _ hk', hrest _ (getElem_mem hk')]
  exact Bool.false_ne_true

theorem offerset_character {c data : Word} (hc : IsCharacter c) :
    offerset (c ++ data) = 0 :: (offerset data).map (c.length + ·) := by
  rw [offerset, length_append, range_add, filter_append,
    filter_starts_character hc, filter_map, offerset, map_append, map_singleton]
  have hshift : (fun i => starts ((c ++ data).getD i 0)) ∘ (c.length + ·) =
      fun i => starts (data.getD i 0) := by
    funext i
    simp only [Function.comp_apply]
    rw [getD_append_right _ _ _ _ (Nat.le_add_right _ _), Nat.add_sub_cancel_left]
  rw [hshift]
  rfl

theorem offerset_flatten {cs : List Word} (hcs : ∀ c ∈ cs, IsCharacter c) :
    offerset cs.flatten = (List.range (cs.length + 1)).map fun i => (cs.take i).flatten.length := by
  induction cs with
  | nil => rfl
  | cons c cs ih =>
    obtain ⟨hc, hcs⟩ := forall_mem_cons.mp hcs
    rw [flatten_cons, offerset_character hc, ih hcs, length_cons,
      range_succ_eq_map (n := cs.length + 1), map_cons, map_map, map_map]
    simp [Function.comp_def]

variable {cs : List Word}

theorem length_flatten (hcs : ∀ c ∈ cs, IsCharacter c) : length cs.flatten = cs.length := by
  rw [length, offerset_flatten hcs, length_map, length_range, Nat.add_sub_cancel]

theorem getD_offerset (hcs : ∀ c ∈ cs, IsCharacter c) {i : Nat} (hi : i ≤ cs.length) :
    (offerset cs.flatten).getD i 0 = (cs.take i).flatten.length := by
  rw [offerset_flatten hcs, getD_eq_getElem?_getD, List.getElem?_map,
    List.getElem?_range (by omega)]
  rfl

/-- The bytes between two characters. -/
theorem drop_take_flatten {i n : Nat} :
    (cs.flatten.drop (cs.take i).flatten.length).take
      ((cs.take (i + n)).flatten.length - (cs.take i).flatten.length) =
      ((cs.drop i).take n).flatten := by
  have hdrop : cs.flatten.drop (cs.take i).flatten.length = (cs.drop i).flatten := by
    conv_lhs => rw [← take_append_drop i cs, flatten_append, take_append_drop,
      drop_left]
  have hlength : (cs.take (i + n)).flatten.length - (cs.take i).flatten.length =
      ((cs.drop i).take n).flatten.length := by
    rw [take_add, flatten_append, length_append, Nat.add_sub_cancel_left]
  rw [hdrop, hlength]
  conv_lhs => rw [← take_append_drop n (cs.drop i), flatten_append,
    take_append_drop, take_left]

theorem substr_flatten (hcs : ∀ c ∈ cs, IsCharacter c) {i n : Nat} (h : i + n ≤ cs.length) :
    substr cs.flatten i n = ((cs.drop i).take n).flatten := by
  have hle : (cs.take i).flatten.length ≤ (cs.take (i + n)).flatten.length := by
    rw [take_add, flatten_append, length_append]
    exact Nat.le_add_right _ _
  have hsum : ((i : Int) + n).toNat = i + n := by omega
  rw [substr, length_flatten hcs, if_neg (by omega), hsum, getD_offerset hcs h,
    getD_offerset hcs (by omega)]
  dsimp only
  rw [if_neg hle.not_gt, drop_take_flatten]

theorem charAt_flatten (hcs : ∀ c ∈ cs, IsCharacter c) {i : Nat} (h : i < cs.length) :
    charAt cs.flatten i = cs[i] := by
  rw [charAt, length_flatten hcs, if_neg h.not_ge, getD_offerset hcs h, getD_offerset hcs h.le]
  refine (drop_take_flatten (n := 1)).trans ?_
  rw [drop_eq_getElem_cons h, take_succ_cons, take_zero, flatten_singleton]

/-- The characters of a text. -/
theorem map_charAt (hcs : ∀ c ∈ cs, IsCharacter c) :
    (List.range (length cs.flatten)).map (charAt cs.flatten) = cs := by
  rw [length_flatten hcs]
  refine ext_getElem (by simp) fun i hi hi' => ?_
  rw [getElem_map, getElem_range, charAt_flatten hcs hi']

theorem encode_eq (chars : List Char) :
    encode chars = (chars.map String.utf8EncodeChar).flatten := flatMap_def ..

theorem encode_append (a b : List Char) : encode (a ++ b) = encode a ++ encode b :=
  flatMap_append ..

theorem encode_injective : Function.Injective encode := by
  intro a b h
  have hbytes : (String.ofList a).toByteArray = (String.ofList b).toByteArray := by
    rw [String.toByteArray_ofList, String.toByteArray_ofList]
    exact ByteArray.ext (Array.ext' (by simpa [List.utf8Encode, encode] using h))
  exact String.ofList_inj.mp (String.toByteArray_inj.mp hbytes)

theorem isCharacter_of_mem {chars : List Char} (hchars : '\x00' ∉ chars) :
    ∀ c ∈ chars.map String.utf8EncodeChar, IsCharacter c := by
  intro c hc
  obtain ⟨ch, hch, rfl⟩ := mem_map.mp hc
  exact isCharacter_utf8EncodeChar fun h => hchars (h ▸ hch)

theorem offerset_skip {g data : Word} (hg : ∀ b ∈ g, starts b = false) :
    offerset (g ++ data) = (offerset data).map (g.length + ·) := by
  have hnone : (List.range g.length).filter (fun i => starts ((g ++ data).getD i 0)) = [] := by
    refine filter_eq_nil_iff.mpr fun i hi => ?_
    have hi : i < g.length := mem_range.mp hi
    rw [getD_append _ _ _ _ hi, getD_eq_getElem _ _ hi, hg _ (getElem_mem hi)]
    exact Bool.false_ne_true
  rw [offerset, length_append, range_add, filter_append, hnone, nil_append,
    filter_map, offerset, map_append, map_singleton]
  have hshift : (fun i => starts ((g ++ data).getD i 0)) ∘ (g.length + ·) =
      fun i => starts (data.getD i 0) := by
    funext i
    simp only [Function.comp_apply]
    rw [getD_append_right _ _ _ _ (Nat.le_add_right _ _), Nat.add_sub_cancel_left]
  rw [hshift]

theorem length_skip {g data : Word} (hg : ∀ b ∈ g, starts b = false) :
    length (g ++ data) = length data := by
  rw [length, offerset_skip hg, length_map, length]

theorem substr_skip {g data : Word} (hg : ∀ b ∈ g, starts b = false) {i n : Nat}
    (h : i + n ≤ length data) : substr (g ++ data) i n = substr data i n := by
  have hget (j : Nat) (hj : j ≤ length data) :
      (offerset (g ++ data)).getD j 0 = g.length + (offerset data).getD j 0 := by
    have hlt : j < (offerset data).length := by
      rw [offerset, length_append, length_singleton]
      rw [length, offerset, length_append, length_singleton] at hj
      omega
    rw [offerset_skip hg, getD_eq_getElem _ _ (by rwa [length_map]), getElem_map,
      getD_eq_getElem _ _ hlt]
  have hsum : ((i : Int) + n).toNat = i + n := by omega
  simp only [substr, length_skip hg, hsum, hget _ h, hget i (by omega), Nat.add_lt_add_iff_left,
    drop_length_add_append, Nat.add_sub_add_left]

end ISearch.Segmentation
