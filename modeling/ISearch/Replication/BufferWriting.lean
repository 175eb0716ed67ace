import ISearch.Replication.ElasticBuffer

/-!
# Writing into the elastic buffer

The links between the fields that every use of an elastic buffer keeps, and what `appendStrValue`
does as long as all strings fit into the first buffer. Once they do not, the writing place is in
another buffer or `mCacheBufferNum` is more than one.
-/

namespace ISearch.Replication

open Option

variable {B : BufferSize}

theorem toInt_eq (n : Nat) :
    toInt n = if n % 2 ^ 32 < 2 ^ 31 then ((n % 2 ^ 32 : Nat) : Int)
      else ((n % 2 ^ 32 : Nat) : Int) - 2 ^ 32 := by
  rw [toInt, Int.bmod_def]
  split <;> split <;> omega

theorem toInt_of_lt {n : Nat} (h : n < 2 ^ 31) : toInt n = n := by
  rw [toInt_eq, if_pos (by omega)]
  omega

theorem toNat_toInt_le (n : Nat) : (toInt n).toNat ≤ n := by
  have := Nat.mod_le n (2 ^ 32)
  rw [toInt_eq]
  split <;> omega

namespace ElasticBuffer

/-! ## What the writing operations keep -/

/-- The links between the fields: what `mCacheBufferNum` counts includes the buffers of the chain,
and there is nothing behind the writing buffer. -/
structure Inv (b : ElasticBuffer B) : Prop where
  length_le : b.buffers.length ≤ b.cacheBufferNum
  fresh : b.buffers = [] → b.cacheBufferNum = 0 ∧ b.writing = 0
  behind : ∀ {i u}, b.writing < i → b.buffers[i]? = some u → u.dataLen.1 = 0

/-- `b'` comes from `b` by writing. -/
def Writes (b b' : ElasticBuffer B) : Prop :=
  b.Inv → b'.Inv ∧ b.cacheBufferNum ≤ b'.cacheBufferNum ∧ b.writing ≤ b'.writing ∧
    b'.readLen = b.readLen

theorem Writes.refl (b : ElasticBuffer B) : Writes b b :=
  fun hb => ⟨hb, Nat.le_refl _, Nat.le_refl _, rfl⟩

theorem Writes.trans {a b c : ElasticBuffer B} (hab : Writes a b) (hbc : Writes b c) :
    Writes a c := by
  intro ha
  obtain ⟨hb, hn, hw, hr⟩ := hab ha
  obtain ⟨hc, hn', hw', hr'⟩ := hbc hb
  exact ⟨hc, hn.trans hn', hw.trans hw', hr'.trans hr⟩

theorem inv_new : (new : ElasticBuffer B).Inv :=
  ⟨Nat.le_refl _, fun _ => ⟨rfl, rfl⟩, by simp [new]⟩

theorem inv_resetElasticBuffer {b : ElasticBuffer B} (hb : b.Inv) : b.resetElasticBuffer.Inv where
  length_le := by simpa [resetElasticBuffer] using hb.length_le
  fresh h := ⟨(hb.fresh (by simpa [resetElasticBuffer] using h)).1, rfl⟩
  behind _ h := by
    simp only [resetElasticBuffer, List.getElem?_map, map_eq_some_iff] at h
    obtain ⟨u, -, rfl⟩ := h
    rfl

theorem skipBuffers_eq {n i j skipLen : Nat} {r : Fin B.1}
    (h : skipBuffers B n i skipLen = some (j, r)) : i ≤ j ∧ j * B.1 + r.1 = i * B.1 + skipLen := by
  fun_induction skipBuffers B n i skipLen with
  | case1 i skipLen hlt =>
    cases h
    exact ⟨Nat.le_refl _, rfl⟩
  | case2 i skipLen hlt hi ih =>
    obtain ⟨hij, hj⟩ := ih h
    refine ⟨by omega, ?_⟩
    rw [hj, Nat.succ_mul]
    omega
  | case3 => cases h

theorem skipBuffers_of_lt {n i skipLen : Nat} (h : skipLen < B.1) :
    skipBuffers B n i skipLen = some (i, ⟨skipLen, h⟩) := by
  rw [skipBuffers, dif_pos h]

/-- A buffer that is linked behind the writing buffer or a later one. -/
theorem link_writes (heap : Nat → Nat → UInt8) (b : ElasticBuffer B) {cur : Nat}
    (hcur : b.writing ≤ cur) :
    Writes b { b with
      buffers := b.buffers.take (cur + 1) ++ [.new (heap b.cacheBufferNum)]
      cacheBufferNum := b.cacheBufferNum + 1 } := by
  intro hinv
  refine ⟨⟨?_, by simp, ?_⟩, by simp, Nat.le_refl _, rfl⟩
  · have := hinv.length_le
    simp only [List.length_append, List.length_take, List.length_singleton]
    omega
  · intro i u hi hu
    simp only [List.getElem?_append, List.length_take, List.getElem?_take] at hu
    split at hu
    · split at hu
      · exact hinv.behind hi hu
      · cases hu
    · obtain rfl := List.mem_singleton.mp (List.mem_of_getElem? hu)
      rfl

theorem expandLoop_writes {heap : Nat → Nat → UInt8} {b b' : ElasticBuffer B} {cur : Nat}
    {totalLen : Int} (hcur : b.buffers ≠ [] → b.writing ≤ cur)
    (h : b.expandLoop heap cur totalLen = some b') : Writes b b' := by
  fun_induction expandLoop heap b cur totalLen with
  | case1 b cur totalLen hc hb ih =>
    refine Writes.trans ?_ (ih (fun _ => Nat.le_refl _) h)
    intro hinv
    have hw := (hinv.fresh hb).2
    refine ⟨⟨by simp, by simp, ?_⟩, by simp, by simp [hw], rfl⟩
    intro i u hi hu
    obtain ⟨i, rfl⟩ : ∃ k, i = k + 1 := ⟨i - 1, by simp at hi; omega⟩
    simp at hu
  | case2 b cur totalLen hc hb hlt ih =>
    exact (link_writes heap b (hcur hb)).trans (ih (fun _ => Nat.le_succ_of_le (hcur hb)) h)
  | case3 => cases h
  | case4 b cur totalLen hc =>
    cases h
    exact .refl _

theorem expandElasticBuffer_writes {heap : Nat → Nat → UInt8} {b b' : ElasticBuffer B}
    {dataLen : Int} (h : b.expandElasticBuffer heap dataLen = some b') : Writes b b' := by
  rw [expandElasticBuffer] at h
  split at h
  · split at h
    · cases h
      exact .refl _
    · exact expandLoop_writes (fun _ => Nat.le_refl _) h
  · exact expandLoop_writes (fun _ => Nat.le_refl _) h

theorem getWritingPos_writes {heap : Nat → Nat → UInt8} {b b' : ElasticBuffer B} {dataLen : Int}
    {atomicLen : Bool} (h : b.getWritingPos heap dataLen atomicLen = some b') : Writes b b' := by
  simp only [getWritingPos, bind_eq_bind, bind_eq_some_iff] at h
  obtain ⟨b₁, h₁, u, hu, v, hv, h⟩ := h
  cases h
  refine (expandElasticBuffer_writes h₁).trans ?_
  split
  · intro hinv
    refine ⟨⟨hinv.length_le, fun hb => ?_, fun hi => hinv.behind (by simp at hi; omega)⟩,
      Nat.le_refl _, Nat.le_succ _, rfl⟩
    simp [show b₁.buffers = [] from hb] at hu
  · exact .refl b₁

theorem drawingWritingPos_writes {b b' : ElasticBuffer B} {dataLen : Nat}
    (h : b.drawingWritingPos dataLen = some b') : Writes b b' := by
  simp only [drawingWritingPos, bind_eq_bind, bind_eq_some_iff] at h
  obtain ⟨u, hu, ⟨i, r⟩, hi, h⟩ := h
  cases h
  obtain ⟨hle, -⟩ := skipBuffers_eq hi
  intro hinv
  refine ⟨⟨by simpa using hinv.length_le, fun hb => ?_, ?_⟩, Nat.le_refl _, hle, rfl⟩
  · have hb' : b.buffers = [] := by simpa [List.modify_eq_nil_iff] using hb
    simp [hb'] at hu
  · intro j v hj hv
    have hij : i ≠ j := Nat.ne_of_lt hj
    simp only [List.getElem?_modify, hij, if_false] at hv
    simp only [id_map'] at hv
    exact hinv.behind (Nat.lt_of_le_of_lt hle hj) hv

theorem copyTo_writes {b b' : ElasticBuffer B} {i pos : Nat} {bs : Bytes}
    (h : b.copyTo i pos bs = some b') : Writes b b' := by
  rw [copyTo] at h
  split at h
  · cases h
    intro hinv
    refine ⟨⟨by simpa using hinv.length_le, fun hb => ?_, ?_⟩, Nat.le_refl _, Nat.le_refl _, rfl⟩
    · exact hinv.fresh (by simpa [List.modify_eq_nil_iff] using hb)
    · intro j v hj hv
      simp only [List.getElem?_modify, map_eq_map, map_eq_some_iff] at hv
      obtain ⟨w, hw, rfl⟩ := hv
      split
      · exact hinv.behind (u := w) hj hw
      · exact hinv.behind hj hw
  · cases h

theorem appendLoop_writes {value : Bytes} {i pos : Nat} {b b' : ElasticBuffer B} {dataLen : Nat}
    (h : appendLoop value i pos b dataLen = some b') : Writes b b' := by
  fun_induction appendLoop value i pos b dataLen with
  | case1 =>
    cases h
    exact .refl _
  | case2 => cases h
  | case3 b dataLen hne u hu curLen ih =>
    simp only [bind_eq_bind, bind_eq_some_iff] at h
    obtain ⟨b₁, h₁, b₂, h₂, h⟩ := h
    exact (copyTo_writes h₁).trans ((drawingWritingPos_writes h₂).trans (ih b₂ h))

theorem appendStrValue_writes {heap : Nat → Nat → UInt8} {b b' : ElasticBuffer B} {value : Bytes}
    (h : b.appendStrValue heap value = some b') : Writes b b' := by
  simp only [appendStrValue, bind_eq_bind, bind_eq_some_iff] at h
  obtain ⟨b₁, h₁, u, -, b₂, h₂, b₃, h₃, b₄, h₄, v, -, h₅⟩ := h
  exact (getWritingPos_writes h₁).trans ((copyTo_writes h₂).trans
    ((drawingWritingPos_writes h₃).trans ((getWritingPos_writes h₄).trans (appendLoop_writes h₅))))

theorem appendStrs_writes {heap : Nat → Nat → UInt8} {b b' : ElasticBuffer B} {ss : List Bytes}
    (h : b.appendStrs heap ss = some b') : Writes b b' := by
  induction ss generalizing b with
  | nil =>
    cases h
    exact .refl _
  | cons s ss ih =>
    simp only [appendStrs, bind_eq_bind, bind_eq_some_iff] at h
    obtain ⟨b₁, h₁, h⟩ := h
    exact (appendStrValue_writes h₁).trans (ih h)

theorem recieveLoop_writes {heap : Nat → Nat → UInt8} {b : ElasticBuffer B} {stream : Bytes}
    {dataLen : Nat} {r : ElasticBuffer B × Bytes}
    (h : b.recieveLoop heap stream dataLen = some r) : Writes b r.1 := by
  fun_induction recieveLoop heap b stream dataLen with
  | case1 =>
    cases h
    exact .refl _
  | case2 b stream dataLen hne singleReadLen ih =>
    simp only [bind_eq_bind, bind_eq_some_iff] at h
    obtain ⟨b₁, h₁, u, -, h⟩ := h
    split at h
    · cases h
    · simp only [bind_eq_some_iff] at h
      obtain ⟨b₂, h₂, b₃, h₃, h⟩ := h
      exact (getWritingPos_writes h₁).trans ((copyTo_writes h₂).trans
        ((drawingWritingPos_writes h₃).trans (ih b₃ h)))

/-! ## The sender -/

/-- The length that `appendStrValue` sees, and the bytes that it writes while they fit. -/
def strLen (s : Bytes) : Nat := (toInt s.length).toNat
def strBytes (s : Bytes) : Bytes := leBytes 4 s.length ++ s.take (strLen s)

theorem length_strBytes (s : Bytes) : (strBytes s).length = 4 + strLen s := by
  rw [strBytes, List.length_append, length_leBytes, List.length_take,
    Nat.min_eq_left (show strLen s ≤ s.length from toNat_toInt_le _)]

theorem word_eq (n : Nat) : leBytes 4 (toInt n % 2 ^ 32).toNat = leBytes 4 n := by
  have hmod : (toInt n % 2 ^ 32).toNat = n % 2 ^ 32 := by
    rw [toInt_eq]
    split <;> omega
  rw [hmod]
  exact leBytes_mod 4 n

/-- An elastic buffer that was given one buffer. -/
def solo (u : Buffer B) (readLen : Fin B.1) : ElasticBuffer B := ⟨[u], 0, 0, readLen, 1⟩

theorem getElem?_solo (u : Buffer B) (readLen : Fin B.1) :
    (solo u readLen).buffers[(solo u readLen).writing]? = some u := rfl

theorem inv_solo (u : Buffer B) (readLen : Fin B.1) : (solo u readLen).Inv where
  length_le := Nat.le_refl _
  fresh h := by cases h
  behind {i v} hi hv := by
    obtain ⟨i, rfl⟩ : ∃ k, i = k + 1 := ⟨i - 1, by simp [solo] at hi; omega⟩
    simp [solo] at hv

theorem copyTo_solo (u : Buffer B) (readLen : Fin B.1) {pos : Nat} {bs : Bytes}
    (h : pos + bs.length ≤ B.1) :
    (solo u readLen).copyTo 0 pos bs = some (solo ⟨write u.data pos bs, u.dataLen⟩ readLen) := by
  rw [copyTo, if_pos ⟨Nat.zero_lt_one, h⟩]
  rfl

theorem drawingWritingPos_solo (u : Buffer B) (readLen : Fin B.1) {n : Nat}
    (h : u.dataLen.1 + n < B.1) :
    (solo u readLen).drawingWritingPos n = some (solo ⟨u.data, ⟨_, h⟩⟩ readLen) := by
  simp [drawingWritingPos, solo, skipBuffers_of_lt h]

theorem drawingWritingPos_solo_full {u : Buffer B} {readLen : Fin B.1} {n : Nat}
    {b : ElasticBuffer B} (h : u.dataLen.1 + n = B.1)
    (hb : (solo u readLen).drawingWritingPos n = some b) : b.writing = 1 := by
  simp only [drawingWritingPos, solo, List.getElem?_cons_zero, bind_eq_bind,
    bind_some, bind_eq_some_iff, h] at hb
  obtain ⟨⟨i, r⟩, hi, hb⟩ := hb
  cases hb
  rw [skipBuffers, dif_neg (Nat.lt_irrefl _), if_pos (by simp), Nat.sub_self,
    skipBuffers_of_lt B.pos] at hi
  cases hi
  rfl

theorem getWritingPos_solo (heap : Nat → Nat → UInt8) (u : Buffer B) (readLen : Fin B.1) {n : Int}
    (atomicLen : Bool) (hlo : -2 ^ 31 ≤ n) (h : u.dataLen.1 + n ≤ B.1) :
    (solo u readLen).getWritingPos heap n atomicLen = some (solo u readLen) := by
  have hexp : (solo u readLen).expandElasticBuffer heap n = some (solo u readLen) := by
    simp only [expandElasticBuffer, solo, List.getElem?_cons_zero]
    split
    · rfl
    · -- a negative length is a large unsigned one, but asks for no buffer
      have hB := B.2.2
      have hlt := u.dataLen.2
      have hneg : n < 0 := by omega
      have htot : toInt (u.dataLen.1 + n) = u.dataLen.1 + n := by
        rw [toInt, Int.bmod_def]
        split <;> omega
      rw [expandLoop, dif_neg (by rw [htot]; simp; omega)]
  have hlt : ¬ (B.1 : Int) < u.dataLen.1 + n := by omega
  simp only [getWritingPos, hexp, getElem?_solo, bind_eq_bind, bind_some, hlt,
    and_false, if_false]
  rfl

theorem getWritingPos_solo_grows {heap : Nat → Nat → UInt8} {u : Buffer B} {readLen : Fin B.1}
    {n : Int} {atomicLen : Bool} {b : ElasticBuffer B} (h0 : 0 ≤ n) (hhi : n < 2 ^ 31)
    (h : B.1 < u.dataLen.1 + n) (htot : toInt (u.dataLen.1 + n) > B.1)
    (hb : (solo u readLen).getWritingPos heap n atomicLen = some b) : 2 ≤ b.cacheBufferNum := by
  simp only [getWritingPos, bind_eq_bind, bind_eq_some_iff] at hb
  obtain ⟨b₁, h₁, v, -, w, -, hb⟩ := hb
  have hnum : 2 ≤ b₁.cacheBufferNum := by
    simp only [expandElasticBuffer, solo, List.getElem?_cons_zero] at h₁
    rw [if_neg (by omega), expandLoop, dif_pos (.inl htot), dif_neg (by simp),
      dif_pos (by simp)] at h₁
    have hlink := (link_writes heap (solo u readLen) (Nat.le_refl 0) (inv_solo u readLen)).1
    exact ((expandLoop_writes (fun _ => Nat.zero_le _) h₁) hlink).2.1
  cases hb
  split <;> exact hnum

theorem appendLoop_solo (value : Bytes) (u : Buffer B) (readLen : Fin B.1) {n : Nat}
    (hn : n ≤ value.length) (h : u.dataLen.1 + n < B.1) :
    appendLoop value 0 u.dataLen.1 (solo u readLen) n =
      some (solo ⟨write u.data u.dataLen.1 (value.take n), ⟨_, h⟩⟩ readLen) := by
  rw [appendLoop]
  split
  · rename_i h0
    subst h0
    simp
  · have hmin : min n (B.1 - u.dataLen.1) = n := Nat.min_eq_left (by omega)
    have hle : u.dataLen.1 + (value.take n).length ≤ B.1 := by
      rw [List.length_take, Nat.min_eq_left hn]
      exact h.le
    simp only [getElem?_solo, hmin, copyTo_solo u readLen hle, bind_eq_bind,
      bind_some]
    rw [drawingWritingPos_solo ⟨write u.data u.dataLen.1 (value.take n), u.dataLen⟩ readLen h,
      bind_some, Nat.sub_self, appendLoop, dif_pos rfl]

theorem appendLoop_solo_full {value : Bytes} {u : Buffer B} {readLen : Fin B.1} {n : Nat}
    {b : ElasticBuffer B} (hn : n ≤ value.length) (h : B.1 ≤ u.dataLen.1 + n)
    (hb : appendLoop value 0 u.dataLen.1 (solo u readLen) n = some b) : 1 ≤ b.writing := by
  have hlt := u.dataLen.2
  have hmin : min n (B.1 - u.dataLen.1) = B.1 - u.dataLen.1 := Nat.min_eq_right (by omega)
  have hle : u.dataLen.1 + (value.take (B.1 - u.dataLen.1)).length ≤ B.1 := by
    rw [List.length_take]
    omega
  rw [appendLoop, dif_neg (by omega)] at hb
  simp only [getElem?_solo, hmin, copyTo_solo u readLen hle, bind_eq_bind,
    bind_some, bind_eq_some_iff] at hb
  obtain ⟨b₁, h₁, hb⟩ := hb
  have hw := drawingWritingPos_solo_full (by exact Nat.add_sub_cancel' hlt.le) h₁
  have hinv := (drawingWritingPos_writes h₁ (inv_solo _ _)).1
  exact hw ▸ (appendLoop_writes hb hinv).2.2.1

/-- `appendStrValue` when the length word fits. -/
theorem appendStrValue_word (heap : Nat → Nat → UInt8) (u : Buffer B) (readLen : Fin B.1)
    (s : Bytes) (h : u.dataLen.1 + 4 < B.1) :
    (solo u readLen).appendStrValue heap s =
      ((solo ⟨write u.data u.dataLen.1 (leBytes 4 s.length), ⟨_, h⟩⟩ readLen).getWritingPos heap
        (toInt s.length) false).bind fun b =>
          b.buffers[b.writing]?.bind fun v => appendLoop s b.writing v.dataLen.1 b (strLen s) := by
  have hle : u.dataLen.1 + (leBytes 4 s.length).length ≤ B.1 := by
    rw [length_leBytes]
    exact h.le
  rw [appendStrValue]
  simp only [getWritingPos_solo heap u readLen true (n := 4) (by omega) (by omega), getElem?_solo,
    bind_eq_bind, bind_some, word_eq]
  rw [show (solo u readLen).writing = 0 from rfl, copyTo_solo u readLen hle, bind_some,
    drawingWritingPos_solo ⟨write u.data u.dataLen.1 (leBytes 4 s.length), u.dataLen⟩ readLen h,
    bind_some]
  dsimp only [strLen]

theorem appendStrValue_solo (heap : Nat → Nat → UInt8) (u : Buffer B) (readLen : Fin B.1)
    {s : Bytes} (h : u.dataLen.1 + (4 + strLen s) < B.1) :
    (solo u readLen).appendStrValue heap s =
      some (solo ⟨write u.data u.dataLen.1 (strBytes s), ⟨_, h⟩⟩ readLen) := by
  have hpos : u.dataLen.1 + 4 < B.1 := by omega
  have hlo : -2 ^ 31 ≤ toInt s.length := by
    rw [toInt_eq]
    split <;> omega
  have hhi : (u.dataLen.1 + 4 : Nat) + toInt s.length ≤ B.1 := by
    have : toInt s.length ≤ strLen s := Int.self_le_toNat _
    omega
  rw [appendStrValue_word heap u readLen s hpos,
    getWritingPos_solo heap _ _ false hlo (by exact hhi)]
  rw [bind_some, getElem?_solo, bind_some]
  have hfit : u.dataLen.1 + 4 + strLen s < B.1 := by omega
  have hloop := appendLoop_solo s ⟨write u.data u.dataLen.1 (leBytes 4 s.length), ⟨_, hpos⟩⟩ readLen
    (n := strLen s) (toNat_toInt_le _) hfit
  refine hloop.trans ?_
  have hw := write_write_append u.data u.dataLen.1 (leBytes 4 s.length) (s.take (strLen s))
  rw [length_leBytes] at hw
  simp only [strBytes, hw, Nat.add_assoc]

/-- Where `expandElasticBuffer` finds the length word or the string too long for the buffer but the
sum wraps around, it leaves the chain as it is. -/
theorem getWritingPos_solo_cases {heap : Nat → Nat → UInt8} {u : Buffer B} {readLen : Fin B.1}
    {n : Int} {atomicLen : Bool} {b : ElasticBuffer B} (h0 : 0 ≤ n) (hhi : n < 2 ^ 31)
    (h : B.1 < u.dataLen.1 + n)
    (hb : (solo u readLen).getWritingPos heap n atomicLen = some b) :
    2 ≤ b.cacheBufferNum ∨ (atomicLen = false ∧ b = solo u readLen) := by
  by_cases htot : toInt (u.dataLen.1 + n) > B.1
  · exact .inl (getWritingPos_solo_grows h0 hhi h htot hb)
  · refine .inr ?_
    have hexp : (solo u readLen).expandElasticBuffer heap n = some (solo u readLen) := by
      simp only [expandElasticBuffer, getElem?_solo]
      rw [if_neg (by omega), expandLoop, dif_neg (by simpa [solo] using htot)]
    rw [getWritingPos, hexp] at hb
    simp only [bind_eq_bind, bind_some, getElem?_solo, h, and_true,
      bind_eq_some_iff] at hb
    obtain ⟨v, hv, hb⟩ := hb
    cases atomicLen with
    | false =>
      cases hb
      exact ⟨rfl, rfl⟩
    | true => simp [solo] at hv

/-- A string that does not fit into the buffer leaves it, or needs another one. -/
theorem appendStrValue_solo_full {heap : Nat → Nat → UInt8} {u : Buffer B} {readLen : Fin B.1}
    {s : Bytes} {b : ElasticBuffer B} (h : B.1 ≤ u.dataLen.1 + (4 + strLen s))
    (hb : (solo u readLen).appendStrValue heap s = some b) :
    2 ≤ b.cacheBufferNum ∨ 1 ≤ b.writing := by
  have hlt := u.dataLen.2
  have hB := B.2.2
  rcases Nat.lt_trichotomy (u.dataLen.1 + 4) B.1 with hpos | hpos | hpos
  · have hn : 0 ≤ toInt s.length ∧ toInt s.length < 2 ^ 31 ∧ toInt s.length = strLen s := by
      simp only [strLen] at h ⊢
      rw [toInt_eq] at h ⊢
      split at h <;> omega
    rw [appendStrValue_word heap u readLen s hpos] at hb
    generalize hw :
      (⟨write u.data u.dataLen.1 (leBytes 4 s.length), ⟨_, hpos⟩⟩ : Buffer B) = w at hb
    have hwl : w.dataLen.1 = u.dataLen.1 + 4 := by rw [← hw]
    obtain ⟨b₁, h₁, hb⟩ := bind_eq_some_iff.mp hb
    obtain ⟨v, hv, hb⟩ := bind_eq_some_iff.mp hb
    have hinv := getWritingPos_writes h₁ (inv_solo _ _)
    have hcases : 2 ≤ b₁.cacheBufferNum ∨ b₁ = solo w readLen := by
      rcases Nat.eq_or_lt_of_le h with heq | hgt
      · rw [getWritingPos_solo heap w readLen false (by omega) (by omega)] at h₁
        exact .inr (Option.some.inj h₁).symm
      · exact (getWritingPos_solo_cases hn.1 hn.2.1 (by omega) h₁).imp_right And.right
    rcases hcases with hnum | rfl
    · exact .inl (hnum.trans (appendLoop_writes hb hinv.1).2.1)
    · obtain rfl : w = v := Option.some.inj hv
      exact .inr (appendLoop_solo_full (toNat_toInt_le _) (by omega) hb)
  · -- the length word fills the buffer
    rw [appendStrValue, getWritingPos_solo heap u readLen true (n := 4) (by omega) (by omega)] at hb
    simp only [getElem?_solo, bind_eq_bind, bind_some, bind_eq_some_iff] at hb
    obtain ⟨b₁, h₁, b₂, h₂, b₃, h₃, v, -, h₄⟩ := hb
    rw [show (solo u readLen).writing = 0 from rfl, copyTo_solo u readLen (by simp; omega)] at h₁
    obtain rfl := Option.some.inj h₁
    have hw := drawingWritingPos_solo_full (by exact hpos) h₂
    have hinv := (drawingWritingPos_writes h₂ (inv_solo _ _)).1
    have hwr := ((getWritingPos_writes h₃).trans (appendLoop_writes h₄)) hinv
    exact .inr (hw ▸ hwr.2.2.1)
  · -- the length word needs another buffer
    rw [appendStrValue] at hb
    simp only [bind_eq_bind, bind_eq_some_iff] at hb
    obtain ⟨b₁, h₁, v, -, b₂, h₂, b₃, h₃, b₄, h₄, w, -, h₅⟩ := hb
    have hnum : 2 ≤ b₁.cacheBufferNum :=
      (getWritingPos_solo_cases (by omega) (by omega) (by omega) h₁).resolve_right (by simp)
    have hinv := (getWritingPos_writes h₁ (inv_solo u readLen)).1
    have hw := ((copyTo_writes h₂).trans ((drawingWritingPos_writes h₃).trans
      ((getWritingPos_writes h₄).trans (appendLoop_writes h₅)))) hinv
    exact .inl (hnum.trans hw.2.1)

/-- The bytes of a packet as `appendStrValue` writes them into one buffer. -/
def sentLen (ss : List Bytes) : Nat := (ss.map fun s => 4 + strLen s).sum
def sentBytes (ss : List Bytes) : Bytes := ss.flatMap strBytes

theorem appendStrs_solo (heap : Nat → Nat → UInt8) (u : Buffer B) (readLen : Fin B.1)
    {ss : List Bytes} (h : u.dataLen.1 + sentLen ss < B.1) :
    (solo u readLen).appendStrs heap ss =
      some (solo ⟨write u.data u.dataLen.1 (sentBytes ss), ⟨_, h⟩⟩ readLen) := by
  induction ss generalizing u with
  | nil => simp [appendStrs, sentBytes, sentLen]
  | cons s ss ih =>
    have hsum : sentLen (s :: ss) = 4 + strLen s + sentLen ss := by simp [sentLen]
    have hlt : u.dataLen.1 + (4 + strLen s) < B.1 := by omega
    have hw := write_write_append u.data u.dataLen.1 (strBytes s) (sentBytes ss)
    rw [length_strBytes] at hw
    rw [appendStrs, appendStrValue_solo heap u readLen hlt, bind_eq_bind, bind_some,
      ih ⟨_, ⟨_, hlt⟩⟩ (by dsimp only; omega)]
    simp only [hw, show sentBytes (s :: ss) = strBytes s ++ sentBytes ss from rfl, hsum,
      Nat.add_assoc]

theorem appendStrs_solo_full {heap : Nat → Nat → UInt8} {u : Buffer B} {readLen : Fin B.1}
    {ss : List Bytes} {b : ElasticBuffer B} (h : B.1 ≤ u.dataLen.1 + sentLen ss)
    (hb : (solo u readLen).appendStrs heap ss = some b) :
    2 ≤ b.cacheBufferNum ∨ 1 ≤ b.writing := by
  induction ss generalizing u with
  | nil =>
    have := u.dataLen.2
    simp [sentLen] at h
    omega
  | cons s ss ih =>
    have hsum : sentLen (s :: ss) = 4 + strLen s + sentLen ss := by simp [sentLen]
    rw [appendStrs, bind_eq_bind] at hb
    obtain ⟨b₁, h₁, hb⟩ := bind_eq_some_iff.mp hb
    by_cases hlt : u.dataLen.1 + (4 + strLen s) < B.1
    · rw [appendStrValue_solo heap u readLen hlt] at h₁
      obtain rfl := Option.some.inj h₁
      exact ih (by dsimp only; omega) hb
    · have hinv := (appendStrValue_writes h₁ (inv_solo u readLen)).1
      have hw := appendStrs_writes hb hinv
      exact (appendStrValue_solo_full (Nat.not_lt.mp hlt) h₁).imp (·.trans hw.2.1)
        (·.trans hw.2.2.1)

/-- An elastic buffer that was given no buffer yet. -/
def fresh (readLen : Fin B.1) : ElasticBuffer B := ⟨[], 0, 0, readLen, 0⟩

theorem getWritingPos_fresh (heap : Nat → Nat → UInt8) (readLen : Fin B.1) {n : Nat}
    (atomicLen : Bool) (hn : n ≤ B.1) :
    (fresh readLen).getWritingPos heap n atomicLen = some (solo (.new (heap 0)) readLen) := by
  have hB := B.2.2
  have hpos := B.pos
  have hexp : (fresh readLen).expandElasticBuffer heap n = some (solo (.new (heap 0)) readLen) := by
    rw [expandElasticBuffer, fresh]
    simp only [List.getElem?_nil]
    rw [expandLoop, dif_pos (.inr rfl), dif_pos rfl, expandLoop, dif_neg]
    · rfl
    · rw [toInt_of_lt (by omega)]
      simp
      omega
  have hlt : ¬ (B.1 : Int) < (Buffer.new (heap 0) : Buffer B).dataLen.1 + n := by
    simp [Buffer.new]
    omega
  rw [getWritingPos, hexp]
  simp only [getElem?_solo, bind_eq_bind, bind_some, hlt, and_false, if_false]
  rfl

theorem appendStrs_fresh (heap : Nat → Nat → UInt8) (readLen : Fin B.1) {ss : List Bytes}
    (hss : ss ≠ []) :
    (fresh readLen).appendStrs heap ss = (solo (.new (heap 0)) readLen).appendStrs heap ss := by
  obtain ⟨s, ss, rfl⟩ := List.exists_cons_of_ne_nil hss
  have hfit : ((Buffer.new (heap 0) : Buffer B).dataLen.1 : Int) + 4 ≤ B.1 := by
    have := B.2.1
    simp [Buffer.new]
    omega
  have hpos : (fresh readLen).getWritingPos heap 4 true = some (solo (.new (heap 0)) readLen) :=
    getWritingPos_fresh heap readLen true B.2.1
  have h : (fresh readLen).appendStrValue heap s =
      (solo (.new (heap 0)) readLen).appendStrValue heap s := by
    rw [appendStrValue, appendStrValue, getWritingPos_solo heap _ readLen true (by omega) hfit,
      hpos]
  rw [appendStrs, appendStrs, h]

theorem resetElasticBuffer_cases {b : ElasticBuffer B} (hb : b.Inv) (hnum : b.cacheBufferNum ≤ 1) :
    b.resetElasticBuffer = fresh b.readLen ∨
      ∃ data, b.resetElasticBuffer = solo (.new data) b.readLen := by
  obtain ⟨buffers, writing, reading, readLen, num⟩ := b
  have hlen := hb.length_le
  match buffers, hlen with
  | [], _ =>
    obtain ⟨rfl, -⟩ := hb.fresh rfl
    exact .inl rfl
  | [u], hlen =>
    obtain rfl : num = 1 := Nat.le_antisymm hnum hlen
    exact .inr ⟨u.data, rfl⟩
  | _ :: _ :: _, hlen =>
    simp only [List.length_cons] at hlen hnum
    omega

/-- What was sent is short by the rest of every buffer before the writing one. -/
theorem sum_dataLen_le {l : List (Buffer B)} {i : Nat} {u : Buffer B} (hu : l[i]? = some u)
    (hbehind : ∀ {j v}, i < j → l[j]? = some v → v.dataLen.1 = 0) :
    u.dataLen.1 ≤ (l.map fun v => v.dataLen.1).sum ∧
      (l.map fun v => v.dataLen.1).sum ≤ i * (B.1 - 1) + u.dataLen.1 := by
  induction l generalizing i with
  | nil => simp at hu
  | cons a l ih =>
    cases i with
    | zero =>
      obtain rfl : a = u := by simpa using hu
      have hzero : (l.map fun v => v.dataLen.1).sum = 0 := by
        rw [List.sum_eq_zero_iff_forall_eq_nat]
        intro n hn
        obtain ⟨v, hv, rfl⟩ := List.mem_map.mp hn
        obtain ⟨j, hj⟩ := List.mem_iff_getElem?.mp hv
        exact hbehind (Nat.succ_pos j) (by simpa using hj)
      simp [hzero]
    | succ i =>
      have ih' := ih (i := i) (by simpa using hu)
        (fun hj hv => hbehind (Nat.succ_lt_succ hj) (by simpa using hv))
      have ha := a.dataLen.2
      rw [List.map_cons, List.sum_cons, Nat.add_one_mul]
      omega

theorem length_sent (b : ElasticBuffer B) :
    b.sent.length = (b.buffers.map fun u => u.dataLen.1).sum := by
  simp [sent, List.length_flatMap]

/-- The announced length is that of what was sent only if there is no other buffer. -/
theorem balanced {b : ElasticBuffer B} {n : Int} (hb : b.Inv) (hn : b.getBufferSize = some n)
    (hlen : b.sent.length = n.toNat) : b.cacheBufferNum ≤ 1 ∧ b.writing = 0 := by
  rw [getBufferSize] at hn
  split at hn
  · split at hn
    · cases hn
    · rename_i hpos u hu
      split at hn
      · rename_i hover
        obtain rfl := Option.some.inj hn
        obtain ⟨hge, hle⟩ := sum_dataLen_le hu hb.behind
        rw [← length_sent, hlen] at hge hle
        obtain ⟨m, hm⟩ : ∃ m, b.cacheBufferNum = m + 1 := ⟨b.cacheBufferNum - 1, by omega⟩
        have hw : b.writing ≤ m := by
          have := (List.getElem?_eq_some_iff.mp hu).1
          have := hb.length_le
          omega
        have hsum : (B.1 * ((b.cacheBufferNum : Int) - 1) + u.dataLen.1 : Int) =
            ((B.1 * m + u.dataLen.1 : Nat) : Int) := by
          rw [hm]
          push_cast
          ring
        have hlt := u.dataLen.2
        have hB := B.2
        rw [hm, Nat.add_sub_cancel] at hover
        rw [hsum, toInt_eq, Nat.mod_eq_of_lt (by omega)] at hge hle
        have hmul : b.writing * (B.1 - 1) + m ≤ B.1 * m := by
          calc b.writing * (B.1 - 1) + m ≤ m * (B.1 - 1) + m :=
                Nat.add_le_add_right (Nat.mul_le_mul_right _ hw) _
            _ = B.1 * m := by rw [← Nat.mul_add_one, Nat.sub_add_cancel B.pos, Nat.mul_comm]
        split at hge <;> omega
      · cases hn
  · rename_i hpos
    have hnil : b.buffers = [] := by
      have := hb.length_le
      exact List.eq_nil_of_length_eq_zero (by omega)
    exact ⟨by omega, (hb.fresh hnil).2⟩

theorem recieveLoop_rest {heap : Nat → Nat → UInt8} {b b' : ElasticBuffer B} {stream rest : Bytes}
    {dataLen : Nat} (h : b.recieveLoop heap stream dataLen = some (b', rest)) :
    dataLen ≤ stream.length ∧ rest = stream.drop dataLen := by
  fun_induction recieveLoop heap b stream dataLen with
  | case1 =>
    cases h
    simp
  | case2 b stream dataLen hne singleReadLen ih =>
    simp only [bind_eq_bind, bind_eq_some_iff] at h
    obtain ⟨b₁, h₁, u, -, h⟩ := h
    split at h
    · cases h
    · rename_i hlt
      simp only [bind_eq_some_iff] at h
      obtain ⟨b₂, h₂, b₃, h₃, h⟩ := h
      obtain ⟨hle, rfl⟩ := ih b₃ h
      rw [List.length_drop] at hle
      rw [List.drop_drop]
      have : singleReadLen ≤ dataLen := Nat.min_le_left _ _
      exact ⟨by omega, by congr 1; omega⟩

theorem length_sentBytes (ss : List Bytes) : (sentBytes ss).length = sentLen ss := by
  simp [sentBytes, sentLen, List.length_flatMap, length_strBytes]

theorem sent_solo (u : Buffer B) (readLen : Fin B.1) :
    (solo u readLen).sent = slice u.data 0 u.dataLen.1 := by
  simp [sent, solo]

theorem getBufferSize_solo (u : Buffer B) (readLen : Fin B.1) :
    (solo u readLen).getBufferSize = some (u.dataLen.1 : Int) := by
  have h := u.dataLen.2
  have hB := B.2.2
  have hlen : toInt (u.dataLen.1 : Int) = u.dataLen.1 := toInt_of_lt (by omega)
  simp [getBufferSize, solo, hlen]

/-- A packet that fits into one buffer is sent as announced. -/
theorem sender_spec (heap : Nat → Nat → UInt8) {b : ElasticBuffer B} {ss : List Bytes} (hb : b.Inv)
    (hnum : b.cacheBufferNum ≤ 1) (h : sentLen ss < B.1) :
    ∃ b', b.resetElasticBuffer.appendStrs heap ss = some b' ∧
      b'.getBufferSize = some (sentLen ss : Int) ∧ b'.sent = sentBytes ss := by
  have hsolo : ∀ data, ∃ b', (solo (.new data) b.readLen).appendStrs heap ss = some b' ∧
      b'.getBufferSize = some (sentLen ss : Int) ∧ b'.sent = sentBytes ss := by
    intro data
    have hlt : (Buffer.new data : Buffer B).dataLen.1 + sentLen ss < B.1 := by
      simpa [Buffer.new] using h
    refine ⟨_, appendStrs_solo heap _ _ hlt, ?_, ?_⟩
    · rw [getBufferSize_solo]
      simp [Buffer.new]
    · rw [sent_solo]
      simp only [Buffer.new, Nat.zero_add]
      rw [← length_sentBytes, slice_write_self]
  rcases resetElasticBuffer_cases hb hnum with hreset | ⟨data, hreset⟩
  · rw [hreset]
    by_cases hss : ss = []
    · subst hss
      exact ⟨_, rfl, rfl, rfl⟩
    · rw [appendStrs_fresh heap _ hss]
      exact hsolo _
  · rw [hreset]
    exact hsolo _

theorem sender_inv {heap : Nat → Nat → UInt8} {b b' : ElasticBuffer B} {ss : List Bytes}
    (hb : b.Inv) (h : b.resetElasticBuffer.appendStrs heap ss = some b')
    (hnum : b'.cacheBufferNum ≤ 1) (hw : b'.writing = 0) :
    b.cacheBufferNum ≤ 1 ∧ sentLen ss < B.1 := by
  have hle : b.cacheBufferNum ≤ b'.cacheBufferNum :=
    (appendStrs_writes h (inv_resetElasticBuffer hb)).2.1
  refine ⟨hle.trans hnum, ?_⟩
  have hsolo : ∀ data, (solo (.new data) b.readLen).appendStrs heap ss = some b' →
      sentLen ss < B.1 := by
    intro data hdata
    by_contra hge
    have := appendStrs_solo_full (u := .new data) (by simp [Buffer.new]; omega) hdata
    omega
  rcases resetElasticBuffer_cases hb (hle.trans hnum) with hreset | ⟨data, hreset⟩
  · rw [hreset] at h
    by_cases hss : ss = []
    · subst hss
      exact B.pos
    · rw [appendStrs_fresh heap _ hss] at h
      exact hsolo _ h
  · rw [hreset] at h
    exact hsolo _ h

end ElasticBuffer

end ISearch.Replication
