import ISearch.Replication.BufferWriting

/-!
# Reading from the elastic buffer

`getStrValue` moves the place to read forward by the length word and the string, and by what is left
of the buffer where the word does not fit. So the strings that are read before the end of the first
buffer are those whose bytes stand there.
-/

namespace ISearch.Replication

open Option

variable {B : BufferSize}

namespace ElasticBuffer

/-! ## What the reading operations keep -/

/-- `b'` differs from `b` in the place to read only. -/
def Reads (b b' : ElasticBuffer B) : Prop :=
  b'.buffers = b.buffers ∧ b'.writing = b.writing ∧ b'.cacheBufferNum = b.cacheBufferNum

theorem Reads.trans {a b c : ElasticBuffer B} (hab : Reads a b) (hbc : Reads b c) : Reads a c :=
  ⟨hbc.1.trans hab.1, hbc.2.1.trans hab.2.1, hbc.2.2.trans hab.2.2⟩

theorem Reads.inv {b b' : ElasticBuffer B} (h : Reads b b') (hb : b.Inv) : b'.Inv := by
  obtain ⟨h₁, h₂, h₃⟩ := h
  refine ⟨?_, ?_, ?_⟩
  · rw [h₁, h₃]
    exact hb.length_le
  · rw [h₁, h₂, h₃]
    exact hb.fresh
  · rw [h₁, h₂]
    exact hb.behind

/-- The place to read, in bytes from the head on. -/
def readingPos (b : ElasticBuffer B) : Nat := b.reading * B.1 + b.readLen.1

theorem drawingReadingPos_eq {b b' : ElasticBuffer B} {dataLen : Nat}
    (h : b.drawingReadingPos dataLen = some b') :
    Reads b b' ∧ b'.readingPos = b.readingPos + dataLen := by
  rw [drawingReadingPos] at h
  split at h
  · cases h
  · split at h
    · split at h
      · cases h
        exact ⟨⟨rfl, rfl, rfl⟩, (Nat.add_assoc _ _ _).symm⟩
      · cases h
    · simp only [bind_eq_bind, bind_eq_some_iff] at h
      obtain ⟨⟨i, r⟩, hi, h⟩ := h
      cases h
      obtain ⟨-, hpos⟩ := skipBuffers_eq hi
      exact ⟨⟨rfl, rfl, rfl⟩, hpos.trans (Nat.add_assoc _ _ _).symm⟩

theorem length_assignLoop {b : ElasticBuffer B} {i readLen skipLen : Nat} {value : Bytes}
    (hr : readLen ≤ B.1) (hs : B.1 < skipLen ∨ readLen = 0)
    (h : b.assignLoop i readLen skipLen = some value) : value.length = skipLen - readLen := by
  fun_induction assignLoop b i readLen skipLen generalizing value with
  | case1 => cases h
  | case2 i readLen skipLen u hu hlt ih =>
    simp only [bind_eq_bind, bind_eq_some_iff] at h
    obtain ⟨rest, hrest, h⟩ := h
    cases h
    have := ih (Nat.zero_le _) (.inr rfl) hrest
    rw [List.length_append, length_slice, this]
    omega
  | case3 i readLen skipLen u hu hlt =>
    cases h
    rw [length_slice, hs.resolve_left hlt, Nat.sub_zero]

theorem length_assignStrValue {b : ElasticBuffer B} {dataLen : Nat} {value : Bytes}
    (h : b.assignStrValue dataLen = some value) : value.length = dataLen := by
  simp only [assignStrValue] at h
  split at h
  · cases h
  · split at h
    · cases h
    · split at h
      · cases h
        exact length_slice ..
      · rename_i hlt
        rw [length_assignLoop b.readLen.2.le (.inl (Nat.not_le.mp hlt)) h, Nat.add_sub_cancel_left]

theorem readStrValue_eq {b b' : ElasticBuffer B} {value : Bytes}
    (h : b.readStrValue = some (value, b')) :
    Reads b b' ∧ value.length < 2 ^ 31 ∧ b'.readingPos = b.readingPos + (4 + value.length) ∧
      ∃ u, b.buffers[b.reading]? = some u ∧ slice u.data b.readLen.1 4 = leBytes 4 value.length ∧
        (b.readLen.1 + 4 + value.length ≤ B.1 →
          slice u.data (b.readLen.1 + 4) value.length = value) := by
  rw [readStrValue] at h
  split at h
  · cases h
  rename_i u hu
  have hword : leBytes 4 (ofLeBytes (slice u.data b.readLen.1 4)) = slice u.data b.readLen.1 4 := by
    simpa using leBytes_ofLeBytes (slice u.data b.readLen.1 4)
  have hlt : ofLeBytes (slice u.data b.readLen.1 4) < 2 ^ 32 := by
    simpa using ofLeBytes_lt (slice u.data b.readLen.1 4)
  generalize ofLeBytes (slice u.data b.readLen.1 4) = n at h hword hlt
  dsimp only at h
  split at h
  · cases h
  rename_i hn
  simp only [bind_eq_bind, bind_eq_some_iff, Bool.cond_decide] at h
  obtain ⟨b₁, h₁, value', hv, b₂, h₂, h⟩ := h
  cases h
  have hnat : toInt n = n ∧ n < 2 ^ 31 := by
    rw [toInt_eq] at hn ⊢
    split at hn
    · rw [if_pos (by assumption)]
      omega
    · omega
  rw [hnat.1, Int.toNat_natCast] at hv h₂
  obtain ⟨hr₁, hp₁⟩ := drawingReadingPos_eq h₁
  obtain ⟨hr₂, hp₂⟩ := drawingReadingPos_eq h₂
  obtain rfl : value.length = n := by
    split at hv
    · rename_i h0
      cases hv
      exact (Int.natCast_eq_zero.mp h0).symm
    · exact length_assignStrValue hv
  refine ⟨hr₁.trans hr₂, hnat.2, by rw [hp₂, hp₁, Nat.add_assoc], u, hu, hword.symm, fun hle => ?_⟩
  split at hv
  · rename_i h0
    cases hv
    rfl
  · rename_i h0
    -- the value lies in the buffer of the length word
    have hpos : 0 < value.length := by omega
    have hB := B.2.2
    have hlt₄ : b.readLen.1 + 4 < B.1 := by omega
    rw [drawingReadingPos, if_neg (by omega), dif_pos hlt₄,
      if_pos (List.getElem?_eq_some_iff.mp hu).1] at h₁
    obtain rfl := Option.some.inj h₁
    simp only [assignStrValue, hu] at hv
    rw [if_neg (by omega), if_pos (by omega)] at hv
    exact Option.some.inj hv

/-- What a `getStrValue` that returns a string has read. Where the length word does not fit into the
buffer any more it is read from the next one. -/
theorem getStrValue_some {b b' : ElasticBuffer B} {value : Bytes}
    (h : b.getStrValue = some (some value, b')) :
    Reads b b' ∧ value.length < 2 ^ 31 ∧
      ((∃ u, b.buffers[b.reading]? = some u ∧ b.readLen.1 + 4 ≤ B.1 ∧
          b'.readingPos = b.readingPos + (4 + value.length) ∧
          slice u.data b.readLen.1 4 = leBytes 4 value.length ∧
          (b.readLen.1 + 4 + value.length ≤ B.1 →
            slice u.data (b.readLen.1 + 4) value.length = value)) ∨
        (B.1 < b.readLen.1 + 4 ∧
          b'.readingPos = (b.reading + 1) * B.1 + (4 + value.length))) := by
  rw [getStrValue] at h
  split at h
  · cases h
  split at h
  · cases h
  simp only [bind_eq_bind, bind_eq_some_iff, Bool.cond_decide] at h
  obtain ⟨b₁, h₁, ⟨value', b₂⟩, h₂, h⟩ := h
  cases h
  obtain ⟨hr, hlen, hpos, u₁, hu₁, hword, hval⟩ := readStrValue_eq h₂
  split at h₁
  · rename_i hlt
    obtain ⟨hr₁, hp₁⟩ := drawingReadingPos_eq h₁
    refine ⟨hr₁.trans hr, hlen, .inr ⟨hlt, ?_⟩⟩
    rw [hpos, hp₁, readingPos, Nat.add_one_mul, Nat.add_assoc (b.reading * B.1),
      Nat.add_sub_cancel' b.readLen.2.le]
  · rename_i hlt
    cases h₁
    exact ⟨hr, hlen, .inl ⟨u₁, hu₁, Nat.not_lt.mp hlt, hpos, hword, hval⟩⟩

theorem getStrValue_none {b b' : ElasticBuffer B} :
    b.getStrValue = some (none, b') ↔
      b' = b ∧ ∃ u, b.buffers[b.reading]? = some u ∧ b.buffers.length ≤ b.reading + 1 ∧
        b.readLen = u.dataLen := by
  rw [getStrValue]
  split
  · rename_i hu
    simp [hu]
  rename_i u hu
  split
  · rename_i hend
    simp only [hu, Option.some.injEq, Prod.mk.injEq, true_and, exists_eq_left']
    exact ⟨fun h => ⟨h.symm, hend⟩, fun h => h.1.symm⟩
  · rename_i hend
    simp only [bind_eq_bind, bind_eq_some_iff, hu, Option.some.injEq, exists_eq_left',
      hend, and_false, iff_false]
    rintro ⟨b₁, -, ⟨value, b₂⟩, -, h⟩
    cases h

theorem reading_of_readingPos {b : ElasticBuffer B} {i n : Nat} (hn : n < B.1)
    (h : b.readingPos = i * B.1 + n) : b.reading = i ∧ b.readLen.1 = n := by
  have hr : b.reading = b.readingPos / B.1 := by
    rw [readingPos, Nat.mul_comm, Nat.mul_add_div B.pos, Nat.div_eq_of_lt b.readLen.2, Nat.add_zero]
  have hi : b.reading = i := by
    rw [hr, h, Nat.mul_comm, Nat.mul_add_div B.pos, Nat.div_eq_of_lt hn, Nat.add_zero]
  refine ⟨hi, ?_⟩
  rw [readingPos, hi] at h
  exact Nat.add_left_cancel h

/-- Repeated `getStrValue` returns the strings and leaves `b'`. -/
def GetsTo (b : ElasticBuffer B) : List Bytes → ElasticBuffer B → Prop
  | [], b' => b' = b
  | s :: ss, b' => ∃ b₁, b.getStrValue = some (some s, b₁) ∧ GetsTo b₁ ss b'

theorem yields_iff {b : ElasticBuffer B} {ss : List Bytes} :
    b.yields ss ↔ ∃ b', GetsTo b ss b' ∧ b'.getStrValue = some (none, b') := by
  induction ss generalizing b with
  | nil =>
    simp only [yields, GetsTo, exists_eq_left]
    split
    · rename_i b' h
      obtain ⟨rfl, -⟩ := getStrValue_none.mp h
      simp [h]
    · rename_i h
      simpa using h b
  | cons s ss ih =>
    simp only [yields, GetsTo]
    split
    · rename_i value b₁ h
      simp only [Bool.and_eq_true, beq_iff_eq, ih, h, Option.some.injEq, Prod.mk.injEq]
      constructor
      · rintro ⟨rfl, b', hb', hend⟩
        exact ⟨b', ⟨b₁, ⟨rfl, rfl⟩, hb'⟩, hend⟩
      · rintro ⟨b', ⟨b₂, ⟨rfl, rfl⟩, hb'⟩, hend⟩
        exact ⟨rfl, b', hb', hend⟩
    · rename_i h
      simp only [Bool.false_eq_true, false_iff, not_exists, not_and]
      rintro b' ⟨b₁, hb₁, -⟩
      exact absurd hb₁ (h s b₁)

@[simp] theorem packetLen_cons (s : Bytes) (ss : List Bytes) :
    packetLen (s :: ss) = 4 + s.length + packetLen ss := by
  simp [packetLen]

@[simp] theorem packetLen_nil : packetLen [] = 0 := rfl

@[simp] theorem packetBytes_cons (s : Bytes) (ss : List Bytes) :
    packetBytes (s :: ss) = leBytes 4 s.length ++ s ++ packetBytes ss := by
  simp [packetBytes]

@[simp] theorem packetBytes_nil : packetBytes [] = [] := rfl

@[simp] theorem length_packetBytes (ss : List Bytes) : (packetBytes ss).length = packetLen ss := by
  induction ss with
  | nil => rfl
  | cons s ss ih => simp [ih, Nat.add_assoc]

theorem packetBytes_ne_nil {ss : List Bytes} (h : ss ≠ []) : packetBytes ss ≠ [] := by
  obtain ⟨s, ss, rfl⟩ := List.exists_cons_of_ne_nil h
  simp [packetBytes_cons, leBytes]

theorem length_le_packetLen {s : Bytes} {ss : List Bytes} (h : s ∈ ss) :
    s.length ≤ packetLen ss := by
  induction ss with
  | nil => cases h
  | cons s' ss ih =>
    rw [packetLen_cons]
    rcases List.mem_cons.mp h with rfl | h
    · omega
    · have := ih h
      omega

/-- Reading does not go back. -/
theorem GetsTo.pos_le {b b' : ElasticBuffer B} {ss : List Bytes} (h : GetsTo b ss b') :
    Reads b b' ∧ (∀ s ∈ ss, s.length < 2 ^ 31) ∧ b.readingPos + packetLen ss ≤ b'.readingPos := by
  induction ss generalizing b with
  | nil =>
    obtain rfl := h
    exact ⟨⟨rfl, rfl, rfl⟩, by simp, Nat.le_refl _⟩
  | cons s ss ih =>
    obtain ⟨b₁, h₁, h⟩ := h
    obtain ⟨hr₁, hlen, hpos⟩ := getStrValue_some h₁
    obtain ⟨hr, hlens, hle⟩ := ih h
    refine ⟨hr₁.trans hr, List.forall_mem_cons.mpr ⟨hlen, hlens⟩, ?_⟩
    have hp : b.readingPos + (4 + s.length) ≤ b₁.readingPos := by
      rcases hpos with ⟨-, -, -, hp, -⟩ | ⟨-, hp⟩
      · exact hp.ge
      · have := b.readLen.2
        rw [hp, readingPos, Nat.add_one_mul]
        omega
    rw [packetLen_cons]
    omega

/-- A packet that is shorter than a buffer does not lead out of the second buffer. -/
theorem GetsTo.pos_lt {b b' : ElasticBuffer B} {ss : List Bytes} (h : GetsTo b ss b')
    (hpos : b.readingPos + packetLen ss < 2 * B.1) (hlen : packetLen ss < B.1) :
    b'.readingPos < 2 * B.1 := by
  induction ss generalizing b with
  | nil =>
    obtain rfl := h
    exact hpos
  | cons s ss ih =>
    obtain ⟨b₁, h₁, h⟩ := h
    rw [packetLen_cons] at hpos hlen
    refine ih h ?_ (by omega)
    rcases (getStrValue_some h₁).2.2 with ⟨-, -, -, hp, -⟩ | ⟨hlt, hp⟩
    · omega
    · rcases Nat.eq_zero_or_pos b.reading with h0 | h0
      · simp only [h0, Nat.zero_add, Nat.one_mul] at hp
        omega
      · -- a length word that starts in the last bytes of the second buffer
        have : B.1 ≤ b.reading * B.1 := Nat.le_mul_of_pos_left _ h0
        rw [readingPos] at hpos
        omega

/-- What ends in the first buffer, or at its end, was read from it. -/
theorem GetsTo.head {b b' : ElasticBuffer B} {ss : List Bytes} {u : Buffer B}
    (h : GetsTo b ss b') (hu : b.buffers[0]? = some u) (hr : b.reading = 0)
    (hpos : b'.readingPos ≤ B.1) :
    b'.readingPos = b.readLen.1 + packetLen ss ∧
      slice u.data b.readLen.1 (packetLen ss) = packetBytes ss := by
  induction ss generalizing b with
  | nil =>
    obtain rfl := h
    simp [readingPos, hr]
  | cons s ss ih =>
    obtain ⟨b₁, h₁, h⟩ := h
    have hle := h.pos_le.2.2
    have hp₀ : b.readingPos = b.readLen.1 := by simp [readingPos, hr]
    obtain ⟨hreads, -, hcases⟩ := getStrValue_some h₁
    rcases hcases with ⟨v, hv, hword, hp, hw, hs⟩ | ⟨hlt, hp⟩
    · rw [hr, hu] at hv
      cases hv
      have hslice : slice u.data b.readLen.1 (4 + s.length) = leBytes 4 s.length ++ s := by
        rw [slice_add, hw, hs (by omega)]
      rw [packetLen_cons, packetBytes_cons, slice_add, hslice]
      rcases Nat.lt_or_ge b₁.readingPos B.1 with hlt | hge
      · obtain ⟨hr₁, hl₁⟩ := reading_of_readingPos (b := b₁) (i := 0) hlt (by simp)
        obtain ⟨hend, hrest⟩ := ih h (hreads.1 ▸ hu) hr₁
        rw [hl₁, hp, hp₀] at hend hrest
        refine ⟨by rw [hend, Nat.add_assoc], ?_⟩
        rw [← hrest]
      · -- the first string filled the buffer
        cases ss with
        | nil =>
          obtain rfl := h
          exact ⟨by simp; omega, by simp⟩
        | cons s' ss =>
          rw [packetLen_cons] at hle
          omega
    · rw [hr] at hp
      omega

theorem exists_drawingReadingPos {b : ElasticBuffer B} (dataLen : Nat)
    (hr : b.reading < b.buffers.length) (hle : b.readLen.1 + dataLen ≤ B.1) :
    ∃ b', b.drawingReadingPos dataLen = some b' := by
  have hB := B.2.2
  rw [drawingReadingPos, if_neg (by omega)]
  split
  · exact ⟨_, rfl⟩
  · have h0 : b.readLen.1 + dataLen - B.1 = 0 := by omega
    rw [skipBuffers, dif_neg (by assumption), if_pos hr, h0, skipBuffers_of_lt B.pos]
    exact ⟨_, rfl⟩

theorem exists_readStrValue {b : ElasticBuffer B} {s : Bytes} {u : Buffer B}
    (hu : b.buffers[b.reading]? = some u) (hle : b.readLen.1 + 4 + s.length ≤ B.1)
    (hnext : b.readLen.1 + 4 + s.length = B.1 → b.reading + 1 < b.buffers.length)
    (hslice : slice u.data b.readLen.1 (4 + s.length) = leBytes 4 s.length ++ s) :
    ∃ b', b.readStrValue = some (s, b') := by
  have hB := B.2.2
  have hr : b.reading < b.buffers.length := (List.getElem?_eq_some_iff.mp hu).1
  rw [slice_add] at hslice
  obtain ⟨hword, hs⟩ := List.append_inj hslice (by simp)
  have hn : toInt (ofLeBytes (slice u.data b.readLen.1 4)) = (s.length : Int) := by
    rw [hword, ofLeBytes_leBytes, Nat.mod_eq_of_lt (by omega), toInt_of_lt (by omega)]
  obtain ⟨b₁, h₁⟩ := exists_drawingReadingPos 4 hr (by omega : b.readLen.1 + 4 ≤ B.1)
  obtain ⟨hreads, hp⟩ := drawingReadingPos_eq h₁
  rw [readingPos.eq_1 b, Nat.add_assoc] at hp
  simp only [readStrValue, hu, hn]
  rw [if_neg (by omega)]
  simp only [h₁, bind_eq_bind, bind_some, Bool.cond_decide]
  rcases Nat.eq_or_lt_of_le (by omega : b.readLen.1 + 4 ≤ B.1) with heq | hlt
  · -- an empty string behind a length word that fills the buffer
    have h0 : s.length = 0 := by omega
    obtain ⟨hr₁, hl₁⟩ := reading_of_readingPos (b := b₁) (i := b.reading + 1) B.pos
      (by rw [hp, heq, Nat.add_one_mul, Nat.add_zero])
    obtain ⟨b', h'⟩ := exists_drawingReadingPos (b := b₁) 0
      (by rw [hr₁, hreads.1]; exact hnext (by omega)) (by omega)
    obtain rfl := List.eq_nil_of_length_eq_zero h0
    exact ⟨b', by simp [h']⟩
  · obtain ⟨hr₁, hl₁⟩ := reading_of_readingPos (b := b₁) hlt hp
    obtain ⟨b', h'⟩ := exists_drawingReadingPos (b := b₁) s.length
      (by rw [hr₁, hreads.1]; exact hr) (by omega)
    have hval : (if (s.length : Int) = 0 then some [] else b₁.assignStrValue s.length) = some s := by
      split
      · rw [List.eq_nil_of_length_eq_zero (by omega : s.length = 0)]
      · simp only [assignStrValue, hr₁, hl₁, hreads.1, hu]
        rw [if_neg (by omega), if_pos (by omega), hs]
    refine ⟨b', ?_⟩
    simp only [Int.toNat_natCast, hval, bind_some, h']
    rfl

theorem exists_getStrValue {b : ElasticBuffer B} {s : Bytes} {u : Buffer B}
    (hu : b.buffers[b.reading]? = some u) (hle : b.readLen.1 + 4 + s.length ≤ B.1)
    (hnext : b.readLen.1 + 4 + s.length = B.1 → b.reading + 1 < b.buffers.length)
    (hend : b.buffers.length ≤ b.reading + 1 → b.readLen ≠ u.dataLen)
    (hslice : slice u.data b.readLen.1 (4 + s.length) = leBytes 4 s.length ++ s) :
    ∃ b', b.getStrValue = some (some s, b') := by
  obtain ⟨b', h'⟩ := exists_readStrValue hu hle hnext hslice
  refine ⟨b', ?_⟩
  rw [getStrValue]
  simp only [hu]
  rw [if_neg (fun h => hend h.1 h.2), decide_eq_false (by omega)]
  simp [h']

/-- A packet in the first buffer is read from there. -/
theorem exists_getsTo {b : ElasticBuffer B} (ss : List Bytes) {u : Buffer B}
    (hu : b.buffers[0]? = some u) (hr : b.reading = 0)
    (hle : b.readLen.1 + packetLen ss ≤ B.1)
    (hnext : b.readLen.1 + packetLen ss = B.1 → 1 < b.buffers.length)
    (hend : b.buffers.length ≤ 1 → u.dataLen.1 = b.readLen.1 + packetLen ss)
    (hslice : slice u.data b.readLen.1 (packetLen ss) = packetBytes ss) :
    ∃ b', GetsTo b ss b' ∧ b'.readingPos = b.readLen.1 + packetLen ss := by
  induction ss generalizing b with
  | nil => exact ⟨b, rfl, by simp [readingPos, hr]⟩
  | cons s ss ih =>
    rw [packetLen_cons] at hle hnext hend hslice
    rw [slice_add, packetBytes_cons] at hslice
    obtain ⟨hs, hrest⟩ := List.append_inj hslice (by simp)
    have hu' : b.buffers[b.reading]? = some u := by rw [hr, hu]
    obtain ⟨b₁, h₁⟩ := exists_getStrValue (s := s) hu' (by omega)
      (fun h => by rw [hr]; exact hnext (by omega))
      (fun h hfin => by
        have hlen := hend (by omega)
        rw [← hfin] at hlen
        omega) hs
    have hp₀ : b.readingPos = b.readLen.1 := by simp [readingPos, hr]
    obtain ⟨hreads, -, hcases⟩ := getStrValue_some h₁
    rcases hcases with ⟨-, -, -, hp, -⟩ | ⟨hlt, -⟩
    · cases ss with
      | nil => exact ⟨b₁, ⟨b₁, h₁, rfl⟩, by rw [hp, hp₀]; simp⟩
      | cons s' ss =>
        have hlt : b₁.readingPos < B.1 := by
          rw [packetLen_cons] at hle
          omega
        obtain ⟨hr₁, hl₁⟩ := reading_of_readingPos (b := b₁) (i := 0) hlt (by simp)
        rw [hp, hp₀] at hl₁
        obtain ⟨b', hb', hp'⟩ := ih (b := b₁) (hreads.1 ▸ hu) hr₁ (by omega)
          (fun h => by rw [hreads.1]; exact hnext (by omega))
          (fun h => by rw [hreads.1] at h; rw [hend h, hl₁]; omega)
          (by rw [hl₁]; exact hrest)
        exact ⟨b', ⟨b₁, h₁, hb'⟩, by rw [hp', hl₁, packetLen_cons s]; omega⟩
    · omega

end ElasticBuffer

end ISearch.Replication
