import ISearch.Replication.BufferReading

/-!
# Packets through the elastic buffer

What a packet of strings becomes on its way from the buffer of the sender to that of the receiver.
Every buffer that the sender leaves behind counts as full in `getBufferSize` but has sent less, so
only a packet that fits into one buffer arrives. The receiver must have the read offset back at the
start.
-/

namespace ISearch.Replication

open Option

variable {B : BufferSize}

namespace ElasticBuffer

/-- The bytes of a packet go to the start of the first buffer. -/
theorem recieveLoop_head (heap : Nat → Nat → UInt8) (data : Nat → UInt8) (rest : List (Buffer B))
    (readLen : Fin B.1) (num : Nat) {stream : Bytes} (hne : stream ≠ [])
    (h : stream.length < B.1) :
    recieveLoop heap ⟨.new data :: rest, 0, 0, readLen, num⟩ stream stream.length =
      some (⟨⟨write data 0 stream, ⟨_, h⟩⟩ :: rest, 0, 0, readLen, num⟩, []) := by
  have hpos := List.length_pos_iff.mpr hne
  have hB := B.2.2
  have hexp : expandElasticBuffer heap ⟨.new data :: rest, 0, 0, readLen, num⟩ stream.length =
      some ⟨.new data :: rest, 0, 0, readLen, num⟩ := by
    simp only [expandElasticBuffer, List.getElem?_cons_zero]
    rw [if_pos (by simp [Buffer.new]; omega)]
  have hget : getWritingPos heap ⟨.new data :: rest, 0, 0, readLen, num⟩ stream.length false =
      some ⟨.new data :: rest, 0, 0, readLen, num⟩ := by
    rw [getWritingPos, hexp]
    rfl
  have hcopy : copyTo ⟨.new data :: rest, 0, 0, readLen, num⟩ 0 0 stream =
      some ⟨⟨write data 0 stream, ⟨0, B.pos⟩⟩ :: rest, 0, 0, readLen, num⟩ := by
    rw [copyTo, if_pos ⟨by simp, by omega⟩]
    rfl
  have hdraw : drawingWritingPos ⟨⟨write data 0 stream, ⟨0, B.pos⟩⟩ :: rest, 0, 0, readLen, num⟩
      stream.length = some ⟨⟨write data 0 stream, ⟨_, h⟩⟩ :: rest, 0, 0, readLen, num⟩ := by
    simp only [drawingWritingPos, List.getElem?_cons_zero, bind_eq_bind, bind_some,
      Nat.zero_add]
    rw [skipBuffers_of_lt h]
    rfl
  rw [recieveLoop, dif_neg (by omega)]
  simp only [Nat.min_eq_left h.le, hget, List.getElem?_cons_zero, bind_eq_bind,
    bind_some, Nat.lt_irrefl, if_false, List.take_length]
  rw [show (Buffer.new data : Buffer B).dataLen.1 = 0 from rfl, hcopy, bind_some, hdraw,
    bind_some, Nat.sub_self, List.drop_length, recieveLoop, dif_pos rfl]

/-- What a packet of less than a buffer leaves at the receiver. -/
theorem receiver_spec (heap : Nat → Nat → UInt8) {b : ElasticBuffer B} (hb : b.Inv)
    {stream : Bytes} (hne : stream ≠ []) (h : stream.length < B.1) :
    ∃ data rest num, b.recieveReplicationData heap stream stream.length =
        some (⟨⟨write data 0 stream, ⟨_, h⟩⟩ :: rest, 0, 0, b.readLen, num⟩, []) ∧
      rest.length = b.buffers.length - 1 ∧ (∀ v ∈ rest, v.dataLen.1 = 0) ∧
      ∀ u ∈ b.buffers.head?, u.data = data := by
  rw [recieveReplicationData, Int.toNat_natCast]
  obtain ⟨buffers, writing, reading, readLen, num⟩ := b
  cases buffers with
  | nil =>
    obtain rfl : num = 0 := (hb.fresh rfl).1
    refine ⟨heap 0, [], 1, ?_, rfl, by simp, by simp⟩
    rw [← recieveLoop_head heap (heap 0) [] readLen 1 hne h]
    have hpos := List.length_pos_iff.mpr hne
    have hfit := getWritingPos_fresh heap readLen false h.le
    have hsame := getWritingPos_solo heap (.new (heap 0)) readLen (n := stream.length) false
      (by omega) (by simp [Buffer.new]; omega)
    rw [recieveLoop, dif_neg (by omega), recieveLoop, dif_neg (by omega), Nat.min_eq_left h.le]
    change (getWritingPos heap (fresh readLen) _ false).bind _ =
      (getWritingPos heap (solo (.new (heap 0)) readLen) _ false).bind _
    rw [hfit, hsame]
  | cons u us =>
    refine ⟨u.data, _, num, recieveLoop_head heap u.data _ readLen num hne h, by simp, ?_, by simp⟩
    intro v hv
    obtain ⟨w, -, rfl⟩ := List.mem_map.mp hv
    rfl

/-! ## The packet -/

theorem getStrs_reads {b b' : ElasticBuffer B} {n : Nat} (h : b.getStrs n = some b') :
    Reads b b' := by
  induction n generalizing b with
  | zero =>
    cases h
    exact ⟨rfl, rfl, rfl⟩
  | succ n ih =>
    simp only [getStrs, bind_eq_bind, bind_eq_some_iff] at h
    obtain ⟨⟨value, b₁⟩, h₁, h⟩ := h
    cases value with
    | none =>
      obtain ⟨rfl, -⟩ := getStrValue_none.mp h₁
      exact ih h
    | some value => exact (getStrValue_some h₁).1.trans (ih h)

theorem use_inv {heap : Nat → Nat → UInt8} {b b' : ElasticBuffer B} {u : Use} (hb : b.Inv)
    (h : b.use heap u = some b') : b'.Inv := by
  have hreset := inv_resetElasticBuffer hb
  cases u with
  | fill header strs =>
    simp only [use, bind_eq_bind, bind_eq_some_iff] at h
    obtain ⟨b₁, h₁, u, -, b₂, h₂, b₃, h₃, h₄⟩ := h
    exact ((getWritingPos_writes h₁).trans ((copyTo_writes h₂).trans
      ((drawingWritingPos_writes h₃).trans (appendStrs_writes h₄))) hreset).1
  | recieve stream dataLen reads =>
    simp only [use, bind_eq_bind, bind_eq_some_iff] at h
    obtain ⟨⟨b₁, rest⟩, h₁, h⟩ := h
    exact (getStrs_reads h).inv (recieveLoop_writes h₁ hreset).1

theorem Reached.inv {heap : Nat → Nat → UInt8} {b : ElasticBuffer B} (h : Reached heap b) :
    b.Inv := by
  obtain ⟨uses, h⟩ := h
  have hrun : ∀ {b₀ : ElasticBuffer B}, b₀.Inv → uses.foldlM (use heap) b₀ = some b → b.Inv := by
    clear h
    induction uses with
    | nil =>
      intro b₀ hb₀ h
      cases h
      exact hb₀
    | cons u uses ih =>
      intro b₀ hb₀ h
      rw [List.foldlM_cons, bind_eq_bind] at h
      obtain ⟨b₁, h₁, h⟩ := bind_eq_some_iff.mp h
      exact ih (use_inv hb₀ h₁) h
  exact hrun inv_new h

theorem strLen_of_lt {s : Bytes} (h : s.length < 2 ^ 31) : strLen s = s.length := by
  rw [strLen, toInt_of_lt h, Int.toNat_natCast]

/-- Strings whose lengths are `int`s are written as they are. -/
theorem sent_eq_packet (ss : List Bytes) (h : ∀ s ∈ ss, s.length < 2 ^ 31) :
    sentLen ss = packetLen ss ∧ sentBytes ss = packetBytes ss := by
  have hlen : ∀ s ∈ ss, strLen s = s.length := fun s hs => strLen_of_lt (h s hs)
  constructor
  · rw [sentLen, packetLen, List.map_congr_left fun s hs => by rw [hlen s hs]]
  · rw [sentBytes, packetBytes]
    apply List.flatMap_congr
    intro s hs
    rw [strBytes, hlen s hs, List.take_length]

/-- The packet of `ss` fits into one buffer, the sender never had more than one, and the receiver
reads from the start of its only one. By accident the receiver may also read the strings from what
an earlier packet left at the end of the first of its two buffers. -/
def Fits (sender receiver : ElasticBuffer B) (ss : List Bytes) : Prop :=
  packetLen ss < B.1 ∧ sender.cacheBufferNum ≤ 1 ∧
    ((receiver.buffers.length ≤ 1 ∧ receiver.readLen.1 = 0 ∧
        (ss = [] → receiver.buffers ≠ [])) ∨
      (receiver.buffers.length = 2 ∧ receiver.readLen.1 + packetLen ss = B.1 ∧
        ∀ u ∈ receiver.buffers.head?,
          slice (write u.data 0 (packetBytes ss)) receiver.readLen.1 (packetLen ss) =
            packetBytes ss))

/-- When the strings of a packet are read from a receiver that was left with read offset `readLen`.
-/
theorem yields_received {data : Nat → UInt8} {rest : List (Buffer B)} {readLen : Fin B.1}
    {num : Nat} {ss : List Bytes} (hss : ss ≠ []) (h : (packetBytes ss).length < B.1)
    (hrest : ∀ v ∈ rest, v.dataLen.1 = 0) :
    yields ⟨⟨write data 0 (packetBytes ss), ⟨_, h⟩⟩ :: rest, 0, 0, readLen, num⟩ ss ↔
      (rest.length = 0 ∧ readLen.1 = 0) ∨
        (rest.length = 1 ∧ readLen.1 + packetLen ss = B.1 ∧
          slice (write data 0 (packetBytes ss)) readLen.1 (packetLen ss) = packetBytes ss) := by
  have hlt : packetLen ss < B.1 := by rwa [length_packetBytes] at h
  generalize hu : (⟨write data 0 (packetBytes ss), ⟨_, h⟩⟩ : Buffer B) = u
  have hdata : u.data = write data 0 (packetBytes ss) := by rw [← hu]
  have hlen : u.dataLen.1 = packetLen ss := by rw [← hu, ← length_packetBytes]
  generalize hb : (⟨u :: rest, 0, 0, readLen, num⟩ : ElasticBuffer B) = b
  have hbuf : b.buffers = u :: rest := by rw [← hb]
  have hr : b.reading = 0 := by rw [← hb]
  have hl : b.readLen = readLen := by rw [← hb]
  have hget : b.buffers[0]? = some u := by rw [hbuf, List.getElem?_cons_zero]
  rw [yields_iff, ← hdata]
  constructor
  · rintro ⟨b', hgets, hend⟩
    obtain ⟨hreads, -, -⟩ := hgets.pos_le
    obtain ⟨-, v, hv, hle, hfin⟩ := getStrValue_none.mp hend
    rw [hreads.1, hbuf] at hv hle
    have hlt' : b'.readingPos < 2 * B.1 := by
      refine hgets.pos_lt ?_ hlt
      have := b.readLen.2
      rw [readingPos, hr]
      omega
    cases hi : b'.reading with
    | zero =>
      rw [hi] at hv hle
      obtain rfl : u = v := by simpa using hv
      have hpos : b'.readingPos = packetLen ss := by rw [readingPos, hi, hfin, hlen]; simp
      have := (hgets.head hget hr (by omega)).1
      rw [hl] at this
      simp only [List.length_cons] at hle
      exact .inl (by omega)
    | succ i =>
      rw [hi, List.getElem?_cons_succ] at hv
      have hzero : b'.readLen.1 = 0 := by rw [hfin, hrest v (List.mem_of_getElem? hv)]
      have hmul : b'.readingPos = (i + 1) * B.1 := by rw [readingPos, hi, hzero, Nat.add_zero]
      have hi0 : i = 0 := by
        by_contra hne
        have : 2 * B.1 ≤ (i + 1) * B.1 := Nat.mul_le_mul_right _ (by omega)
        omega
      subst hi0
      rw [Nat.zero_add, Nat.one_mul] at hmul
      have hhead := hgets.head hget hr hmul.le
      rw [hl] at hhead
      have hone : 0 < rest.length := (List.getElem?_eq_some_iff.mp hv).1
      simp only [hi, List.length_cons] at hle
      exact .inr ⟨by omega, by omega, hhead.2⟩
  · have hpos : 0 < packetLen ss := by
      obtain ⟨s, ss, rfl⟩ := List.exists_cons_of_ne_nil hss
      rw [packetLen_cons]
      omega
    rintro (⟨h0, h0'⟩ | ⟨h1, hsum, hslice⟩)
    · have hslice : slice u.data b.readLen.1 (packetLen ss) = packetBytes ss := by
        rw [hl, h0', hdata, ← length_packetBytes, slice_write_self]
      obtain ⟨b', hgets, hp⟩ := exists_getsTo ss hget hr (by rw [hl]; omega)
        (by rw [hl]; omega) (by rw [hl]; omega) hslice
      obtain ⟨hr', hl'⟩ := reading_of_readingPos (b := b') (i := 0) hlt (by rw [hp, hl, h0']; simp)
      refine ⟨b', hgets, getStrValue_none.mpr ⟨rfl, u, ?_⟩⟩
      rw [hgets.pos_le.1.1, hr', hbuf]
      refine ⟨rfl, ?_, Fin.ext (by rw [hl', hlen])⟩
      rw [List.length_cons]
      omega
    · obtain ⟨v, rfl⟩ := List.length_eq_one_iff.mp h1
      obtain ⟨b', hgets, hp⟩ := exists_getsTo ss hget hr (by rw [hl]; omega)
        (by rw [hbuf]; simp) (by rw [hbuf]; simp) (by rw [hl]; exact hslice)
      obtain ⟨hr', hl'⟩ := reading_of_readingPos (b := b') (i := 1) B.pos
        (by rw [hp, hl, hsum]; simp)
      refine ⟨b', hgets, getStrValue_none.mpr ⟨rfl, v, ?_⟩⟩
      rw [hgets.pos_le.1.1, hr', hbuf]
      exact ⟨rfl, by simp, Fin.ext (by rw [hl', hrest v (by simp)])⟩

/-- An empty packet leaves the receiver as `resetElasticBuffer` does. -/
theorem yields_reset {b : ElasticBuffer B} :
    b.resetElasticBuffer.yields [] ↔ b.buffers.length = 1 ∧ b.readLen.1 = 0 := by
  obtain ⟨buffers, writing, reading, readLen, num⟩ := b
  simp only [yields_iff, GetsTo, exists_eq_left, getStrValue_none, true_and, resetElasticBuffer,
    List.getElem?_map, List.length_map, Nat.zero_add]
  cases buffers with
  | nil => simp
  | cons u us =>
    simp only [List.getElem?_cons_zero, map_some, Option.some.injEq, exists_eq_left',
      List.length_cons, Fin.ext_iff]
    omega

/-- A packet arrives exactly if it fits. -/
theorem carries_iff_fits {heap heap' : Nat → Nat → UInt8} {sender receiver : ElasticBuffer B}
    (hs : Reached heap sender) (hr : Reached heap' receiver) (ss : List Bytes) :
    carries heap heap' sender receiver ss ↔ Fits sender receiver ss := by
  constructor
  · intro h
    rw [carries] at h
    split at h
    · cases h
    rename_i b hb
    split at h
    · cases h
    rename_i n hn
    split at h
    swap
    · cases h
    rename_i b' hrec
    -- what was sent is what was announced, so the sender stayed in one buffer
    obtain ⟨hle, hdrop⟩ := recieveLoop_rest hrec
    have hlen : b.sent.length = n.toNat := by
      have := List.drop_eq_nil_iff.mp hdrop.symm
      omega
    have hinv := (appendStrs_writes hb (inv_resetElasticBuffer hs.inv)).1
    obtain ⟨hnum, hw⟩ := balanced hinv hn hlen
    obtain ⟨hnum', hfit⟩ := sender_inv hs.inv hb hnum hw
    obtain ⟨b₁, hb₁, hn₁, hsent⟩ := sender_spec heap hs.inv hnum' hfit
    obtain rfl : b₁ = b := Option.some.inj (hb₁.symm.trans hb)
    obtain rfl : (sentLen ss : Int) = n := Option.some.inj (hn₁.symm.trans hn)
    -- the strings that were read have the lengths that were written
    have hlens : ∀ s ∈ ss, s.length < 2 ^ 31 := by
      obtain ⟨_, hgets, -⟩ := yields_iff.mp h
      exact hgets.pos_le.2.1
    obtain ⟨hlen', hbytes⟩ := sent_eq_packet ss hlens
    rw [hlen'] at hfit hrec
    rw [hsent, hbytes] at hrec
    refine ⟨hfit, hnum', ?_⟩
    by_cases hss : ss = []
    · subst hss
      obtain rfl : receiver.resetElasticBuffer = b' := by
        simpa [recieveReplicationData, recieveLoop] using hrec
      obtain ⟨hone, hzero⟩ := yields_reset.mp h
      refine .inl ⟨hone.le, hzero, fun _ hnil => ?_⟩
      simp [hnil] at hone
    · rw [← length_packetBytes] at hfit hrec
      obtain ⟨data, rest, num, hrec', hlrest, hzero, hhead⟩ :=
        receiver_spec heap' hr.inv (packetBytes_ne_nil hss) hfit
      rw [hrec'] at hrec
      obtain ⟨rfl, -⟩ := Prod.mk.inj (Option.some.inj hrec)
      rcases (yields_received hss hfit hzero).mp h with ⟨h0, h0'⟩ | ⟨h1, hsum, hslice⟩
      · exact .inl ⟨by omega, h0', fun hnil => absurd hnil hss⟩
      · refine .inr ⟨by omega, hsum, fun u hu => ?_⟩
        rw [hhead u hu]
        exact hslice
  · rintro ⟨hfit, hnum, hcases⟩
    have hB := B.2.2
    obtain ⟨hlen, hbytes⟩ := sent_eq_packet ss fun s hs =>
      Nat.lt_trans (Nat.lt_of_le_of_lt (length_le_packetLen hs) hfit) hB
    obtain ⟨b, hb, hn, hsent⟩ := sender_spec heap hs.inv hnum (hlen ▸ hfit)
    rw [hbytes] at hsent
    rw [hlen] at hn
    simp only [carries, hb, hn, hsent]
    by_cases hss : ss = []
    · subst hss
      have hrec : receiver.recieveReplicationData heap' (packetBytes []) (packetLen [] : Nat) =
          some (receiver.resetElasticBuffer, []) := by
        simp [recieveReplicationData, recieveLoop]
      rw [hrec]
      refine yields_reset.mpr ?_
      rcases hcases with ⟨hle, h0, hne⟩ | ⟨-, hsum, -⟩
      · have := List.length_pos_iff.mpr (hne rfl)
        exact ⟨by omega, h0⟩
      · have := receiver.readLen.2
        rw [packetLen_nil] at hsum
        omega
    · rw [← length_packetBytes] at hfit
      obtain ⟨data, rest, num, hrec, hlrest, hzero, hhead⟩ :=
        receiver_spec heap' hr.inv (packetBytes_ne_nil hss) hfit
      rw [← length_packetBytes, hrec]
      refine (yields_received hss hfit hzero).mpr ?_
      rcases hcases with ⟨hle, h0, -⟩ | ⟨htwo, hsum, hslice⟩
      · exact .inl ⟨by omega, h0⟩
      · refine .inr ⟨by omega, hsum, ?_⟩
        obtain ⟨u, hu⟩ : ∃ u, u ∈ receiver.buffers.head? := by
          cases hbuf : receiver.buffers with
          | nil => simp [hbuf] at htwo
          | cons u us => exact ⟨u, rfl⟩
        rw [← hhead u hu]
        exact hslice u hu

theorem reached_new (heap : Nat → Nat → UInt8) : Reached heap (new : ElasticBuffer B) := ⟨[], rfl⟩

theorem carries_three_strings :
    carries (fun _ _ => 0) (fun _ _ => 0) (new : ElasticBuffer ⟨24, by decide⟩) new
      [[7, 9], [], [1, 2, 3]] :=
  (carries_iff_fits (reached_new _) (reached_new _) [[7, 9], [], [1, 2, 3]]).mpr
    ⟨by decide, by decide, .inl ⟨by decide, by decide, by simp⟩⟩

/-- A string that goes over the end of a buffer: 12 bytes are announced and 8 are sent. -/
theorem long_string_not_carried :
    Reached (fun _ _ => 0) (new : ElasticBuffer ⟨8, by decide⟩) ∧
      carries (fun _ _ => 0) (fun _ _ => 0) (new : ElasticBuffer ⟨8, by decide⟩) new
        [[1, 2, 3, 4, 5, 6, 7, 8]] = false :=
  ⟨reached_new _, by decide +kernel⟩

end ElasticBuffer

end ISearch.Replication
