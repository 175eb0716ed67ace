import ISearch.PtMalloc.Steps

/-!
# Chunks and bins

`unlink_bin` takes a free chunk out of its bin, `link_bin` puts a chunk into one. Both write the
links of free chunks only.
-/

namespace ISearch.PtMalloc

open Function

variable {e : Prop} {h h' : Heap} {g : Layout} {m' : Mem} {a b x s s' t i j top' : Nat}
    {c d : Chunk}
  {u : Use} {chunk' : Chunks} {l l₁ l₂ : List Nat}

@[simp] theorem Layout.set_self {c : Option Chunk} : (g.set a c).chunk a = c :=
  update_self _ _ _

theorem Layout.set_of_ne {c : Option Chunk} (hne : x ≠ a) : (g.set a c).chunk x = g.chunk x :=
  update_of_ne hne _ _

theorem toNat_one_shiftLeft (i : Nat) :
    ((1 : UInt32) <<< UInt32.ofNat (i % 32)).toNat = 2 ^ (i % 32) := by
  have hall : ∀ k < 32, ((1 : UInt32) <<< UInt32.ofNat k).toNat = 2 ^ k := by decide
  exact hall _ (Nat.mod_lt _ (by decide))

theorem auiBinBitMap_setBinBitMap (h : Heap) (i : Nat) :
    (h.setBinBitMap i).auiBinBitMap = update h.auiBinBitMap (i / 32)
      (h.auiBinBitMap (i / 32) ||| 1 <<< UInt32.ofNat (i % 32)) := rfl

theorem auiBinBitMap_clearBinBitMap (h : Heap) (i : Nat) :
    (h.clearBinBitMap i).auiBinBitMap = update h.auiBinBitMap (i / 32)
      (h.auiBinBitMap (i / 32) &&& ~~~(1 <<< UInt32.ofNat (i % 32))) := rfl

theorem binBit_setBinBitMap (h : Heap) (i j : Nat) :
    (h.setBinBitMap i).binBit j = (h.binBit j || i == j) := by
  rw [Heap.binBit, Heap.binBit, auiBinBitMap_setBinBitMap]
  by_cases hw : j / 32 = i / 32
  · have hmod : i % 32 = j % 32 ↔ i = j := by omega
    rw [hw, update_self, UInt32.toNat_or, toNat_one_shiftLeft, Nat.testBit_or,
      Nat.testBit_two_pow]
    simp only [hmod, beq_eq_decide]
  · have hne : (i == j) = false := by
      rw [beq_eq_false_iff_ne]
      rintro rfl
      exact hw rfl
    rw [update_of_ne hw, hne, Bool.or_false]

theorem binBit_clearBinBitMap (h : Heap) (hne : j ≠ i) :
    (h.clearBinBitMap i).binBit j = h.binBit j := by
  rw [Heap.binBit, Heap.binBit, auiBinBitMap_clearBinBitMap]
  by_cases hw : j / 32 = i / 32
  · have hmod : j % 32 < 32 := Nat.mod_lt _ (by decide)
    have hbit : (~~~((1 : UInt32) <<< UInt32.ofNat (i % 32))).toNat.testBit (j % 32) = true := by
      change (~~~((1 : UInt32) <<< UInt32.ofNat (i % 32))).toBitVec.toNat.testBit (j % 32) = true
      rw [UInt32.toBitVec_not, BitVec.testBit_toNat, BitVec.getLsbD_not, decide_eq_true hmod,
        Bool.true_and, ← BitVec.testBit_toNat]
      change (!((1 : UInt32) <<< UInt32.ofNat (i % 32)).toNat.testBit (j % 32)) = true
      rw [toNat_one_shiftLeft, Nat.testBit_two_pow, Bool.not_eq_true', decide_eq_false_iff_not]
      omega
    rw [hw, update_self, UInt32.toNat_and, Nat.testBit_and, hbit, Bool.and_true]
  · rw [update_of_ne hw]

/-- A write of the links of chunks that are no blocks keeps the body of the heap. -/
theorem Body.write_links (body : Body e h g)
    (hm : ∀ k, (∀ x c, g.chunk x = some c → ¬ c.use.Owned → k < x + 8 ∨ x + 24 ≤ k) →
      m' k = h.mem k) : Body e { h with mem := m' } g := by
  have hstart (y : Nat) (hy : IsStart g.chunk h.hTop y) (k : Nat) (hk : y ≤ k) (hk' : k < y + 8) :
      m' k = h.mem k := by
    refine hm k fun x c hx _ => ?_
    have hle := body.tiled.start_le_or_le hx hy
    have hbx := body.tiled.bounds x c hx
    omega
  refine body.frame (fun x hx k hk hk' => hstart x hx k (by omega) hk')
    (fun a s ha k hk hk' => hstart _ (body.tiled.isStart_end ha) k hk ?_)
    fun a c ha hu k hk hk' => hm k fun x d hx hd => ?_
  · dsimp only
    omega
  · have hba := body.tiled.bounds a c ha
    have hne : a ≠ x := by
      rintro rfl
      rw [ha] at hx
      cases hx
      exact hd hu
    rcases Nat.lt_or_gt_of_ne hne with hlt | hlt
    · have := body.tiled.disjoint a c x d ha hx hlt
      omega
    · have := body.tiled.disjoint x d a c hx ha hlt
      have hbx := body.tiled.bounds x d hx
      omega

/-! ## Unlinking -/

theorem Binned.eq_of_mem (binned : Binned h g) (hi : a ∈ g.bin i) (hj : a ∈ g.bin j) : i = j := by
  obtain ⟨s, hs, rfl⟩ := (binned.mem_bin i a).mp hi
  obtain ⟨t, ht, rfl⟩ := (binned.mem_bin j a).mp hj
  rw [hs] at ht
  cases ht
  rfl

/-- The memory after `unlink_bin` of a chunk between `hPre` and `hNext`. -/
def unlinkMem (m : Mem) (hPre hNext : Nat) : Mem :=
  let m := if hPre = 0 then m else storeLe m (hPre + 16) 8 hNext
  if hNext = 0 then m else storeLe m (hNext + 8) 8 hPre

theorem unlinkBin_eq (ha : a ≠ 0) (hnext : (h.ptBin i).hNextChunk ≠ 0)
    (hpre : (h.ptBin i).hPreChunk ≠ 0)
    (hne : h.hPreChunkAt a = 0 ∨ a + 24 ≤ h.hPreChunkAt a ∨ h.hPreChunkAt a + 24 ≤ a) :
    h.unlinkBin i a = { h with
      ptBin := update h.ptBin i
        ⟨if h.hNextChunkAt a = 0 then h.hPreChunkAt a else (h.ptBin i).hPreChunk,
          if h.hPreChunkAt a = 0 then h.hNextChunkAt a else (h.ptBin i).hNextChunk⟩
      mem := unlinkMem h.mem (h.hPreChunkAt a) (h.hNextChunkAt a) } := by
  have hor : ¬ ((h.ptBin i).hNextChunk = 0 ∨ (h.ptBin i).hPreChunk = 0) := by
    rintro (h0 | h0)
    · exact hnext h0
    · exact hpre h0
  rw [Heap.unlinkBin, if_neg ha, if_neg hor]
  by_cases hp : h.hPreChunkAt a = 0
  · have hlinks : ∀ bin, (h.setBin i bin).hPreChunkAt a = h.hPreChunkAt a ∧
        (h.setBin i bin).hNextChunkAt a = h.hNextChunkAt a := fun _ => ⟨rfl, rfl⟩
    simp only [if_pos hp, (hlinks _).1, (hlinks _).2]
    by_cases hn : h.hNextChunkAt a = 0
    · simp [hn, hp, Heap.setBin, unlinkMem]
    · simp [hn, hp, Heap.setBin, Heap.setHPreChunk, unlinkMem]
  · have hdisj := hne.resolve_left hp
    have hlinks : (h.setHNextChunk (h.hPreChunkAt a) (h.hNextChunkAt a)).hPreChunkAt a =
          h.hPreChunkAt a ∧
        (h.setHNextChunk (h.hPreChunkAt a) (h.hNextChunkAt a)).hNextChunkAt a =
          h.hNextChunkAt a :=
      ⟨Heap.hPreChunkAt_congr fun k hk hk' => storeLe_apply_of_disjoint (by omega),
        Heap.hNextChunkAt_congr fun k hk hk' => storeLe_apply_of_disjoint (by omega)⟩
    simp only [if_neg hp, hlinks.1, hlinks.2]
    by_cases hn : h.hNextChunkAt a = 0
    · simp [hn, hp, Heap.setBin, Heap.setHNextChunk, unlinkMem]
    · simp [hn, hp, Heap.setHNextChunk, Heap.setHPreChunk, unlinkMem]

theorem unlinkMem_apply {m : Mem} {hPre hNext k : Nat}
    (hp : hPre = 0 ∨ k < hPre + 8 ∨ hPre + 24 ≤ k)
      (hn : hNext = 0 ∨ k < hNext + 8 ∨ hNext + 24 ≤ k) :
    unlinkMem m hPre hNext k = m k := by
  have hinner : (if hPre = 0 then m else storeLe m (hPre + 16) 8 hNext) k = m k := by
    split
    · rfl
    · exact storeLe_apply_of_disjoint (by omega)
  rw [unlinkMem]
  split
  · exact hinner
  · exact (storeLe_apply_of_disjoint (by omega)).trans hinner

/-- Link areas are equal or apart. -/
def LinksApart (x y : Nat) : Prop := x = y ∨ x + 24 ≤ y ∨ y + 24 ≤ x

theorem loadLe_unlinkMem_next {m : Mem} {hPre hNext y : Nat} (hy : y ≠ 0) (hlt : hNext < 2 ^ 64)
    (hp : hPre = 0 ∨ LinksApart y hPre) (hn : hNext = 0 ∨ LinksApart y hNext) :
    loadLe (unlinkMem m hPre hNext) (y + 16) 8 = if y = hPre then hNext
      else loadLe m (y + 16) 8 := by
  have hinner : loadLe (if hPre = 0 then m else storeLe m (hPre + 16) 8 hNext) (y + 16) 8 =
      if y = hPre then hNext else loadLe m (y + 16) 8 := by
    by_cases h0 : hPre = 0
    · rw [if_pos h0, if_neg (by omega)]
    · rw [if_neg h0]
      by_cases hyp : y = hPre
      · rw [if_pos hyp, hyp, loadLe_storeLe hlt]
      · rw [if_neg hyp, loadLe_storeLe_of_disjoint]
        have := (hp.resolve_left h0).resolve_left hyp
        omega
  rw [unlinkMem]
  by_cases h0 : hNext = 0
  · rw [if_pos h0, hinner]
  · rw [if_neg h0, loadLe_storeLe_of_disjoint, hinner]
    rcases hn.resolve_left h0 with heq | hapart
    · omega
    · omega

theorem loadLe_unlinkMem_pre {m : Mem} {hPre hNext y : Nat} (hy : y ≠ 0) (hlt : hPre < 2 ^ 64)
    (hp : hPre = 0 ∨ LinksApart y hPre) (hn : hNext = 0 ∨ LinksApart y hNext) :
    loadLe (unlinkMem m hPre hNext) (y + 8) 8 = if y = hNext then hPre else loadLe m (y + 8) 8 := by
  have hinner : loadLe (if hPre = 0 then m else storeLe m (hPre + 16) 8 hNext) (y + 8) 8 =
      loadLe m (y + 8) 8 := by
    by_cases h0 : hPre = 0
    · rw [if_pos h0]
    · rw [if_neg h0, loadLe_storeLe_of_disjoint]
      rcases hp.resolve_left h0 with heq | hapart
      · omega
      · omega
  rw [unlinkMem]
  by_cases h0 : hNext = 0
  · rw [if_pos h0, hinner, if_neg (by omega)]
  · rw [if_neg h0]
    by_cases hyn : y = hNext
    · rw [if_pos hyn, hyn, loadLe_storeLe hlt]
    · rw [if_neg hyn, loadLe_storeLe_of_disjoint, hinner]
      have := (hn.resolve_left h0).resolve_left hyn
      omega

/-- The layout with the free chunk `a` taken out of its bin. -/
def Layout.unlink (g : Layout) (a s : Nat) : Layout :=
  { g.set a (some ⟨s, .idle⟩) with
    bin := update g.bin (binIndex s) ((g.bin (binIndex s)).erase a) }

theorem Binned.mem_free (binned : Binned h g) (ha : a ∈ g.bin i) :
    ∃ s, g.chunk a = some ⟨s, .free⟩ := by
  obtain ⟨s, hs, -⟩ := (binned.mem_bin i a).mp ha
  exact ⟨s, hs⟩

namespace Inv

variable (inv : Inv e h g)
include inv

theorem linksApart (ha : a ∈ g.bin i) (hb : b ∈ g.bin j) : LinksApart a b := by
  obtain ⟨s, hs⟩ := inv.mem_free ha
  obtain ⟨t, ht⟩ := inv.mem_free hb
  by_cases hab : a = b
  · exact .inl hab
  · exact .inr (inv.tiled.disjoint_of_ne hs ht hab)

theorem ne_zero (ha : a ∈ g.bin i) : a ≠ 0 := by
  obtain ⟨s, hs⟩ := inv.mem_free ha
  have := inv.pos hs
  omega

/-- The chunks around a free chunk are in its bin. -/
theorem around (ha : a ∈ g.bin i) :
    (h.hPreChunkAt a = 0 ∨ h.hPreChunkAt a ∈ g.bin i ∧ h.hPreChunkAt a ≠ a) ∧
      (h.hNextChunkAt a = 0 ∨ h.hNextChunkAt a ∈ g.bin i ∧ h.hNextChunkAt a ≠ a) := by
  obtain ⟨l₁, l₂, hl⟩ := List.append_of_mem ha
  have hnodup := inv.nodup i
  have hlist := inv.bins i
  rw [hl] at hnodup hlist
  have hsub (y : Nat) (hy : y ∈ l₁ ++ l₂) : y ∈ g.bin i ∧ y ≠ a := by
    have hperm : (l₁ ++ a :: l₂).Perm (a :: (l₁ ++ l₂)) := List.perm_middle
    rw [hl]
    refine ⟨hperm.mem_iff.mpr (List.mem_cons_of_mem _ hy), ?_⟩
    rintro rfl
    exact (List.nodup_cons.mp (hperm.nodup_iff.mp hnodup)).1 hy
  rw [hlist.split.1, hlist.split.2]
  constructor
  · cases hlast : l₁.getLast? with
    | none => exact .inl rfl
    | some y => exact .inr (hsub y (List.mem_append_left _ (List.mem_of_getLast? hlast)))
  · cases hhead : l₂.head? with
    | none => exact .inl rfl
    | some y => exact .inr (hsub y (List.mem_append_right _ (List.mem_of_head? hhead)))

/-- The links of free chunks after `unlink_bin`. -/
theorem unlink_links (ha : a ∈ g.bin i)
    (hmem : h'.mem = unlinkMem h.mem (h.hPreChunkAt a) (h.hNextChunkAt a)) (hb : b ∈ g.bin j) :
    h'.hNextChunkAt b = (if b = h.hPreChunkAt a then h.hNextChunkAt a else h.hNextChunkAt b) ∧
      h'.hPreChunkAt b = if b = h.hNextChunkAt a then h.hPreChunkAt a else h.hPreChunkAt b := by
  obtain ⟨hpre, hnext⟩ := inv.around ha
  have hpre' := hpre.imp_right fun hp => inv.linksApart hb hp.1
  have hnext' := hnext.imp_right fun hn => inv.linksApart hb hn.1
  have hb0 := inv.ne_zero hb
  constructor
  · rw [Heap.hNextChunkAt, hmem, loadLe_unlinkMem_next hb0 (h.hNextChunkAt_lt a) hpre' hnext']
    rfl
  · rw [Heap.hPreChunkAt, hmem, loadLe_unlinkMem_pre hb0 (h.hPreChunkAt_lt a) hpre' hnext']
    rfl

theorem unlink_body (ha : g.chunk a = some ⟨s, .free⟩) (hmem : a ∈ g.bin i) :
    Body e { h with mem := unlinkMem h.mem (h.hPreChunkAt a) (h.hNextChunkAt a) }
      (g.unlink a s) := by
  obtain ⟨hpre, hnext⟩ := inv.around hmem
  have hframe :
    Body e { h with mem := unlinkMem h.mem (h.hPreChunkAt a) (h.hNextChunkAt a) } g := by
    apply inv.toBody.write_links
    intro k hk
    apply unlinkMem_apply
    · refine hpre.imp_right fun hp => ?_
      obtain ⟨t, ht⟩ := inv.mem_free hp.1
      exact hk _ _ ht id
    · refine hnext.imp_right fun hn => ?_
      obtain ⟨t, ht⟩ := inv.mem_free hn.1
      exact hk _ _ ht id
  exact (hframe.setIdle ha).of_layout rfl rfl

theorem unlink_binned (ha : g.chunk a = some ⟨s, .free⟩)
    (hmem : h'.mem = unlinkMem h.mem (h.hPreChunkAt a) (h.hNextChunkAt a))
    (hbin : h'.ptBin = update h.ptBin (binIndex s)
      ⟨if h.hNextChunkAt a = 0 then h.hPreChunkAt a else (h.ptBin (binIndex s)).hPreChunk,
        if h.hPreChunkAt a = 0 then h.hNextChunkAt a else (h.ptBin (binIndex s)).hNextChunk⟩)
    (hbit : h'.auiBinBitMap = h.auiBinBitMap) : Binned h' (g.unlink a s) := by
  have hain : a ∈ g.bin (binIndex s) := (inv.mem_bin _ a).mpr ⟨s, ha, rfl⟩
  obtain ⟨hpre, hnext⟩ := inv.around hain
  obtain ⟨l₁, l₂, hl⟩ := List.append_of_mem hain
  have hlist := inv.bins (binIndex s)
  have hnodup := inv.nodup (binIndex s)
  have hnot : a ∉ l₁ := by
    rw [hl] at hnodup
    exact fun h1 => (List.nodup_append.mp hnodup).2.2 a h1 a List.mem_cons_self rfl
  have herase : (g.bin (binIndex s)).erase a = l₁ ++ l₂ := by
    rw [hl, List.erase_append_right _ hnot, List.erase_cons_head]
  have hsub (y : Nat) (hy : y ∈ l₁ ++ l₂) : y ∈ g.bin (binIndex s) :=
    List.mem_of_mem_erase (herase ▸ hy)
  have hself : (g.unlink a s).bin (binIndex s) = l₁ ++ l₂ := by
    rw [← herase]
    exact update_self _ _ _
  have hother (j : Nat) (hj : j ≠ binIndex s) : (g.unlink a s).bin j = g.bin j :=
    update_of_ne hj _ _
  refine ⟨fun j => ?_, fun j => ?_, fun j x => ?_, fun j hj => ?_⟩
  · by_cases hj : j = binIndex s
    · subst hj
      rw [hself, hbin, update_self]
      rw [hl] at hlist hnodup
      refine hlist.unlink hnodup ?_ (fun y hy => (inv.unlink_links hain hmem (hsub y hy)).1)
        fun y hy => (inv.unlink_links hain hmem (hsub y hy)).2
      rw [← hl]
      exact (inv.bins _).nil_notMem
    · have hne (y z : Nat) (hy : y ∈ g.bin j) (hz : z = 0 ∨ z ∈ g.bin (binIndex s) ∧ z ≠ a) :
          y ≠ z := by
        rintro rfl
        rcases hz with h0 | hz
        · exact inv.ne_zero hy h0
        · exact hj (inv.eq_of_mem hy hz.1)
      rw [hother j hj, hbin, update_of_ne hj]
      apply (inv.bins j).congr
      · exact fun y hy => (inv.unlink_links hain hmem hy).2.trans (if_neg (hne y _ hy hnext))
      · exact fun y hy => (inv.unlink_links hain hmem hy).1.trans (if_neg (hne y _ hy hpre))
  · by_cases hj : j = binIndex s
    · rw [hj, hself, ← herase]
      exact hnodup.erase a
    · rw [hother j hj]
      exact inv.nodup j
  · have hfree : (∃ t, (g.unlink a s).chunk x = some ⟨t, .free⟩ ∧ binIndex t = j) ↔
        x ≠ a ∧ x ∈ g.bin j := by
      rw [inv.mem_bin]
      simp only [Layout.unlink, Layout.set, update_eq_some_iff]
      constructor
      · rintro ⟨t, ⟨-, hc⟩ | ⟨hne, hx⟩, ht⟩
        · cases hc
        · exact ⟨hne, t, hx, ht⟩
      · rintro ⟨hne, t, hx, ht⟩
        exact ⟨t, .inr ⟨hne, hx⟩, ht⟩
    rw [hfree]
    by_cases hj : j = binIndex s
    · rw [hj, hself, ← herase, hnodup.mem_erase_iff]
    · rw [hother j hj]
      refine ⟨fun hx => ⟨?_, hx⟩, And.right⟩
      rintro rfl
      exact hj (inv.eq_of_mem hx hain)
  · have hbits : h'.binBit j = h.binBit j := by rw [Heap.binBit, hbit, Heap.binBit]
    rw [hbits]
    by_cases hji : j = binIndex s
    · rw [hji]
      exact inv.bit _ (List.ne_nil_of_mem hain)
    · rw [hother j hji] at hj
      exact inv.bit j hj

theorem unlinkBin_eq_of (ha : g.chunk a = some ⟨s, .free⟩) : h.unlinkBin (binIndex s) a = { h with
      ptBin := update h.ptBin (binIndex s)
        ⟨if h.hNextChunkAt a = 0 then h.hPreChunkAt a else (h.ptBin (binIndex s)).hPreChunk,
          if h.hPreChunkAt a = 0 then h.hNextChunkAt a else (h.ptBin (binIndex s)).hNextChunk⟩
      mem := unlinkMem h.mem (h.hPreChunkAt a) (h.hNextChunkAt a) } := by
  have hain : a ∈ g.bin (binIndex s) := (inv.mem_bin _ a).mpr ⟨s, ha, rfl⟩
  have hbin : g.bin (binIndex s) ≠ [] := List.ne_nil_of_mem hain
  apply unlinkBin_eq (inv.ne_zero hain)
  · exact fun h0 => hbin ((inv.bins _).head_eq_nil.mp h0)
  · exact fun h0 => hbin ((inv.bins _).tail_eq_nil.mp h0)
  · refine (inv.around hain).1.imp_right fun hp => ?_
    exact (inv.linksApart hain hp.1).resolve_left hp.2.symm

theorem unlinkBin (ha : g.chunk a = some ⟨s, .free⟩) :
    Inv e (h.unlinkBin (binIndex s) a) (g.unlink a s) := by
  have hain : a ∈ g.bin (binIndex s) := (inv.mem_bin _ a).mpr ⟨s, ha, rfl⟩
  rw [inv.unlinkBin_eq_of ha]
  exact ⟨(inv.unlink_body ha hain).of_eq rfl rfl rfl rfl, inv.unlink_binned ha rfl rfl rfl⟩

/-- The bit of an empty bin cleared. -/
theorem clearBin (hempty : h.emptyBin i = true) : Inv e (h.clearBinBitMap i) g := by
  have hnil : g.bin i = [] := (inv.bins i).head_eq_nil.mp (by simpa [Heap.emptyBin] using hempty)
  refine ⟨inv.toBody.of_eq rfl rfl rfl rfl, inv.bins, inv.nodup, inv.mem_bin, fun j hj => ?_⟩
  have hne : j ≠ i := by
    rintro rfl
    exact hj hnil
  rw [binBit_clearBinBitMap h hne]
  exact inv.bit j hj

theorem unlinkClear (ha : g.chunk a = some ⟨s, .free⟩) :
    Inv e (h.unlinkClear (binIndex s) a) (g.unlink a s) := by
  have hunlink := inv.unlinkBin ha
  rw [Heap.unlinkClear]
  split
  · rename_i hempty
    exact hunlink.clearBin hempty
  · exact hunlink

/-- `unlink_bin` leaves the sizes. -/
theorem unlinkBin_sizes (ha : g.chunk a = some ⟨s, .free⟩) (hx : IsStart g.chunk h.hTop x) :
    (h.unlinkBin (binIndex s) a).tSizeAt x = h.tSizeAt x ∧
      (h.unlinkBin (binIndex s) a).tPreSizeAt x = h.tPreSizeAt x := by
  have hain : a ∈ g.bin (binIndex s) := (inv.mem_bin _ a).mpr ⟨s, ha, rfl⟩
  obtain ⟨hpre, hnext⟩ := inv.around hain
  rw [inv.unlinkBin_eq_of ha]
  have hstart (y k : Nat) (hy : y = 0 ∨ y ∈ g.bin (binIndex s) ∧ y ≠ a) (hk : x ≤ k)
      (hk' : k < x + 8) : y = 0 ∨ k < y + 8 ∨ y + 24 ≤ k := by
    refine hy.imp_right fun hy => ?_
    obtain ⟨t, ht⟩ := inv.mem_free hy.1
    have hle := inv.tiled.start_le_or_le ht hx
    have hbounds := inv.tiled.bounds y _ ht
    dsimp only at hle hbounds
    omega
  have hm (k : Nat) (hk : x ≤ k) (hk' : k < x + 8) :
      unlinkMem h.mem (h.hPreChunkAt a) (h.hNextChunkAt a) k = h.mem k :=
    unlinkMem_apply (hstart _ k hpre hk hk') (hstart _ k hnext hk hk')
  constructor
  · exact loadLe_congr fun k hk hk' => hm k (by omega) (by omega)
  · exact loadLe_congr fun k hk hk' => hm k hk (by omega)

theorem unlinkClear_sizes (ha : g.chunk a = some ⟨s, .free⟩) (hx : IsStart g.chunk h.hTop x) :
    (h.unlinkClear (binIndex s) a).tSizeAt x = h.tSizeAt x ∧
      (h.unlinkClear (binIndex s) a).tPreSizeAt x = h.tPreSizeAt x := by
  have hunlink := inv.unlinkBin_sizes ha hx
  rw [Heap.unlinkClear]
  split
  · exact hunlink
  · exact hunlink

end Inv

/-! ## Linking -/

/-- The memory after `link_bin` of the chunk `a` before the chunk `head`. -/
def linkMem (m : Mem) (a head : Nat) : Mem :=
  let m := storeLe (storeLe m (a + 16) 8 head) (a + 8) 8 0
  if head = 0 then m else storeLe m (head + 8) 8 a

theorem linkBin_eq (ha : a ≠ 0)
    (hiff : (h.ptBin i).hNextChunk = 0 ↔ (h.ptBin i).hPreChunk = 0) :
    h.linkBin i a = { h with
      ptBin := update h.ptBin i
        ⟨if (h.ptBin i).hNextChunk = 0 then a else (h.ptBin i).hPreChunk, a⟩
      mem := linkMem h.mem a (h.ptBin i).hNextChunk } := by
  rw [Heap.linkBin, if_neg ha]
  by_cases h0 : (h.ptBin i).hNextChunk = 0
  · simp [h0, hiff.mp h0, Heap.setBin, Heap.setHNextChunk, Heap.setHPreChunk, linkMem]
  · have h0' : (h.ptBin i).hPreChunk ≠ 0 := fun hp => h0 (hiff.mpr hp)
    simp [h0, h0', Heap.setBin, Heap.setHNextChunk, Heap.setHPreChunk, linkMem]

theorem linkMem_apply {m : Mem} {head k : Nat} (ha : k < a + 8 ∨ a + 24 ≤ k)
    (hhead : head = 0 ∨ k < head + 8 ∨ head + 24 ≤ k) : linkMem m a head k = m k := by
  have hinner : storeLe (storeLe m (a + 16) 8 head) (a + 8) 8 0 k = m k := by
    rw [storeLe_apply_of_disjoint (by omega), storeLe_apply_of_disjoint (by omega)]
  rw [linkMem]
  split
  · exact hinner
  · exact (storeLe_apply_of_disjoint (by omega)).trans hinner

theorem loadLe_linkMem_self {m : Mem} {head : Nat} (hlt : head < 2 ^ 64)
    (hhead : head = 0 ∨ a + 24 ≤ head ∨ head + 24 ≤ a) :
    loadLe (linkMem m a head) (a + 16) 8 = head ∧ loadLe (linkMem m a head) (a + 8) 8 = 0 := by
  have hnext : loadLe (storeLe (storeLe m (a + 16) 8 head) (a + 8) 8 0) (a + 16) 8 = head := by
    rw [loadLe_storeLe_of_disjoint (by omega), loadLe_storeLe hlt]
  have hpre : loadLe (storeLe (storeLe m (a + 16) 8 head) (a + 8) 8 0) (a + 8) 8 = 0 :=
    loadLe_storeLe (by decide)
  rw [linkMem]
  by_cases h0 : head = 0
  · rw [if_pos h0]
    exact ⟨hnext, hpre⟩
  · rw [if_neg h0]
    exact ⟨(loadLe_storeLe_of_disjoint (by omega)).trans hnext,
      (loadLe_storeLe_of_disjoint (by omega)).trans hpre⟩

theorem loadLe_linkMem_of_ne {m : Mem} {head y : Nat} (hlt : a < 2 ^ 64) (hy : y ≠ 0)
    (hya : y + 24 ≤ a ∨ a + 24 ≤ y) (hhead : head = 0 ∨ LinksApart y head) :
    loadLe (linkMem m a head) (y + 16) 8 = loadLe m (y + 16) 8 ∧
      loadLe (linkMem m a head) (y + 8) 8 = if y = head then a else loadLe m (y + 8) 8 := by
  have hnext : loadLe (storeLe (storeLe m (a + 16) 8 head) (a + 8) 8 0) (y + 16) 8 =
      loadLe m (y + 16) 8 := by
    rw [loadLe_storeLe_of_disjoint (by omega), loadLe_storeLe_of_disjoint (by omega)]
  have hpre : loadLe (storeLe (storeLe m (a + 16) 8 head) (a + 8) 8 0) (y + 8) 8 =
      loadLe m (y + 8) 8 := by
    rw [loadLe_storeLe_of_disjoint (by omega), loadLe_storeLe_of_disjoint (by omega)]
  rw [linkMem]
  by_cases h0 : head = 0
  · rw [if_pos h0, if_neg (by omega)]
    exact ⟨hnext, hpre⟩
  · rw [if_neg h0]
    rcases hhead.resolve_left h0 with rfl | hapart
    · rw [if_pos rfl, loadLe_storeLe_of_disjoint (by omega), loadLe_storeLe hlt]
      exact ⟨hnext, rfl⟩
    · rw [if_neg (by omega)]
      exact ⟨(loadLe_storeLe_of_disjoint (by omega)).trans hnext,
        (loadLe_storeLe_of_disjoint (by omega)).trans hpre⟩

/-- The layout with the idle chunk `a` put into its bin. -/
def Layout.link (g : Layout) (a s : Nat) : Layout :=
  { g.set a (some ⟨s, .free⟩) with
    bin := update g.bin (binIndex s) (a :: g.bin (binIndex s)) }

/-- What `link_bin` needs of an idle chunk. -/
structure Linkable (e : Prop) (h : Heap) (g : Layout) (a s : Nat) : Prop where
  size : h.chunkSize a = s
  pre_size : h.prevInuse (a + s) = false → h.tPreSizeAt (a + s) = s
  exact : e → h.prevInuse (a + s) = false
  apart_pre : e → ∀ b t, g.chunk b = some ⟨t, .free⟩ → b + t = a → maxAllocSize < t + s
  apart_next : e → ∀ t, g.chunk (a + s) = some ⟨t, .free⟩ → maxAllocSize < s + t

theorem Body.setFree (body : Body e h g) (ha : g.chunk a = some ⟨s, .idle⟩)
    (hlink : Linkable e h g a s) : Body e h (g.set a (some ⟨s, .free⟩)) := by
  have hcases (x : Nat) (c : Chunk) (hx : (g.set a (some ⟨s, .free⟩)).chunk x = some c) :
      x = a ∧ c = ⟨s, .free⟩ ∨ g.chunk x = some c := by
    rcases update_eq_some_iff.mp hx with ⟨rfl, hc⟩ | ⟨-, hx⟩
    · cases hc
      exact .inl ⟨rfl, rfl⟩
    · exact .inr hx
  refine ⟨body.tiled.setUse ha, body.bottom_pos, body.top_le, body.size_lt, fun x c hx hu => ?_,
    body.pre_bottom, body.pre_top, fun x c hx hu => ?_, fun x t hx => ?_, fun x c hx hu => ?_,
    fun he x t hx => ?_, fun he x t t' hx hx' => ?_⟩
  · rcases hcases x c hx with ⟨rfl, rfl⟩ | hx
    · exact hlink.size
    · exact body.size x c hx hu
  · rcases hcases x c hx with ⟨rfl, rfl⟩ | hx
    · exact absurd hu id
    · exact body.pre_owned x c hx hu
  · rcases hcases x _ hx with ⟨rfl, hc⟩ | hx
    · cases hc
      exact hlink.pre_size
    · exact body.pre_size x t hx
  · rcases hcases x c hx with ⟨rfl, rfl⟩ | hx
    · exact absurd hu id
    · exact body.data x c hx hu
  · rcases hcases x _ hx with ⟨rfl, hc⟩ | hx
    · cases hc
      exact hlink.exact he
    · exact body.exact he x t hx
  · have hba := body.tiled.bounds a _ ha
    dsimp only at hba
    rcases hcases x _ hx with ⟨rfl, hc⟩ | hx <;> rcases hcases _ _ hx' with ⟨hxa, hc'⟩ | hx'
    · cases hc
      cases hc'
      omega
    · cases hc
      exact hlink.apart_next he t' hx'
    · cases hc'
      exact hlink.apart_pre he x t hx hxa
    · exact body.apart he x t t' hx hx'

namespace Inv

variable (inv : Inv e h g)
include inv

theorem linkBin_eq_of (ha : g.chunk a = some ⟨s, .idle⟩) : h.linkBin i a = { h with
      ptBin := update h.ptBin i
        ⟨if (h.ptBin i).hNextChunk = 0 then a else (h.ptBin i).hPreChunk, a⟩
      mem := linkMem h.mem a (h.ptBin i).hNextChunk } := by
  have hpos := inv.pos ha
  apply linkBin_eq (by omega)
  rw [(inv.bins i).head_eq_nil, (inv.bins i).tail_eq_nil]

theorem head_eq_zero_or_mem (i : Nat) :
    (h.ptBin i).hNextChunk = 0 ∨ (h.ptBin i).hNextChunk ∈ g.bin i := by
  have hlist := inv.bins i
  cases hl : g.bin i with
  | nil =>
    rw [hl] at hlist
    exact .inl hlist.1
  | cons x l =>
    rw [hl] at hlist
    exact .inr (hlist.1 ▸ List.mem_cons_self)

theorem link_body (ha : g.chunk a = some ⟨s, .idle⟩) (hlink : Linkable e h g a s) :
    Body e { h with mem := linkMem h.mem a (h.ptBin (binIndex s)).hNextChunk } (g.link a s) := by
  have hba := inv.tiled.bounds a _ ha
  dsimp only at hba
  have hframe : Body e { h with mem := linkMem h.mem a (h.ptBin (binIndex s)).hNextChunk } g := by
    apply inv.toBody.write_links
    intro k hk
    apply linkMem_apply
    · exact hk a _ ha id
    · refine (inv.head_eq_zero_or_mem _).imp_right fun hmem => ?_
      obtain ⟨t, ht⟩ := inv.mem_free hmem
      exact hk _ _ ht id
  have hm (k : Nat) (hk : ∃ y, IsStart g.chunk h.hTop y ∧ y ≤ k ∧ k < y + 8) :
      linkMem h.mem a (h.ptBin (binIndex s)).hNextChunk k = h.mem k := by
    obtain ⟨y, hy, hk, hk'⟩ := hk
    have hle := inv.tiled.start_le_or_le ha hy
    apply linkMem_apply
    · dsimp only at hle
      omega
    · refine (inv.head_eq_zero_or_mem _).imp_right fun hmem => ?_
      obtain ⟨t, ht⟩ := inv.mem_free hmem
      have hbt := inv.tiled.bounds _ _ ht
      have hle := inv.tiled.start_le_or_le ht hy
      dsimp only at hbt hle
      omega
  have hend := inv.tiled.isStart_end ha
  refine (hframe.setFree ha ⟨?_, ?_, ?_, hlink.apart_pre, hlink.apart_next⟩).of_layout rfl rfl
  · rw [Heap.chunkSize_congr fun k hk hk' => hm k ⟨a, .inr ⟨_, ha⟩, by omega, by omega⟩]
    exact hlink.size
  · rw [Heap.prevInuse_congr fun k hk hk' => hm k ⟨a + s, hend, by omega, by omega⟩,
      Heap.tPreSizeAt_congr fun k hk hk' => hm k ⟨a + s, hend, by omega, by omega⟩]
    exact hlink.pre_size
  · rw [Heap.prevInuse_congr fun k hk hk' => hm k ⟨a + s, hend, by omega, by omega⟩]
    exact hlink.exact

theorem link_binned (ha : g.chunk a = some ⟨s, .idle⟩)
    (hmem : h'.mem = linkMem h.mem a (h.ptBin (binIndex s)).hNextChunk)
    (hbin : h'.ptBin = update h.ptBin (binIndex s)
      ⟨if (h.ptBin (binIndex s)).hNextChunk = 0 then a else (h.ptBin (binIndex s)).hPreChunk, a⟩)
    (hbit : ∀ j, h'.binBit j = (h.binBit j || binIndex s == j)) : Binned h' (g.link a s) := by
  have hba := inv.tiled.bounds a _ ha
  have hlt := inv.size_lt
  have hle := inv.top_le
  dsimp only at hba
  have hnot (j : Nat) : a ∉ g.bin j := by
    intro hj
    obtain ⟨t, ht⟩ := inv.mem_free hj
    rw [ha] at ht
    cases ht
  have hapart (j y : Nat) (hy : y ∈ g.bin j) : y + 24 ≤ a ∨ a + 24 ≤ y := by
    obtain ⟨t, ht⟩ := inv.mem_free hy
    refine inv.tiled.disjoint_of_ne ht ha ?_
    rintro rfl
    exact hnot j hy
  have hhead := inv.head_eq_zero_or_mem (binIndex s)
  have hlinks (j y : Nat) (hy : y ∈ g.bin j) : h'.hNextChunkAt y = h.hNextChunkAt y ∧
      h'.hPreChunkAt y =
        if y = (h.ptBin (binIndex s)).hNextChunk then a else h.hPreChunkAt y := by
    rw [Heap.hNextChunkAt, Heap.hPreChunkAt, hmem]
    exact loadLe_linkMem_of_ne (by omega) (inv.ne_zero hy) (hapart j y hy)
      (hhead.imp_right fun hmem => inv.linksApart hy hmem)
  have hself : h'.hNextChunkAt a = (h.ptBin (binIndex s)).hNextChunk ∧ h'.hPreChunkAt a = 0 := by
    rw [Heap.hNextChunkAt, Heap.hPreChunkAt, hmem]
    have hheadlt : (h.ptBin (binIndex s)).hNextChunk < 2 ^ 64 := by
      rcases hhead with h0 | hmem
      · omega
      · obtain ⟨t, ht⟩ := inv.mem_free hmem
        have hbt := inv.tiled.bounds _ _ ht
        dsimp only at hbt
        omega
    exact loadLe_linkMem_self hheadlt (hhead.imp_right fun hmem => (hapart _ _ hmem).symm)
  have hbinself : (g.link a s).bin (binIndex s) = a :: g.bin (binIndex s) :=
    update_self _ _ _
  have hother (j : Nat) (hj : j ≠ binIndex s) : (g.link a s).bin j = g.bin j :=
    update_of_ne hj _ _
  refine ⟨fun j => ?_, fun j => ?_, fun j x => ?_, fun j hj => ?_⟩
  · by_cases hj : j = binIndex s
    · subst hj
      rw [hbinself, hbin, update_self]
      have hpos := inv.pos ha
      exact (inv.bins _).push (inv.nodup _) (ne_of_gt hpos) hself.2 hself.1
        (fun y hy => (hlinks _ y hy).2) fun y hy => (hlinks _ y hy).1
    · rw [hother j hj, hbin, update_of_ne hj]
      apply (inv.bins j).congr
      · intro y hy
        refine (hlinks j y hy).2.trans (if_neg ?_)
        rintro rfl
        rcases hhead with h0 | hmem
        · exact inv.ne_zero hy h0
        · exact hj (inv.eq_of_mem hy hmem)
      · exact fun y hy => (hlinks j y hy).1
  · by_cases hj : j = binIndex s
    · rw [hj, hbinself]
      exact List.nodup_cons.mpr ⟨hnot _, inv.nodup _⟩
    · rw [hother j hj]
      exact inv.nodup j
  · have hfree : (∃ t, (g.link a s).chunk x = some ⟨t, .free⟩ ∧ binIndex t = j) ↔
        x = a ∧ binIndex s = j ∨ x ∈ g.bin j := by
      rw [inv.mem_bin]
      simp only [Layout.link, Layout.set, update_eq_some_iff]
      constructor
      · rintro ⟨t, ⟨hxa, hc⟩ | ⟨-, hx⟩, ht⟩
        · cases hc
          exact .inl ⟨hxa, ht⟩
        · exact .inr ⟨t, hx, ht⟩
      · rintro (⟨hxa, hj⟩ | ⟨t, hx, ht⟩)
        · exact ⟨s, .inl ⟨hxa, rfl⟩, hj⟩
        · refine ⟨t, .inr ⟨?_, hx⟩, ht⟩
          rintro rfl
          rw [ha] at hx
          cases hx
    rw [hfree]
    by_cases hj : j = binIndex s
    · rw [hj, hbinself, List.mem_cons]
      simp
    · rw [hother j hj]
      exact ⟨.inr, fun hx => hx.resolve_left fun h => hj h.2.symm⟩
  · rw [hbit]
    by_cases hji : j = binIndex s
    · simp [hji]
    · rw [hother j hji] at hj
      rw [inv.bit j hj, Bool.true_or]

/-- `link_bin` with the bit of the bin. -/
theorem linkBin (ha : g.chunk a = some ⟨s, .idle⟩) (hlink : Linkable e h g a s) :
    Inv e ((h.linkBin (binIndex s) a).setBinBitMap (binIndex s)) (g.link a s) := by
  rw [inv.linkBin_eq_of ha]
  refine ⟨(inv.link_body ha hlink).of_eq rfl rfl rfl rfl, inv.link_binned ha rfl rfl fun j => ?_⟩
  rw [binBit_setBinBitMap]
  rfl

end Inv

end ISearch.PtMalloc
