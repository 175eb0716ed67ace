import ISearch.PtMalloc.Bins

/-!
# Free

`inter_free` joins the freed chunk with its free neighbours and gives the free area to the top or to
its bin.
-/

namespace ISearch.PtMalloc

open Layout (set_of_ne set_self)
open Heap (mem_setTSize prevInuse)

variable {e : Prop} {h h' : Heap} {g g' g'' : Layout} {a b p x s s' t t' v : Nat} {c d : Chunk}
  {u : Use} {o : Option Chunk}

namespace Inv

variable (inv : Inv e h g) (ha : g.chunk a = some ⟨s, .idle⟩)
include inv ha

/-- A size in the header of an idle chunk. -/
theorem setSizeAt (hv : v < 2 ^ 32) (hmod : v % 8 = 0) : Inv e (h.setSizeAt a v) g := by
  refine inv.write_header (.inr ⟨_, ha⟩) (fun k hk => mem_setTSize hk) (fun c hc hu => ?_)
    (.inl (Heap.setSizeAt_self hv hmod).2)
  rw [ha] at hc
  cases hc
  exact absurd hu id

/-- The size behind an idle chunk. -/
theorem setTPreSize : Inv e (h.setTPreSize (a + s) v) g := by
  have hba := inv.tiled.bounds a _ ha
  dsimp only at hba
  exact inv.write_idle ha fun k hk => Heap.mem_setTPreSize (by omega)

/-- The bit behind an idle chunk set. -/
theorem setInuseBit : Inv e (h.setInuseBit (a + s)) g := by
  have hself := Heap.setInuseBit_self (h := h) (p := a + s)
  refine inv.write_header (inv.tiled.isStart_end ha) (fun k hk => mem_setTSize hk)
    (fun c hc hu => hself.1.trans (inv.size _ c hc hu))
      (.inr (.inl ⟨hself.2, fun he b t hb hba => ?_⟩))
  have hab := inv.tiled.end_inj hb ha hba
  rw [hab, ha] at hb
  cases hb

/-- The bit behind an idle chunk cleared. -/
theorem clearInuseBit (htop : a + s ≠ h.hTop) : Inv e (h.clearInuseBit (a + s)) g := by
  have hself := Heap.clearInuseBit_self (h := h) (p := a + s)
  exact inv.write_header (inv.tiled.isStart_end ha) (fun k hk => mem_setTSize hk)
    (fun c hc hu => hself.1.trans (inv.size _ c hc hu)) (.inr (.inr ⟨htop, a, s, ha, rfl⟩))

/-- The header of the top put where an idle chunk starts. -/
theorem setTSize_one
    (hpre : e → ∀ b t, g.chunk b = some ⟨t, .free⟩ → b + t ≠ a) : Inv e (h.setTSize a 1) g := by
  have hself : (h.setTSize a 1).prevInuse a = true := by
    rw [prevInuse, Heap.tSizeAt_setTSize (by decide)]
    rfl
  refine inv.write_header (.inr ⟨_, ha⟩) (fun k hk => mem_setTSize hk) (fun c hc hu => ?_)
    (.inr (.inl ⟨hself, hpre⟩))
  rw [ha] at hc
  cases hc
  exact absurd hu id

end Inv

/-! ## Joining free chunks -/

/-- The idle chunk `a` of `g` has become the area from `b` on, with its free neighbours; `o` is what
`g'` has there. -/
structure Joined (g g' : Layout) (a s b t : Nat) (o : Option Chunk) : Prop where
  lo : b ≤ a
  hi : a + s ≤ b + t
  self : g'.chunk b = o
  outside : ∀ x, x < b ∨ b + t ≤ x → g'.chunk x = g.chunk x
  inside : ∀ x, b < x → x < b + t → g'.chunk x = none
  free : ∀ x c, g.chunk x = some c → b ≤ x → x < b + t → x ≠ a → c.use = .free
  data : g'.data = g.data

theorem Joined.trans (h₁ : Joined g g' a s b t (some c)) (h₂ : Joined g' g'' b t p t' o) :
    Joined g g'' a s p t' o := by
  have hlo := h₁.lo
  have hhi := h₁.hi
  have hlo' := h₂.lo
  have hhi' := h₂.hi
  refine ⟨by omega, by omega, h₂.self, fun x hx => ?_, h₂.inside, fun x d hd hx hx' hne => ?_,
    h₂.data.trans h₁.data⟩
  · rw [h₂.outside x hx, h₁.outside x (by omega)]
  · by_cases hin : b ≤ x ∧ x < b + t
    · exact h₁.free x d hd hin.1 hin.2 hne
    · rw [← h₁.outside x (by omega)] at hd
      refine h₂.free x d hd hx hx' ?_
      rintro rfl
      omega

theorem Joined.refl (ha : g.chunk a = some ⟨s, .idle⟩) (htiled : Tiled g.chunk h.hBottom h.hTop) :
    Joined g g a s a s (some ⟨s, .idle⟩) := by
  refine ⟨le_refl _, le_refl _, ha, fun _ _ => rfl, fun x hx hx' => ?_,
    fun x c hc hx hx' hne => ?_, rfl⟩
  · cases hc : g.chunk x with
    | none => rfl
    | some c =>
      have hle := htiled.start_le_or_le ha (.inr ⟨c, hc⟩)
      dsimp only at hle
      omega
  · have hle := htiled.start_le_or_le ha (.inr ⟨c, hc⟩)
    dsimp only at hle
    omega

/-- The free chunk `p` and the idle chunk `p + r` become one. -/
theorem Joined.pre {r : Nat} (htiled : Tiled g.chunk h.hBottom h.hTop)
    (hp : g.chunk p = some ⟨r, .free⟩) (ha : g.chunk (p + r) = some ⟨s, .idle⟩) :
    Joined g (((g.unlink p r).set (p + r) none).set p (some ⟨r + s, .idle⟩)) (p + r) s p (r + s)
      (some ⟨r + s, .idle⟩) := by
  have hbp := htiled.bounds p _ hp
  dsimp only at hbp
  have hxp (x : Nat) (c : Chunk) (hc : g.chunk x = some c) : x ≤ p ∨ p + r ≤ x :=
    htiled.start_le_or_le hp (.inr ⟨c, hc⟩)
  have hxa (x : Nat) (c : Chunk) (hc : g.chunk x = some c) : x ≤ p + r ∨ p + r + s ≤ x :=
    htiled.start_le_or_le ha (.inr ⟨c, hc⟩)
  have hbs := htiled.bounds _ _ ha
  dsimp only at hbs
  have hother (x : Nat) (hne : x ≠ p) (hne' : x ≠ p + r) :
      (((g.unlink p r).set (p + r) none).set p (some ⟨r + s, .idle⟩)).chunk x = g.chunk x := by
    rw [set_of_ne hne, set_of_ne hne']
    exact set_of_ne hne
  refine ⟨by omega, by omega, set_self, fun x hx => hother x (by omega) (by omega),
    fun x hx hx' => ?_, fun x c hc hx hx' hne => ?_, rfl⟩
  · by_cases hne : x = p + r
    · rw [hne, set_of_ne (by omega), set_self]
    · rw [hother x (by omega) hne]
      cases hc : g.chunk x with
      | none => rfl
      | some c =>
        have := hxp x c hc
        have := hxa x c hc
        omega
  · have := hxp x c hc
    have := hxa x c hc
    have hxeq : x = p := by omega
    rw [hxeq, hp] at hc
    cases hc
    rfl

/-- The idle chunk `a` and the free chunk `a + s` become one. -/
theorem Joined.next {r : Nat} (htiled : Tiled g.chunk h.hBottom h.hTop)
    (ha : g.chunk a = some ⟨s, .idle⟩) (hn : g.chunk (a + s) = some ⟨r, .free⟩) :
    Joined g (((g.unlink (a + s) r).set (a + s) none).set a (some ⟨s + r, .idle⟩)) a s a (s + r)
      (some ⟨s + r, .idle⟩) := by
  have hba := htiled.bounds a _ ha
  have hbn := htiled.bounds _ _ hn
  dsimp only at hba hbn
  have hxa (x : Nat) (c : Chunk) (hc : g.chunk x = some c) : x ≤ a ∨ a + s ≤ x :=
    htiled.start_le_or_le ha (.inr ⟨c, hc⟩)
  have hxn (x : Nat) (c : Chunk) (hc : g.chunk x = some c) : x ≤ a + s ∨ a + s + r ≤ x :=
    htiled.start_le_or_le hn (.inr ⟨c, hc⟩)
  have hother (x : Nat) (hne : x ≠ a) (hne' : x ≠ a + s) :
      (((g.unlink (a + s) r).set (a + s) none).set a (some ⟨s + r, .idle⟩)).chunk x =
        g.chunk x := by
    rw [set_of_ne hne, set_of_ne hne']
    exact set_of_ne hne'
  refine ⟨le_refl _, by omega, set_self, fun x hx => hother x (by omega) (by omega),
    fun x hx hx' => ?_, fun x c hc hx hx' hne => ?_, rfl⟩
  · by_cases hne : x = a + s
    · rw [hne, set_of_ne (by omega), set_self]
    · rw [hother x (by omega) hne]
      cases hc : g.chunk x with
      | none => rfl
      | some c =>
        have := hxa x c hc
        have := hxn x c hc
        omega
  · have := hxa x c hc
    have := hxn x c hc
    have hxeq : x = a + s := by omega
    rw [hxeq, hn] at hc
    cases hc
    rfl

/-! ## The free area -/

/-- The start and the size of a freed chunk with the chunk before it, where that one is taken in. -/
def Heap.areaPre (h : Heap) (p size : Nat) : Nat × Nat :=
  if !h.prevInuse p ∧ canCombile size (h.tPreSizeAt p) then
    (p - h.tPreSizeAt p, size + h.tPreSizeAt p)
  else (p, size)

/-- The size of a freed chunk with the next chunk, where that one is taken in. -/
def Heap.areaNext (h : Heap) (p size : Nat) : Nat :=
  if p + size ≠ h.hTop ∧ !h.prevInuse (p + size + h.chunkSize (p + size)) ∧
      canCombile size (h.chunkSize (p + size)) then size + h.chunkSize (p + size)
  else size

/-- The idle chunk `a` of `g` has become the idle chunk `b` of `g'`. -/
structure JoinStep (e : Prop) (h : Heap) (g : Layout) (a s : Nat) (h' : Heap) (g' : Layout)
    (b t : Nat) : Prop where
  inv : Inv e h' g'
  joined : Joined g g' a s b t (some ⟨t, .idle⟩)
  rest : h'.rest = h.rest
  top : h'.hTop = h.hTop
  size_le : t ≤ maxAllocSize
  behind : ∀ x, IsStart g.chunk h.hTop x → b + t ≤ x → h'.tSizeAt x = h.tSizeAt x
  pre : h'.prevInuse b = h.prevInuse b
  apart_pre : e → ∀ q r, g'.chunk q = some ⟨r, .free⟩ → q + r = b → maxAllocSize < r + t

theorem JoinStep.isStart_end (step : JoinStep e h g a s h' g' b t) :
    IsStart g.chunk h.hTop (b + t) := by
  rcases step.inv.tiled.isStart_end step.joined.self with htop | ⟨c, hc⟩
  · exact .inl (htop.trans step.top)
  · exact .inr ⟨c, (step.joined.outside _ (.inr (le_refl _))).symm.trans hc⟩

namespace Inv

@[simp] theorem rest_markFree : (h.markFree a s).rest = h.rest := rfl

@[simp] theorem hTop_markFree : (h.markFree a s).hTop = h.hTop := rfl

theorem markFree_sizes (hs : s < 2 ^ 32) (hpos : 0 < s) (hmod : s % 8 = 0) :
    (h.markFree a s).chunkSize a = s ∧ (h.markFree a s).tPreSizeAt (a + s) = s := by
  have hreal : realSize s = s := realSize_eq hmod
  constructor
  · refine Eq.trans ?_ (Heap.setSizeAt_self (h := h) (p := a) hs hmod).1
    refine congrArg realSize (loadLe_congr fun k hk hk' => ?_)
    exact (mem_setTSize (by omega)).trans
      (Heap.mem_setTPreSize (p := a + s) (v := realSize s) (by omega))
  · have hself : ((h.setSizeAt a s).setPresizeAt (a + s) s).tPreSizeAt (a + s) = s := by
      rw [Heap.setPresizeAt, hreal, Heap.tPreSizeAt_setTPreSize hs]
    refine Eq.trans ?_ hself
    exact loadLe_congr fun k hk hk' => mem_setTSize (by omega)

variable (inv : Inv e h g)
include inv

theorem size_le (ha : g.chunk a = some ⟨s, u⟩) (hu : u.Sized) : s ≤ maxAllocSize := by
  have hlt := h.chunkSize_lt a
  have hmod := h.chunkSize_mod a
  rw [inv.size_of ha hu] at hlt hmod
  rw [maxAllocSize]
  omega

/-- A clear bit comes from a free chunk or an idle one. -/
theorem pre_of_clear (ha : IsStart g.chunk h.hTop a) (hclear : h.prevInuse a = false) :
    ∃ p c, g.chunk p = some c ∧ p + c.size = a ∧ ¬ c.use.Owned := by
  have hne : a ≠ h.hBottom := by
    rintro rfl
    rw [inv.pre_bottom] at hclear
    cases hclear
  obtain ⟨p, c, hp, hpa⟩ := inv.tiled.exists_pre ha hne
  refine ⟨p, c, hp, hpa, fun hu => ?_⟩
  rw [← hpa, inv.pre_owned p c hp hu] at hclear
  cases hclear

theorem combinePre_none (ha : g.chunk a = some ⟨s, .idle⟩)
    (hs : s ≤ maxAllocSize) (hnot : ¬ (!h.prevInuse a ∧ canCombile s (h.tPreSizeAt a))) :
    JoinStep e h g a s h g a s := by
  refine ⟨inv, Joined.refl ha inv.tiled, rfl, rfl, hs, fun _ _ _ => rfl, rfl,
    fun he q r hq hqa => ?_⟩
  have hclear := inv.exact he q r hq
  have hsize := inv.pre_size q r hq hclear
  rw [hqa] at hclear hsize
  rw [hclear, hsize, canCombile] at hnot
  simp only [Bool.not_false, true_and, decide_eq_true_eq] at hnot
  omega

theorem combinePre_some {r : Nat} (hp : g.chunk p = some ⟨r, .free⟩)
    (ha : g.chunk (p + r) = some ⟨s, .idle⟩) (hle : s + r ≤ maxAllocSize) :
    JoinStep e h g (p + r) s
      (((h.unlinkClear (binIndex r) p).setSizeAt p (s + r)).setPresizeAt (p + (s + r)) (s + r))
      (((g.unlink p r).set (p + r) none).set p (some ⟨r + s, .idle⟩)) p (r + s) := by
  have hbp := inv.tiled.bounds p _ hp
  have hba := inv.tiled.bounds _ _ ha
  dsimp only at hbp hba
  have hne : p + r ≠ p := by omega
  have hunlink := inv.unlinkClear hp
  have hmerge := hunlink.mergeIdle set_self ((set_of_ne hne).trans ha)
  have hlt : s + r < 2 ^ 32 := by
    rw [maxAllocSize] at hle
    omega
  have hsize := hmerge.setSizeAt (v := s + r) set_self hlt (by omega)
  have hpresize := hsize.setTPreSize (v := realSize (s + r)) set_self
  rw [add_comm r s] at hpresize ⊢
  have hstartp : IsStart g.chunk h.hTop p := .inr ⟨_, hp⟩
  have hjoined := Joined.pre inv.tiled hp ha
  rw [add_comm r s] at hjoined
  refine ⟨hpresize, hjoined, by simp, by simp, hle, fun x hx hbx => ?_, ?_, fun he q t hq hqp => ?_⟩
  · have hsame := (inv.unlinkClear_sizes hp hx).1
    rw [← hsame]
    refine loadLe_congr fun k hk hk' => ?_
    exact (Heap.mem_setTPreSize (by omega)).trans (mem_setTSize (by omega))
  · have hself := (Heap.setSizeAt_self (h := h.unlinkClear (binIndex r) p) (p := p) hlt
      (by omega)).2
    have hsame := (inv.unlinkClear_sizes hp hstartp).1
    rw [prevInuse, prevInuse, hsame] at hself
    rw [prevInuse, prevInuse, ← hself]
    congr 2
    exact loadLe_congr fun k hk hk' => Heap.mem_setTPreSize (by omega)
  · have hlt' := hpresize.tiled.bounds q _ hq
    dsimp only at hlt'
    have hold := hjoined.outside q (by omega)
    rw [hold] at hq
    have := inv.apart he q t r hq (by rw [hqp, hp])
    omega

theorem combinePre (ha : g.chunk a = some ⟨s, .idle⟩) (hs : s ≤ maxAllocSize)
    (hpre : ∀ q c, g.chunk q = some c → q + c.size = a → c.use ≠ .idle) :
    ∃ h' g' b t, h.combinePre a s = (h', b, t) ∧ h.areaPre a s = (b, t) ∧
      JoinStep e h g a s h' g' b t := by
  by_cases hjoin : !h.prevInuse a ∧ canCombile s (h.tPreSizeAt a)
  · have hclear : h.prevInuse a = false := by simpa using hjoin.1
    obtain ⟨p, c, hp, rfl, hu⟩ := inv.pre_of_clear (.inr ⟨_, ha⟩) hclear
    obtain ⟨r, use⟩ := c
    have hfree : use = .free := by
      cases use with
      | used => exact absurd trivial hu
      | free => rfl
      | held => exact absurd trivial hu
      | idle => exact absurd rfl (hpre p _ hp rfl)
    subst hfree
    have hr := inv.pre_size p r hp hclear
    have hle : s + r ≤ maxAllocSize := by
      have := hjoin.2
      rw [hr, canCombile, decide_eq_true_eq] at this
      exact this
    refine ⟨_, _, p, r + s, ?_, ?_, inv.combinePre_some hp ha hle⟩
    · rw [Heap.combinePre, if_pos hjoin, hr, Nat.add_sub_cancel, add_comm r s]
    · rw [Heap.areaPre, if_pos hjoin, hr, Nat.add_sub_cancel, add_comm r s]
  · refine ⟨h, g, a, s, ?_, ?_, inv.combinePre_none ha hs hjoin⟩
    · rw [Heap.combinePre, if_neg hjoin]
    · rw [Heap.areaPre, if_neg hjoin]

theorem combineNext_some {r : Nat} (ha : g.chunk a = some ⟨s, .idle⟩)
    (hn : g.chunk (a + s) = some ⟨r, .free⟩) (hle : s + r ≤ maxAllocSize)
    (hapart : e → ∀ q r, g.chunk q = some ⟨r, .free⟩ → q + r = a → maxAllocSize < r + s) :
    JoinStep e h g a s
      (((h.unlinkClear (binIndex r) (a + s)).setSizeAt a (s + r)).setPresizeAt
        (a + (s + r)) (s + r))
      (((g.unlink (a + s) r).set (a + s) none).set a (some ⟨s + r, .idle⟩)) a (s + r) := by
  have hba := inv.tiled.bounds a _ ha
  have hbn := inv.tiled.bounds _ _ hn
  dsimp only at hba hbn
  have hne : a ≠ a + s := by omega
  have hunlink := inv.unlinkClear hn
  have hmerge := hunlink.mergeIdle ((set_of_ne hne).trans ha) set_self
  have hlt : s + r < 2 ^ 32 := by
    rw [maxAllocSize] at hle
    omega
  have hsize := hmerge.setSizeAt (v := s + r) set_self hlt (by omega)
  have hpresize := hsize.setTPreSize (v := realSize (s + r)) set_self
  have hjoined := Joined.next inv.tiled ha hn
  refine ⟨hpresize, hjoined, by simp, by simp, hle, fun x hx hbx => ?_, ?_, fun he q t hq hqp => ?_⟩
  · have hsame := (inv.unlinkClear_sizes hn hx).1
    rw [← hsame]
    refine loadLe_congr fun k hk hk' => ?_
    exact (Heap.mem_setTPreSize (by omega)).trans (mem_setTSize (by omega))
  · have hself := (Heap.setSizeAt_self (h := h.unlinkClear (binIndex r) (a + s)) (p := a) hlt
      (by omega)).2
    have hsame := (inv.unlinkClear_sizes hn (.inr ⟨_, ha⟩)).1
    rw [prevInuse, prevInuse, hsame] at hself
    rw [prevInuse, prevInuse, ← hself]
    congr 2
    exact loadLe_congr fun k hk hk' => Heap.mem_setTPreSize (by omega)
  · have hlt' := hpresize.tiled.bounds q _ hq
    dsimp only at hlt'
    have hold := hjoined.outside q (by omega)
    rw [hold] at hq
    have := hapart he q t hq hqp
    omega

theorem combineNext (ha : g.chunk a = some ⟨s, .idle⟩) (hs : s ≤ maxAllocSize)
    (hnext : ∀ c, g.chunk (a + s) = some c → c.use = .used ∨ c.use = .free)
    (hapart : e → ∀ q r, g.chunk q = some ⟨r, .free⟩ → q + r = a → maxAllocSize < r + s) :
    ∃ h' g' t, h.combineNext a s = some (h', t) ∧ h.areaNext a s = t ∧
      JoinStep e h g a s h' g' a t ∧
      (e → ∀ r, g'.chunk (a + t) = some ⟨r, .free⟩ → maxAllocSize < t + r) := by
  have hself : JoinStep e h g a s h g a s :=
    ⟨inv, Joined.refl ha inv.tiled, rfl, rfl, hs, fun _ _ _ => rfl, rfl, hapart⟩
  by_cases htop : a + s = h.hTop
  · refine ⟨h, g, s, ?_, ?_, hself, fun _ r hr => ?_⟩
    · rw [Heap.combineNext, if_neg (not_not.mpr htop)]
    · rw [Heap.areaNext, if_neg fun hjoin => hjoin.1 htop]
    · rw [htop, inv.tiled.chunk_top] at hr
      cases hr
  · obtain ⟨⟨r, use⟩, hn⟩ := inv.tiled.next a _ ha htop
    have hn' : g.chunk (a + s) = some ⟨r, use⟩ := hn
    have hbn := inv.tiled.bounds _ _ hn'
    have huse := hnext _ hn'
    have hsized : use.Sized := by
      rcases huse with rfl | rfl <;> exact trivial
    have hsize := inv.size_of hn' hsized
    dsimp only at hbn huse
    have hmin : ¬ h.chunkSize (a + s) < minSize := by
      rw [hsize, minSize]
      omega
    by_cases hjoin : !h.prevInuse (a + s + r) ∧ canCombile s r
    · have hfree : use = .free := by
        refine huse.resolve_left ?_
        rintro rfl
        have hset := inv.pre_owned _ _ hn' trivial
        dsimp only at hset
        rw [hset] at hjoin
        exact absurd hjoin.1 (by decide)
      subst hfree
      have hle : s + r ≤ maxAllocSize := by simpa [canCombile] using hjoin.2
      refine ⟨_, _, s + r, ?_, ?_, inv.combineNext_some ha hn' hle hapart, fun he r' hr' => ?_⟩
      · rw [Heap.combineNext, if_pos htop, if_neg hmin, hsize, if_pos hjoin]
      · rw [Heap.areaNext, hsize, if_pos ⟨htop, hjoin⟩]
      · have hold := (Joined.next inv.tiled ha hn').outside (a + (s + r)) (by omega)
        rw [hold, ← add_assoc] at hr'
        have := inv.apart he _ r r' hn' hr'
        omega
    · refine ⟨h, g, s, ?_, ?_, hself, fun he r' hr' => ?_⟩
      · rw [Heap.combineNext, if_pos htop, if_neg hmin, hsize, if_neg hjoin]
      · rw [Heap.areaNext, hsize, if_neg fun hall => hjoin hall.2]
      · rw [hn'] at hr'
        cases hr'
        have hclear := inv.exact he _ _ hn'
        rw [hclear, canCombile] at hjoin
        simpa using hjoin

theorem markFree (ha : g.chunk a = some ⟨s, .idle⟩) (hs : s ≤ maxAllocSize) :
    Inv e (h.markFree a s) g := by
  have hba := inv.tiled.bounds a _ ha
  have hlt : s < 2 ^ 32 := by
    rw [maxAllocSize] at hs
    omega
  have hsize := inv.setSizeAt (v := s) ha hlt hba.2.2.2.2
  have hmark := (hsize.setTPreSize (v := realSize s) ha).setInuseBit ha
  exact hmark.of_eq rfl rfl rfl rfl rfl rfl

theorem lowerTop (ha : g.chunk a = some ⟨s, .idle⟩) (htop : a + s = h.hTop)
    (hpre : e → ∀ b t, g.chunk b = some ⟨t, .free⟩ → b + t ≠ a) :
    Inv e (h.lowerTop a s) (g.set a none) ∧ (h.lowerTop a s).hTop = a ∧
      (h.lowerTop a s).rest = h.rest := by
  have hself : (h.setTSize a 1).prevInuse a = true := by
    rw [prevInuse, Heap.tSizeAt_setTSize (by decide)]
    rfl
  have hdrop := (inv.setTSize_one ha hpre).dropIdle ha htop hself
  have hsub : h.hTop - s = a := by omega
  dsimp only [Heap.lowerTop]
  split_ifs
  · exact ⟨hdrop.of_eq rfl rfl hsub rfl rfl rfl, hsub, rfl⟩
  · exact ⟨hdrop.of_eq rfl rfl hsub rfl rfl rfl, hsub, rfl⟩

/-- The area at the end of the chunks goes to the top. -/
theorem placeFree_top (ha : g.chunk a = some ⟨s, .idle⟩) (hs : s ≤ maxAllocSize)
    (htop : a + s = h.hTop) (hexact : e → h.prevInuse a = true) :
    Inv e (h.placeFree a s) (g.set a none) ∧ (h.placeFree a s).hTop = a ∧
      (h.placeFree a s).rest = h.rest := by
  have htop' : a + s = (h.markFree a s).hTop := by simpa using htop
  have hlower := (inv.markFree ha hs).lowerTop ha htop' fun he b t hb hba => by
    have hclear := inv.exact he b t hb
    rw [hba, hexact he] at hclear
    cases hclear
  rw [Heap.placeFree, if_pos htop']
  exact hlower

/-- An area before another chunk goes into its bin. -/
theorem placeFree_bin (ha : g.chunk a = some ⟨s, .idle⟩) (hs : s ≤ maxAllocSize)
    (htop : a + s ≠ h.hTop)
    (hpre : e → ∀ q r, g.chunk q = some ⟨r, .free⟩ → q + r = a → maxAllocSize < r + s)
    (hnext : e → ∀ r, g.chunk (a + s) = some ⟨r, .free⟩ → maxAllocSize < s + r) :
    Inv e (h.placeFree a s) (g.link a s) ∧ (h.placeFree a s).hTop = h.hTop ∧
      (h.placeFree a s).rest = h.rest := by
  have hba := inv.tiled.bounds a _ ha
  dsimp only at hba
  have hlt : s < 2 ^ 32 := by
    rw [maxAllocSize] at hs
    omega
  have hclear := (inv.markFree ha hs).clearInuseBit ha htop
  have hsizes := markFree_sizes (h := h) (a := a) hlt (by omega) hba.2.2.2.2
  have hflag := (Heap.clearInuseBit_self (h := h.markFree a s) (p := a + s)).2
  have hsize : ((h.markFree a s).clearInuseBit (a + s)).chunkSize a = s := by
    refine Eq.trans ?_ hsizes.1
    exact congrArg realSize (loadLe_congr fun k hk hk' => mem_setTSize (by omega))
  have hpresize : ((h.markFree a s).clearInuseBit (a + s)).tPreSizeAt (a + s) = s := by
    refine Eq.trans ?_ hsizes.2
    exact loadLe_congr fun k hk hk' => mem_setTSize (by omega)
  have hlink := hclear.linkBin ha ⟨hsize, fun _ => hpresize, fun _ => hflag, hpre, hnext⟩
  have htop' : a + s ≠ (h.markFree a s).hTop := by simpa using htop
  rw [Heap.placeFree, if_neg htop']
  exact ⟨hlink, by simp, by simp⟩

/-! ## The whole of `inter_free` -/

end Inv

/-- A block that becomes idle before it is joined. -/
theorem Joined.of_setIdle (h : Joined (g.set a (some ⟨s, .idle⟩)) g' a s b t o) (hs : 0 < s) :
    Joined g g' a s b t o := by
  have hlo := h.lo
  have hhi := h.hi
  refine ⟨hlo, hhi, h.self, fun x hx => ?_, h.inside, fun x c hc hx hx' hne => ?_, h.data⟩
  · rw [h.outside x hx, set_of_ne (by omega)]
  · exact h.free x c ((set_of_ne hne).trans hc) hx hx' hne

/-- The area as the last step leaves it. -/
theorem Joined.place (h : Joined g g' a s b t (some c)) (hself : g''.chunk b = o)
    (hother : ∀ x, x ≠ b → g''.chunk x = g'.chunk x) (hdata : g''.data = g'.data) (hs : 0 < s) :
    Joined g g'' a s b t o := by
  have hlo := h.lo
  have hhi := h.hi
  refine ⟨hlo, hhi, hself, fun x hx => ?_, fun x hx hx' => ?_, h.free, hdata.trans h.data⟩
  · rw [hother x (by omega), h.outside x hx]
  · rw [hother x (by omega), h.inside x hx hx']

/-- Where the area of the block lies after `Free`, and its size. -/
def Heap.freeArea (h : Heap) (p size : Nat) : Nat × Nat :=
  ((h.areaPre p size).1, h.areaNext (h.areaPre p size).1 (h.areaPre p size).2)

theorem Heap.freeArea_of_prevInuse (hpre : h.prevInuse p = true) :
    h.freeArea p s = (p, h.areaNext p s) := by
  have harea : h.areaPre p s = (p, s) := by
    rw [areaPre, hpre, if_neg fun hjoin => Bool.noConfusion hjoin.1]
  rw [freeArea, harea]

/-- `g'` is `g` with the block `a` in the free area of `t` bytes from `b` on. -/
inductive Released (h : Heap) (g : Layout) (a s b t : Nat) (h' : Heap) (g' : Layout) : Prop where
  | bin (hne : b + t ≠ h.hTop) (htop : h'.hTop = h.hTop)
      (hjoined : Joined g g' a s b t (some ⟨t, .free⟩))
  | top (heq : b + t = h.hTop) (htop : h'.hTop = b) (hjoined : Joined g g' a s b t none)

namespace Inv

variable (inv : Inv e h g)
include inv

theorem checkInuseChunk (ha : g.chunk a = some ⟨s, .used⟩)
    (hidle : ∀ x c, g.chunk x = some c → c.use ≠ .idle)
    (hheld : ∀ x c, g.chunk x = some c → a < x → c.use ≠ .held) : h.checkInuseChunk a = 0 := by
  have hsize := inv.size_of ha trivial
  have hba := inv.tiled.bounds a _ ha
  have hend := inv.pre_owned a _ ha trivial
  have htop := inv.top_le
  dsimp only at hba hend
  have hpre : ¬ (!h.prevInuse a ∧ (h.ptrToHandle (a - h.tPreSizeAt a) < h.hBottom ∨
      h.chunkSize (a - h.tPreSizeAt a) ≠ h.tPreSizeAt a)) := by
    rintro ⟨hclear, hbad⟩
    have hclear : h.prevInuse a = false := by simpa using hclear
    obtain ⟨p, ⟨r, use⟩, hp, rfl, hu⟩ := inv.pre_of_clear (.inr ⟨_, ha⟩) hclear
    have hfree : use = .free := by
      cases use with
      | used => exact absurd trivial hu
      | free => rfl
      | held => exact absurd trivial hu
      | idle => exact absurd rfl (hidle p _ hp)
    subst hfree
    have hbp := inv.tiled.bounds p _ hp
    dsimp only at hbp hclear hbad
    rw [inv.pre_size p r hp hclear, Nat.add_sub_cancel, inv.size_of hp trivial, Heap.ptrToHandle,
      if_neg (by omega)] at hbad
    omega
  have hnext : ¬ (a + s ≠ h.hTop ∧ h.chunkSize (a + s) < minSize) := by
    rintro ⟨hne, hlt⟩
    obtain ⟨⟨r, use⟩, hn⟩ := inv.tiled.next a _ ha hne
    have hbn := inv.tiled.bounds _ _ hn
    have hsized : use.Sized := by
      cases use with
      | used => exact trivial
      | free => exact trivial
      | held => exact absurd rfl (hheld _ _ hn (by dsimp only; omega))
      | idle => exact absurd rfl (hidle _ _ hn)
    dsimp only at hn hbn
    rw [inv.size_of hn hsized, minSize] at hlt
    omega
  have hset : (!h.prevInuse (a + s)) = false := by rw [hend, Bool.not_true]
  rw [Heap.checkInuseChunk, hsize, hset, if_neg (by decide), if_neg hpre, if_neg hnext]

/-- The join of an idle chunk with both neighbours. -/
theorem combine (ha : g.chunk a = some ⟨s, .idle⟩) (hs : s ≤ maxAllocSize)
    (hidle : ∀ x c, g.chunk x = some c → x ≠ a → c.use ≠ .idle)
    (hheld : ∀ x c, g.chunk x = some c → a < x → c.use ≠ .held) :
    ∃ h₁ h₂ g₂ b t t', h.combinePre a s = (h₁, b, t) ∧ h₁.combineNext b t = some (h₂, t') ∧
      h.freeArea a s = (b, t') ∧ JoinStep e h g a s h₂ g₂ b t' ∧
      (e → ∀ r, g₂.chunk (b + t') = some ⟨r, .free⟩ → maxAllocSize < t' + r) := by
  have hba := inv.tiled.bounds a _ ha
  dsimp only at hba
  obtain ⟨h₁, g₁, b, t, hpre, harea, step₁⟩ := inv.combinePre ha hs fun q c hq hqa =>
    hidle q c hq (by
      have hbq := inv.tiled.bounds q c hq
      omega)
  have hlo := step₁.joined.lo
  have hhi := step₁.joined.hi
  have hend := step₁.isStart_end
  obtain ⟨h₂, g₂, t', hnext, harea', step₂, hapart⟩ :=
    step₁.inv.combineNext step₁.joined.self step₁.size_le (fun c hc => by
      rw [step₁.joined.outside _ (.inr (le_refl _))] at hc
      have hidle' := hidle _ c hc (by omega)
      have hheld' := hheld _ c hc (by omega)
      cases huse : c.use with
      | used => exact .inl rfl
      | free => exact .inr rfl
      | held => exact absurd huse hheld'
      | idle => exact absurd huse hidle') step₁.apart_pre
  have hjoined := step₁.joined.trans step₂.joined
  refine ⟨h₁, h₂, g₂, b, t, t', hpre, hnext, ?_, ⟨step₂.inv, hjoined, step₂.rest.trans step₁.rest,
    step₂.top.trans step₁.top, step₂.size_le, fun x hx hle => ?_, step₂.pre.trans step₁.pre,
    step₂.apart_pre⟩, hapart⟩
  · -- the reads behind the area are those of the first heap
    have hsize : h₁.chunkSize (b + t) = h.chunkSize (b + t) :=
      congrArg realSize (step₁.behind _ hend (le_refl _))
    have hflag (hne : b + t ≠ h.hTop) : h₁.prevInuse (b + t + h.chunkSize (b + t)) =
        h.prevInuse (b + t + h.chunkSize (b + t)) := by
      obtain ⟨c, hc⟩ := hend.resolve_left hne
      have hu : c.use.Sized := by
        have hidle' := hidle _ c hc (by omega)
        have hheld' := hheld _ c hc (by omega)
        cases huse : c.use with
        | used => exact trivial
        | free => exact trivial
        | held => exact absurd huse hheld'
        | idle => exact absurd huse hidle'
      have hstart := inv.tiled.isStart_end hc
      rw [← inv.size _ c hc hu] at hstart
      rw [prevInuse, step₁.behind _ hstart (Nat.le_add_right _ _), prevInuse]
    rw [Heap.freeArea, harea, ← harea', Heap.areaNext, Heap.areaNext, step₁.top, hsize]
    by_cases hne : b + t = h.hTop
    · rw [if_neg fun hjoin => hjoin.1 hne, if_neg fun hjoin => hjoin.1 hne]
    · rw [hflag hne]
  · have hge := step₂.joined.hi
    have hx' : IsStart g₁.chunk h₁.hTop x := by
      rw [IsStart, step₁.joined.outside x (.inr (by omega)), step₁.top]
      exact hx
    rw [step₂.behind x hx' hle, step₁.behind x hx (by omega)]

/-- `inter_free` of a block. -/
theorem interFree (ha : g.chunk a = some ⟨s, .used⟩)
    (hidle : ∀ x c, g.chunk x = some c → c.use ≠ .idle)
    (hheld : ∀ x c, g.chunk x = some c → a < x → c.use ≠ .held)
    (hexact : e → (h.freeArea a s).1 + (h.freeArea a s).2 = h.hTop →
      h.prevInuse (h.freeArea a s).1 = true) :
    ∃ h' g', h.interFree (a + 8) = (h', 0, s) ∧ Inv e h' g' ∧ h'.rest = h.rest ∧
      Released h g a s (h.freeArea a s).1 (h.freeArea a s).2 h' g' := by
  have hba := inv.tiled.bounds a _ ha
  have htop := inv.top_le
  have hcheck := inv.checkInuseChunk ha hidle hheld
  have hend := inv.pre_owned a _ ha trivial
  have hs := inv.size_le ha trivial
  dsimp only at hba hend
  obtain ⟨h₁, h₂, g₂, b, t, t', hpre, hnext, harea, step, hapart⟩ :=
    (inv.setIdle ha (by simp)).combine set_self hs
      (fun x c hc hne => hidle x c ((set_of_ne hne).symm.trans hc))
      fun x c hc hlt => hheld x c ((set_of_ne (by omega)).symm.trans hc) hlt
  have hjoined := step.joined.of_setIdle (by omega)
  rw [harea] at hexact ⊢
  have heq : h.interFree (a + 8) = (h₂.placeFree b t', 0, s) := by
    have hset : (!h.prevInuse (a + s)) = false := by rw [hend, Bool.not_true]
    have hmin : minSize = 24 := rfl
    have hptr : h.ptrToHandle a = a := if_neg (by omega)
    rw [Heap.interFree, if_neg (by omega), if_neg (by omega)]
    simp only [mem2chunk, Nat.add_sub_cancel, inv.size_of ha trivial, hptr]
    rw [if_neg (by omega), hset, if_neg (by decide), if_neg (by omega), if_neg (by omega)]
    simp only [hpre, hnext]
  by_cases hplace : b + t' = h.hTop
  · obtain ⟨hinv, htop', hrest⟩ := step.inv.placeFree_top step.joined.self step.size_le
      (hplace.trans step.top.symm) fun he => step.pre.trans (hexact he hplace)
    exact ⟨_, _, heq, hinv, hrest.trans step.rest, .top hplace htop'
      (hjoined.place set_self (fun x hx => set_of_ne hx) rfl (by omega))⟩
  · obtain ⟨hinv, htop', hrest⟩ := step.inv.placeFree_bin step.joined.self step.size_le
      (by rwa [step.top]) step.apart_pre hapart
    exact ⟨_, _, heq, hinv, hrest.trans step.rest, .bin hplace (htop'.trans step.top)
      (hjoined.place set_self (fun x hx => set_of_ne hx) rfl (by omega))⟩

end Inv

namespace Released

variable {h₀ : Heap}

variable (hfree : Released h₀ g a s b t h' g')
include hfree

theorem joined : ∃ o, Joined g g' a s b t o ∧ ∀ c, o = some c → c.use = .free := by
  cases hfree with
  | bin _ _ hjoined =>
    refine ⟨_, hjoined, fun c hc => ?_⟩
    cases hc
    rfl
  | top _ _ hjoined =>
    refine ⟨_, hjoined, fun c hc => ?_⟩
    cases hc

theorem data : g'.data = g.data := by
  obtain ⟨o, hjoined, -⟩ := hfree.joined
  exact hjoined.data

/-- The other blocks stay. -/
theorem kept (hx : g.chunk x = some c) (hne : x ≠ a)
    (hu : c.use ≠ .free) : g'.chunk x = some c := by
  obtain ⟨o, hjoined, -⟩ := hfree.joined
  rw [hjoined.outside x ?_, hx]
  by_contra hin
  exact hu (hjoined.free x c hx (by omega) (by omega) hne)

/-- No block is new. -/
theorem of_kept (hs : 0 < s) (hx : g'.chunk x = some c)
    (hu : c.use ≠ .free) : x ≠ a ∧ g.chunk x = some c := by
  obtain ⟨o, hjoined, ho⟩ := hfree.joined
  have hlo := hjoined.lo
  have hhi := hjoined.hi
  have hout : x < b ∨ b + t ≤ x := by
    by_contra hin
    rcases Nat.eq_or_lt_of_le (show b ≤ x by omega) with rfl | hlt
    · rw [hjoined.self] at hx
      exact hu (ho c hx)
    · rw [hjoined.inside x hlt (by omega)] at hx
      cases hx
  rw [hjoined.outside x hout] at hx
  exact ⟨by omega, hx⟩

end Released

/-- The heap between two operations: each chunk is a block of the user or free. -/
structure Sound (e : Prop) (h : Heap) (g : Layout) : Prop extends Inv e h g where
  settled : ∀ x c, g.chunk x = some c → c.use = .used ∨ c.use = .free

namespace Sound

variable (sound : Sound e h g)
include sound

theorem ne_idle (hx : g.chunk x = some c) : c.use ≠ .idle := by
  rcases sound.settled x c hx with hu | hu <;> rw [hu] <;> simp

theorem ne_held (hx : g.chunk x = some c) : c.use ≠ .held := by
  rcases sound.settled x c hx with hu | hu <;> rw [hu] <;> simp

/-- The invariant without the exact bits. -/
theorem weaken : Sound False h g := by
  refine ⟨⟨⟨sound.tiled, sound.bottom_pos, sound.top_le, sound.size_lt, sound.size,
    sound.pre_bottom,
    sound.pre_top, sound.pre_owned, sound.pre_size, sound.data, ?_, ?_⟩, sound.toBinned⟩,
    sound.settled⟩
  · exact fun he => he.elim
  · exact fun he => he.elim

theorem of_eq (hmem : h'.mem = h.mem) (hbottom : h'.hBottom = h.hBottom)
    (htop : h'.hTop = h.hTop) (hsize : h'.tSize = h.tSize) (hbin : h'.ptBin = h.ptBin)
    (hbit : h'.auiBinBitMap = h.auiBinBitMap) : Sound e h' g :=
  ⟨sound.toInv.of_eq hmem hbottom htop hsize hbin hbit, sound.settled⟩

/-- `inter_free` of a live block. -/
theorem interFree (ha : g.chunk a = some ⟨s, .used⟩)
    (hexact : e → (h.freeArea a s).1 + (h.freeArea a s).2 = h.hTop →
      h.prevInuse (h.freeArea a s).1 = true) :
    ∃ h' g', h.interFree (a + 8) = (h', 0, s) ∧ Sound e h' g' ∧ h'.rest = h.rest ∧
      Released h g a s (h.freeArea a s).1 (h.freeArea a s).2 h' g' := by
  obtain ⟨h', g', heq, inv, hrest, hfree⟩ := sound.toInv.interFree ha
    (fun x c hx => sound.ne_idle hx) (fun x c hx _ => sound.ne_held hx) hexact
  have hba := sound.tiled.bounds a _ ha
  refine ⟨h', g', heq, ⟨inv, fun x c hx => ?_⟩, hrest, hfree⟩
  by_cases hu : c.use = .free
  · exact .inr hu
  · exact sound.settled x c (hfree.of_kept (by dsimp only at hba; omega) hx hu).2

/-- `Free` of a live block. -/
theorem free (ha : g.chunk a = some ⟨s, .used⟩)
    (hexact : e → (h.freeArea a s).1 + (h.freeArea a s).2 = h.hTop →
      h.prevInuse (h.freeArea a s).1 = true) :
    ∃ h' g', h.free (a + 8) = (h', 0) ∧ Sound e h' g' ∧
      Released h g a s (h.freeArea a s).1 (h.freeArea a s).2 h' g' ∧
      h'.rest = (h.tSize, h.tUserAllocSize - UInt64.ofNat s, h.tUserAllocChunkCnt - 1, h.hBottom,
        h.statChunkTotal - 1, ((h.tUserAllocSize - UInt64.ofNat s).toNat : Int),
          h.minChunkSize) := by
  obtain ⟨h', g', heq, hsound, hrest, hfree⟩ := sound.interFree ha hexact
  simp only [Heap.rest, Prod.mk.injEq] at hrest
  obtain ⟨hsize, huser, hcnt, hbottom, htotal, -, hmin⟩ := hrest
  rw [Heap.free, heq]
  simp only [if_true]
  refine ⟨_, g', rfl, hsound.of_eq rfl rfl rfl rfl rfl rfl, ?_, ?_⟩
  · cases hfree with
    | bin hne htop hjoined => exact .bin hne htop hjoined
    | top heq htop hjoined => exact .top heq htop hjoined
  · simp only [Heap.rest, hsize, huser, hcnt, hbottom, htotal, hmin]

end Sound

/-- The layout of a new arena. -/
def emptyLayout (mem : Mem) : Layout := ⟨fun _ => none, fun _ => [], mem⟩

theorem init_sound {mem : Mem} {tSize minChunkSize : Nat}
    (hinit : init mem tSize minChunkSize = some h) (hlt : tSize < 2 ^ 64) :
    Sound e h (emptyLayout mem) := by
  rw [init] at hinit
  split at hinit
  next => cases hinit
  next hle =>
    cases hinit
    have hpre : loadLe (storeLe (storeLe mem 8208 4 0) (8208 + 4) 4 1) (8208 + 4) 4 % 2 = 1 := by
      rw [loadLe_storeLe (by decide)]
    have hbit := beq_iff_eq.mpr hpre
    have hmod : (1024 + 16 * (128 + 64 + 1) + 4096) % 8 = 0 := rfl
    refine ⟨⟨⟨⟨le_refl _, hmod, hmod, fun hne => absurd rfl hne, ?_, ?_, ?_⟩,
      Nat.succ_pos _, Nat.le_of_not_lt hle, hlt, ?_, hbit, hbit, ?_, ?_, ?_, ?_, ?_⟩,
      ⟨fun _ => ⟨rfl, rfl⟩, fun _ => List.nodup_nil, fun i a => ?_, fun i hi => absurd rfl hi⟩⟩, ?_⟩
    all_goals simp [emptyLayout]

end ISearch.PtMalloc
