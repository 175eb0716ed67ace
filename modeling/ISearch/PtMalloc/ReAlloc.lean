import ISearch.PtMalloc.Malloc

/-!
# ReAlloc

`inter_re_alloc` cuts a block, grows it into the top or into a free neighbour, or copies it. While
it does, the block has no header.
-/

namespace ISearch.PtMalloc

open Function
open Heap (mem_setTSize prevInuse)
open Layout (set_self set_of_ne)

variable {e : Prop} {h h' : Heap} {g g' : Layout} {m' : Mem} {a b p r s t v i n : Nat} {c : Chunk}
  {use : Use}

namespace Inv

/-- The last chunk, idle, grows into the top. -/
theorem extendIdle (inv : Inv e h g) (ha : g.chunk a = some ⟨s, .idle⟩) (htop : a + s = h.hTop)
    (hle : s ≤ t) (hmod : t % 8 = 0) (hfit : a + t + minSize ≤ h.tSize)
    (hpre : h.prevInuse (a + t) = true) :
    Inv e { h with hTop := a + t } (g.set a (some ⟨t, .idle⟩)) := by
  refine ⟨inv.toBody.relayout (inv.tiled.extend ha htop hle hmod) hfit hpre fun x c hx => ?_, ?_⟩
  · rcases update_eq_some_iff.mp hx with ⟨-, hc⟩ | ⟨-, hx⟩
    · cases hc
      exact .inr rfl
    · exact .inl hx
  · have hbinned : Binned h (g.set a (some ⟨t, .idle⟩)) := by
      refine inv.toBinned.relayout fun x r => ?_
      rw [update_eq_some_iff]
      constructor
      · rintro (⟨-, hc⟩ | ⟨-, hx⟩)
        · cases hc
        · exact hx
      · intro hx
        refine .inr ⟨?_, hx⟩
        rintro rfl
        rw [ha] at hx
        cases hx
    exact ⟨hbinned.bins, hbinned.nodup, hbinned.mem_bin, hbinned.bit⟩

end Inv

/-! ## The header of an idle chunk -/

/-- The first 8 bytes of an idle chunk in the memory `m'` agree with the chunk before. -/
structure HeadOk (e : Prop) (h : Heap) (g : Layout) (m' : Mem) (b : Nat) : Prop where
  bottom : b = h.hBottom → { h with mem := m' }.prevInuse b = true
  owned : ∀ p c, g.chunk p = some c → p + c.size = b → c.use.Owned →
    { h with mem := m' }.prevInuse b = true ∧ ∀ k, b ≤ k → k < b + 4 → m' k = h.mem k
  exact : e → ∀ p r, g.chunk p = some ⟨r, .free⟩ → p + r = b →
    { h with mem := m' }.prevInuse b = false
  size : ∀ p r, g.chunk p = some ⟨r, .free⟩ → p + r = b →
    { h with mem := m' }.prevInuse b = false → { h with mem := m' }.tPreSizeAt b = r

/-- The header of an idle chunk written anew. -/
theorem Inv.write_head (inv : Inv e h g) (hb : g.chunk b = some ⟨s, .idle⟩)
    (hm : ∀ k, k < b ∨ b + 8 ≤ k → m' k = h.mem k) (hok : HeadOk e h g m' b) :
    Inv e { h with mem := m' } g := by
  have hbb := inv.tiled.bounds b _ hb
  dsimp only at hbb
  -- the headers that are not written
  have hhead (y : Nat) (hy : IsStart g.chunk h.hTop y) (hne : y ≠ b) :
      ∀ k, y ≤ k → k < y + 8 → m' k = h.mem k := by
    intro k hk hk'
    have hmody := inv.tiled.isStart_mod hy
    exact hm k (by omega)
  have hpre (y : Nat) (hy : IsStart g.chunk h.hTop y) (hne : y ≠ b) :
      { h with mem := m' }.prevInuse y = h.prevInuse y :=
    Heap.prevInuse_congr fun k hk hk' => hhead y hy hne k (by omega) hk'
  have htop : h.hTop ≠ b := (inv.tiled.top_ne hb).symm
  have hother (x : Nat) (c : Chunk) (hx : g.chunk x = some c) (hne : c.use ≠ .idle) : x ≠ b := by
    rintro rfl
    rw [hb] at hx
    cases hx
    exact hne rfl
  have howned (c : Chunk) (hu : c.use.Owned) : c.use ≠ .idle := by
    rintro hidle
    rw [hidle] at hu
    exact hu
  have hsized (c : Chunk) (hu : c.use.Sized) : c.use ≠ .idle := by
    rintro hidle
    rw [hidle] at hu
    exact hu
  refine ⟨⟨inv.tiled, inv.bottom_pos, inv.top_le, inv.size_lt, fun x c hx hu => ?_, ?_, ?_,
    fun x c hx hu => ?_, fun x t hx hflag => ?_, fun x c hx hu k hk hk' => ?_,
    fun he x t hx => ?_, inv.apart⟩, inv.toBinned.frame fun i x hx k hk hk' => ?_⟩
  · have hne := hother x c hx (hsized c hu)
    rw [Heap.chunkSize_congr fun k hk hk' => hhead x (.inr ⟨c, hx⟩) hne k (by omega) hk']
    exact inv.size x c hx hu
  · by_cases hne : h.hBottom = b
    · exact hne ▸ hok.bottom hne.symm
    · exact (hpre _ inv.isStart_bottom hne).trans inv.pre_bottom
  · exact (hpre _ (.inl rfl) htop).trans inv.pre_top
  · by_cases hne : x + c.size = b
    · rw [hne]
      exact (hok.owned x c hx hne hu).1
    · exact (hpre _ (inv.tiled.isStart_end hx) hne).trans (inv.pre_owned x c hx hu)
  · by_cases hne : x + t = b
    · rw [hne] at hflag ⊢
      exact hok.size x t hx hne hflag
    · have hstart := inv.tiled.isStart_end hx
      rw [hpre _ hstart hne] at hflag
      rw [Heap.tPreSizeAt_congr fun k hk hk' => hhead _ hstart hne k hk (by omega)]
      exact inv.pre_size x t hx hflag
  · have hne := hother x c hx (howned c hu)
    have hstart := inv.tiled.isStart_end hx
    have hold := inv.data x c hx hu k hk hk'
    by_cases hend : x + c.size = b
    · by_cases hin : b ≤ k
      · exact ((hok.owned x c hx hend hu).2 k hin (by omega)).trans hold
      · exact (hm k (by omega)).trans hold
    · have hle := inv.tiled.start_le_or_le hx (.inr ⟨_, hb⟩)
      have hge := inv.tiled.start_le_or_le hb hstart
      have hmodx := inv.tiled.isStart_mod hstart
      dsimp only at hge
      exact (hm k (by omega)).trans hold
  · by_cases hne : x + t = b
    · rw [hne]
      exact hok.exact he x t hx hne
    · exact (hpre _ (inv.tiled.isStart_end hx) hne).trans (inv.exact he x t hx)
  · obtain ⟨t, ht, -⟩ := (inv.mem_bin i x).mp hx
    have hne := hother x _ ht (by simp)
    have hbx := inv.tiled.bounds x _ ht
    have hle := inv.tiled.start_le_or_le ht (.inr ⟨_, hb⟩)
    dsimp only at hbx hle
    exact hm k (by omega)

/-- The header of a block as the end of `inter_re_alloc` writes it. -/
def Heap.writeHead (h : Heap) (b size tPreSize : Nat) (iPreInUse : Bool) : Heap :=
  let h := h.setTSize b size
  let h := if iPreInUse then h.setInuseBit b else h
  h.setTPreSize b tPreSize

namespace Heap

variable {tPreSize : Nat} {iPreInUse : Bool}

theorem mem_writeHead {k : Nat} (hk : k < b ∨ b + 8 ≤ k) :
    (h.writeHead b s tPreSize iPreInUse).mem k = h.mem k := by
  rw [writeHead]
  refine (mem_setTPreSize (by omega)).trans ?_
  split
  · exact (mem_setTSize (by omega)).trans (mem_setTSize (by omega))
  · exact mem_setTSize (by omega)

theorem rest_writeHead : (h.writeHead b s tPreSize iPreInUse).rest = h.rest := by
  rw [writeHead]
  split <;> rfl

theorem writeHead_eq : h.writeHead b s tPreSize iPreInUse =
    { h with mem := (h.writeHead b s tPreSize iPreInUse).mem } := by
  rw [writeHead]
  split <;> rfl

theorem tPreSizeAt_writeHead (hlt : tPreSize < 2 ^ 32) :
    (h.writeHead b s tPreSize iPreInUse).tPreSizeAt b = tPreSize := tPreSizeAt_setTPreSize hlt

theorem writeHead_sizes (hlt : s < 2 ^ 32) (hmod : s % 8 = 0) :
    (h.writeHead b s tPreSize iPreInUse).chunkSize b = s ∧
      (h.writeHead b s tPreSize iPreInUse).prevInuse b = iPreInUse := by
  have hsize : (h.setTSize b s).tSizeAt b = s := tSizeAt_setTSize hlt
  have hlast (h₁ : Heap) : (h₁.setTPreSize b tPreSize).tSizeAt b = h₁.tSizeAt b :=
    loadLe_congr fun k hk hk' => mem_setTPreSize (by omega)
  rw [writeHead, chunkSize, prevInuse, hlast]
  cases iPreInUse with
  | true =>
    have hset := setInuseBit_self (h := h.setTSize b s) (p := b)
    rw [chunkSize, prevInuse, chunkSize, hsize, realSize_eq hmod] at hset
    exact hset
  | false =>
    rw [if_neg Bool.false_ne_true, hsize, realSize_eq hmod, beq_eq_false_iff_ne]
    exact ⟨rfl, by omega⟩

end Heap

/-- The header goes back to what it said of the chunk before. -/
theorem Inv.writeHead {h₀ : Heap} {g₀ : Layout} (inv₀ : Inv e h₀ g₀) (inv : Inv e h g)
    (hb : g.chunk b = some ⟨s, .idle⟩) (ht : t < 2 ^ 32) (hmod : t % 8 = 0)
    (hbottom : h.hBottom = h₀.hBottom)
    (hpre : ∀ p c, g.chunk p = some c → p + c.size = b → g₀.chunk p = some c)
    (hbytes : ∀ p c, g.chunk p = some c → p + c.size = b → c.use.Owned →
      ∀ k, b ≤ k → k < b + 4 → h.mem k = h₀.mem k) :
    Inv e (h.writeHead b t (h₀.tPreSizeAt b) (h₀.prevInuse b)) g := by
  have hflag : (h.writeHead b t (h₀.tPreSizeAt b) (h₀.prevInuse b)).prevInuse b = h₀.prevInuse b :=
    (Heap.writeHead_sizes ht hmod).2
  have hsize : (h.writeHead b t (h₀.tPreSizeAt b) (h₀.prevInuse b)).tPreSizeAt b =
    h₀.tPreSizeAt b := Heap.tPreSizeAt_writeHead (h₀.tPreSizeAt_lt b)
  have hload (k : Nat) (hk : b ≤ k) (hk' : k < b + 4) :
      (h.writeHead b t (h₀.tPreSizeAt b) (h₀.prevInuse b)).mem k = h₀.mem k :=
    storeLe_loadLe_apply hk hk'
  have hframe (k : Nat) (hk : k < b ∨ b + 8 ≤ k) :
      (h.writeHead b t (h₀.tPreSizeAt b) (h₀.prevInuse b)).mem k = h.mem k := Heap.mem_writeHead hk
  rw [Heap.writeHead_eq] at hflag hsize ⊢
  refine inv.write_head hb hframe ⟨fun hbot => ?_, fun p c hp hpb hu => ⟨?_, fun k hk hk' => ?_⟩,
    fun he p r hp hpb => ?_, fun p r hp hpb hclear => ?_⟩
  · rw [hflag, hbot, hbottom]
    exact inv₀.pre_bottom
  · rw [hflag, ← hpb]
    exact inv₀.pre_owned p c (hpre p c hp hpb) hu
  · rw [hbytes p c hp hpb hu k hk hk']
    exact hload k hk hk'
  · rw [hflag, ← hpb]
    exact inv₀.exact he p r (hpre p _ hp hpb)
  · rw [hflag, ← hpb] at hclear
    rw [hsize, ← hpb]
    exact inv₀.pre_size p r (hpre p _ hp hpb) hclear

/-! ## The cut -/

/-- The idle chunk `b` of `g` has become a block of `r` bytes, at least `t`, with the bytes that
were in memory. -/
structure Cut (e : Prop) (h : Heap) (g : Layout) (b t : Nat) (h' : Heap) (g' : Layout) (r : Nat) :
    Prop where
  sound : Sound e h' g'
  rest : h'.rest = h.rest
  le : t ≤ r
  live : g'.live = update g.live b (some r)
  others : SameBytes g g'
  bytes : ∀ k, b + 8 ≤ k → k < b + t + 4 → g'.data k = h.mem k

/-- The chunks but `b` are blocks or free. -/
def SettledBut (g : Layout) (b : Nat) : Prop :=
  ∀ x c, g.chunk x = some c → x ≠ b → c.use = .used ∨ c.use = .free

namespace Inv

/-- The whole chunk as the block. -/
theorem cutWhole (inv : Inv e h g) (hb : g.chunk b = some ⟨s, .idle⟩) (hrest : SettledBut g b)
    (hle : t ≤ s) (hlt : s < 2 ^ 32) :
    ∃ g', Cut e h g b t ((h.setInuseBit (b + s)).writeHead b s (h.tPreSizeAt b) (h.prevInuse b)) g'
      s := by
  have hbb := inv.tiled.bounds b _ hb
  dsimp only at hbb
  have inv₁ := inv.setInuseBit hb
  have inv₂ := inv.writeHead inv₁ hb hlt hbb.2.2.2.2 rfl (fun p c hp _ => hp)
    fun p c hp hpb hu k hk hk' => mem_setTSize (by omega)
  have hsize :
    ((h.setInuseBit (b + s)).writeHead b s (h.tPreSizeAt b) (h.prevInuse b)).chunkSize b =
      s := (Heap.writeHead_sizes hlt hbb.2.2.2.2).1
  have hframe (k : Nat) (hk : k < b ∨ b + 8 ≤ k) :
      ((h.setInuseBit (b + s)).writeHead b s (h.tPreSizeAt b) (h.prevInuse b)).mem k =
        (h.setInuseBit (b + s)).mem k := Heap.mem_writeHead hk
  have hpre : ((h.setInuseBit (b + s)).writeHead b s (h.tPreSizeAt b) (h.prevInuse b)).prevInuse
      (b + s) = true := by
    rw [← (Heap.setInuseBit_self (h := h) (p := b + s)).2, prevInuse, prevInuse]
    congr 2
    exact loadLe_congr fun k hk hk' => hframe k (by omega)
  have hlive : g.live b = none := by
    rw [Layout.live, hb]
    rfl
  refine ⟨_, inv₂.own_all hb hrest hsize hpre, Heap.rest_writeHead, hle, live_set _ _ _,
    inv₂.sameBytes_mem, fun k hk hk' => ?_⟩
  exact (hframe k (by omega)).trans (mem_setTSize (by omega))

end Inv

namespace Heap

variable {tPreSize : Nat} {iPreInUse : Bool}

theorem cutChunk_of_le (hle : h.getMinChunkSize ≤ s - t) :
    h.cutChunk b s t tPreSize iPreInUse =
      (((h.freeRemainder (b + t) (s - t)).writeHead b (realSize t % 2 ^ 32) tPreSize iPreInUse),
        ((h.freeRemainder (b + t) (s - t)).writeHead b (realSize t % 2 ^ 32) tPreSize
          iPreInUse).ptrToHandle (chunk2mem b)) := by
  rw [cutChunk]
  dsimp only
  rw [if_pos hle]
  rfl

theorem cutChunk_of_lt (hlt : s - t < h.getMinChunkSize) :
    h.cutChunk b s t tPreSize iPreInUse =
      (((h.setInuseBit (b + realSize s)).writeHead b (realSize s % 2 ^ 32) tPreSize iPreInUse),
        ((h.setInuseBit (b + realSize s)).writeHead b (realSize s % 2 ^ 32) tPreSize
          iPreInUse).ptrToHandle (chunk2mem b)) := by
  rw [cutChunk]
  dsimp only
  rw [if_neg (not_le.mpr hlt)]
  rfl

end Heap

/-- The loop of `inter_re_alloc` frees a rest of at most `MAX_ALLOC_SIZE` in one step. -/
theorem Heap.freeRemainder_eq (h : Heap) (hr : r ≤ maxAllocSize) (hmod : r % 8 = 0) :
    h.freeRemainder p r =
    let h₁ := (h.setTSize p (r ||| 1)).setTPreSize (p + r) r
    let h₂ := (h₁.setInuseBit (p + r)).setInuseBit (p + r)
    (h₂.interFree (h₂.ptrToHandle (chunk2mem p))).1 := by
  have hthis : Heap.thisChunkSize r = r := if_neg (not_lt.mpr hr)
  rw [Heap.freeRemainder]
  simp only [hthis, realSize_eq hmod, Nat.sub_self]
  rfl

/-- `g'` is `g` with the first `t` bytes of the idle chunk `b` held, and the rest free. -/
structure Halved (e : Prop) (h : Heap) (g : Layout) (b t : Nat) (h' : Heap) (g' : Layout) :
    Prop where
  inv : Inv e h' g'
  rest : h'.rest = h.rest
  self : g'.chunk b = some ⟨t, .held⟩
  before : ∀ x, x < b → g'.chunk x = g.chunk x
  blocks : ∀ x c, x ≠ b → c.use ≠ .free → (g'.chunk x = some c ↔ g.chunk x = some c)
  others : SameBytes g g'
  bytes : ∀ k, b + 8 ≤ k → k < b + t + 4 → g'.data k = h.mem k

namespace Inv

/-- The rest of the idle chunk goes back. -/
theorem freeRest (inv : Inv e h g) (hb : g.chunk b = some ⟨s, .idle⟩) (hrest : SettledBut g b)
    (ht : 24 ≤ t) (hmod : t % 8 = 0) (hle : t + 24 ≤ s) (hrem : s - t ≤ maxAllocSize) {h₁ : Heap}
    (heq : h₁ =
      (((h.setTSize (b + t) (s - t ||| 1)).setTPreSize (b + t + (s - t)) (s - t)).setInuseBit
      (b + t + (s - t))).setInuseBit (b + t + (s - t))) :
    ∃ g', Halved e h g b t (h₁.interFree (b + t + 8)).1 g' := by
  have hbb := inv.tiled.bounds b _ hb
  dsimp only at hbb
  have hremlt : s - t < 2 ^ 32 := by
    rw [maxAllocSize] at hrem
    omega
  have hne : b + t ≠ b := by omega
  have inv₀ := inv.splitIdle hb ht hmod hle
  have hfirst : ((g.set (b + t) (some ⟨s - t, .idle⟩)).set b (some ⟨t, .idle⟩)).chunk b =
      some ⟨t, .idle⟩ := set_self
  have hsecond : ((g.set (b + t) (some ⟨s - t, .idle⟩)).set b (some ⟨t, .idle⟩)).chunk (b + t) =
      some ⟨s - t, .idle⟩ := (set_of_ne hne).trans set_self
  have hother (x : Nat) (hx : x ≠ b) (hx' : x ≠ b + t) :
      ((g.set (b + t) (some ⟨s - t, .idle⟩)).set b (some ⟨t, .idle⟩)).chunk x = g.chunk x := by
    rw [set_of_ne hx, set_of_ne hx']
  have hdata : ((g.set (b + t) (some ⟨s - t, .idle⟩)).set b (some ⟨t, .idle⟩)).data = g.data := rfl
  generalize (g.set (b + t) (some ⟨s - t, .idle⟩)).set b (some ⟨t, .idle⟩) = g₀
    at inv₀ hfirst hsecond hother hdata
  have inv₁ : Inv e h₁ g₀ := by
    rw [heq]
    exact (((inv₀.setTSize_idle hfirst hsecond).setTPreSize hsecond).setInuseBit
      hsecond).setInuseBit hsecond
  have hframe (k : Nat) (hk : k < b + t + 4) : h₁.mem k = h.mem k := by
    rw [heq]
    refine (mem_setTSize (by omega)).trans ((mem_setTSize (by omega)).trans ?_)
    exact (Heap.mem_setTPreSize (by omega)).trans (mem_setTSize (by omega))
  -- the header of the rest
  have hhead : h₁.tSizeAt (b + t) = s - t + 1 := by
    have hodd : s - t ||| 1 = s - t + 1 := by
      rw [or_one]
      omega
    rw [heq, ← hodd]
    refine Eq.trans (loadLe_congr fun k hk hk' => ?_) (Heap.tSizeAt_setTSize (h := h) (by omega))
    refine (mem_setTSize (by omega)).trans ((mem_setTSize (by omega)).trans ?_)
    exact Heap.mem_setTPreSize (by omega)
  have hpre : h₁.prevInuse (b + t) = true := by
    rw [prevInuse, hhead, beq_iff_eq]
    omega
  have hsize : h₁.chunkSize (b + t) = s - t := by
    rw [Heap.chunkSize, hhead, realSize]
    omega
  have hend : h₁.prevInuse (b + t + (s - t)) = true := by
    rw [heq]
    exact Heap.setInuseBit_self.2
  -- the first part is held, the rest is a block that is freed
  have inv₂ := inv₁.own hfirst (u := .held) trivial (fun hu => hu.elim) hpre
  have inv₃ := inv₂.own ((set_of_ne hne).trans hsecond) (u := .used) trivial (fun _ => hsize)
    hend
  have hb₃ : ({ ({ g₀.set b (some ⟨t, .held⟩) with data := h₁.mem } : Layout).set (b + t)
      (some ⟨s - t, .used⟩) with data := h₁.mem } : Layout).chunk b = some ⟨t, .held⟩ :=
    (set_of_ne hne.symm).trans set_self
  have hr₃ : ({ ({ g₀.set b (some ⟨t, .held⟩) with data := h₁.mem } : Layout).set (b + t)
      (some ⟨s - t, .used⟩) with data := h₁.mem } : Layout).chunk (b + t) = some ⟨s - t, .used⟩ :=
    set_self
  have ho₃ (x : Nat) (hx : x ≠ b) (hx' : x ≠ b + t) :
      ({ ({ g₀.set b (some ⟨t, .held⟩) with data := h₁.mem } : Layout).set (b + t)
        (some ⟨s - t, .used⟩) with data := h₁.mem } : Layout).chunk x = g.chunk x :=
    (set_of_ne hx').trans ((set_of_ne hx).trans (hother x hx hx'))
  have hd₃ : ({ ({ g₀.set b (some ⟨t, .held⟩) with data := h₁.mem } : Layout).set (b + t)
      (some ⟨s - t, .used⟩) with data := h₁.mem } : Layout).data = h₁.mem := rfl
  generalize ({ ({ g₀.set b (some ⟨t, .held⟩) with data := h₁.mem } : Layout).set (b + t)
      (some ⟨s - t, .used⟩) with data := h₁.mem } : Layout) = g₃ at inv₃ hb₃ hr₃ ho₃ hd₃
  have hsettled (x : Nat) (c : Chunk) (hx : g₃.chunk x = some c) (hxb : x ≠ b) :
      c.use = .used ∨ c.use = .free := by
    by_cases hxr : x = b + t
    · rw [hxr, hr₃] at hx
      cases hx
      exact .inl rfl
    · exact hrest x c ((ho₃ x hxb hxr).symm.trans hx) hxb
  have hidle (x : Nat) (c : Chunk) (hx : g₃.chunk x = some c) : c.use ≠ .idle := by
    by_cases hxb : x = b
    · rw [hxb, hb₃] at hx
      cases hx
      simp
    · rcases hsettled x c hx hxb with hu | hu <;> rw [hu] <;> simp
  have hheld (x : Nat) (c : Chunk) (hx : g₃.chunk x = some c) (hlt : b + t < x) :
    c.use ≠ .held := by
    rcases hsettled x c hx (by omega) with hu | hu <;> rw [hu] <;> simp
  have harea := Heap.freeArea_of_prevInuse (s := s - t) hpre
  obtain ⟨h₅, g₅, hfree, inv₅, hrest₅, hreleased⟩ := inv₃.interFree hr₃ hidle hheld fun _ _ => by
    rw [harea]
    exact hpre
  rw [harea] at hreleased
  obtain ⟨o, hjoined, -⟩ := hreleased.joined
  have hresult : (h₁.interFree (b + t + 8)).1 = h₅ := by rw [hfree]
  have hnone : g.chunk (b + t) = none := by
    cases hc : g.chunk (b + t) with
    | none => rfl
    | some c =>
      have hle' := inv.tiled.start_le_or_le hb (.inr ⟨c, hc⟩)
      dsimp only at hle'
      omega
  rw [hresult]
  refine ⟨g₅, inv₅, hrest₅.trans (by rw [heq]; rfl), hreleased.kept hb₃ hne.symm (by simp),
    fun x hx => ?_, fun x c hx hu => ⟨fun hc => ?_, fun hc => ?_⟩, fun x r hx k hk hk' => ?_,
    fun k hk hk' => ?_⟩
  · rw [hjoined.outside x (.inl (by omega)), ho₃ x (by omega) (by omega)]
  · obtain ⟨hxr, hc⟩ := hreleased.of_kept (by omega) hc hu
    exact (ho₃ x hx hxr).symm.trans hc
  · have hxr : x ≠ b + t := by
      rintro rfl
      rw [hnone] at hc
      cases hc
    exact hreleased.kept ((ho₃ x hx hxr).trans hc) hxr hu
  · have hx' := live_eq_some.mp hx
    have hxb : x ≠ b := by
      rintro rfl
      rw [hb] at hx'
      cases hx'
    have hxr : x ≠ b + t := by
      rintro rfl
      rw [hnone] at hx'
      cases hx'
    rw [hreleased.data, hd₃, ← hdata]
    exact inv₁.data x _ ((hother x hxb hxr).trans hx') trivial k hk hk'
  · rw [hreleased.data, hd₃]
    exact hframe k hk'

/-- The first part as the block, the rest free. -/
theorem cutPart (inv : Inv e h g) (hb : g.chunk b = some ⟨s, .idle⟩) (hrest : SettledBut g b)
    (hlt : t < 2 ^ 32) (hmod : t % 8 = 0) (hhalf : Halved e h g b t h' g') :
    ∃ g'', Cut e h g b t (h'.writeHead b t (h.tPreSizeAt b) (h.prevInuse b)) g'' t := by
  have inv' := hhalf.inv
  have hbb := inv'.tiled.bounds b _ hhalf.self
  dsimp only at hbb
  have inv₁ := inv'.setIdle hhalf.self (by simp)
  have hself : (g'.set b (some ⟨t, .idle⟩)).chunk b = some ⟨t, .idle⟩ := set_self
  have hother (x : Nat) (hx : x ≠ b) : (g'.set b (some ⟨t, .idle⟩)).chunk x = g'.chunk x :=
    set_of_ne hx
  have hpre (p : Nat) (c : Chunk) (hp : (g'.set b (some ⟨t, .idle⟩)).chunk p = some c)
      (hpb : p + c.size = b) : g.chunk p = some c := by
    have hbp := inv₁.tiled.bounds p c hp
    rw [hother p (by omega), hhalf.before p (by omega)] at hp
    exact hp
  have inv₂ := inv.writeHead inv₁ hself hlt hmod (Heap.hBottom_of_rest hhalf.rest) hpre
    fun p c hp hpb hu k hk hk' => by
      have hbp := inv₁.tiled.bounds p c hp
      have hp' := hpre p c hp hpb
      rw [hother p (by omega)] at hp
      rw [inv'.data p c hp hu k (by omega) (by omega)]
      have huse : c = ⟨c.size, .used⟩ := by
        rcases hrest p c hp' (by omega) with hused | hfree
        · rw [← hused]
        · rw [hfree] at hu
          exact hu.elim
      rw [huse] at hp'
      rw [hhalf.others p c.size (live_eq_some.mpr hp') k (by omega) (by omega)]
      exact (inv.data p _ hp' trivial k (by omega) (by dsimp only; omega)).symm
  have hsize : (h'.writeHead b t (h.tPreSizeAt b) (h.prevInuse b)).chunkSize b = t :=
    (Heap.writeHead_sizes hlt hmod).1
  have hframe (k : Nat) (hk : k < b ∨ b + 8 ≤ k) :
      (h'.writeHead b t (h.tPreSizeAt b) (h.prevInuse b)).mem k = h'.mem k := Heap.mem_writeHead hk
  have hend : (h'.writeHead b t (h.tPreSizeAt b) (h.prevInuse b)).prevInuse (b + t) = true := by
    rw [← inv'.pre_owned b _ hhalf.self trivial, prevInuse, prevInuse]
    congr 2
    exact loadLe_congr fun k hk hk' => hframe k (by omega)
  have hsettled : SettledBut (g'.set b (some ⟨t, .idle⟩)) b := fun x c hx hxb => by
    by_cases hu : c.use = .free
    · exact .inr hu
    · rw [hother x hxb] at hx
      exact hrest x c ((hhalf.blocks x c hxb hu).mp hx) hxb
  have hlive : g.live b = none := by
    rw [Layout.live, hb]
    rfl
  refine ⟨_, inv₂.own_all hself hsettled hsize hend, Heap.rest_writeHead.trans hhalf.rest,
    le_refl _, ?_, fun x r hx k hk hk' => ?_, fun k hk hk' => ?_⟩
  · change ((g'.set b _).set b _).live = _
    rw [live_set, live_set, update_idem]
    funext x
    by_cases hxb : x = b
    · rw [hxb, update_self, update_self]
      rfl
    · rw [update_of_ne hxb, update_of_ne hxb]
      apply Option.ext
      intro r
      rw [live_eq_some, live_eq_some]
      exact hhalf.blocks x _ hxb (by simp)
  · have hxb : x ≠ b := by
      rintro rfl
      rw [hlive] at hx
      cases hx
    have hx' := (hhalf.blocks x _ hxb (by simp)).mpr (live_eq_some.mp hx)
    exact (inv₂.data x _ ((hother x hxb).trans hx') trivial k hk hk').trans
      (hhalf.others x r hx k hk hk')
  · refine (hframe k (by omega)).trans ?_
    exact (inv'.data b _ hhalf.self trivial k hk hk').trans (hhalf.bytes k hk hk')

/-- The end of `inter_re_alloc`. -/
theorem cutChunk (inv : Inv e h g) (hb : g.chunk b = some ⟨s, .idle⟩) (hrest : SettledBut g b)
    (ht : 24 ≤ t) (hmod : t % 8 = 0) (hle : t ≤ s) (hlt : t < 2 ^ 32)
    (hsplit : h.SplitOk (s - t)) (hrem : s - t ≤ maxAllocSize)
    (hfit : s - t < h.getMinChunkSize → s < 2 ^ 32) {tPreSize : Nat} {iPreInUse : Bool}
    (hsize : tPreSize = h.tPreSizeAt b) (hpre : iPreInUse = h.prevInuse b) :
    ∃ h' g' r, h.cutChunk b s t tPreSize iPreInUse = (h', b + 8) ∧ Cut e h g b t h' g' r := by
  have hbb := inv.tiled.bounds b _ hb
  have htop := inv.top_le
  dsimp only at hbb
  subst hsize hpre
  have hptr (h' : Heap) (hr : h'.rest = h.rest) : h'.ptrToHandle (chunk2mem b) = b + 8 := by
    rw [Heap.ptrToHandle, Heap.tSize_of_rest hr, chunk2mem, if_neg (by omega)]
  by_cases hle' : h.getMinChunkSize ≤ s - t
  · have hrest' := hsplit hle'
    rw [minSize] at hrest'
    obtain ⟨g₁, hhalf⟩ := inv.freeRest hb hrest ht hmod (by omega) hrem rfl
    obtain ⟨g₂, hcut⟩ := inv.cutPart hb hrest hlt hmod hhalf
    refine ⟨_, g₂, t, ?_, hcut⟩
    have hfree := h.freeRemainder_eq (p := b + t) hrem (by omega)
    dsimp only at hfree
    rw [Heap.ptrToHandle, if_neg (by change ¬ h.tSize ≤ b + t + 8; omega), chunk2mem] at hfree
    have hcut' := hcut.rest
    rw [← hfree] at hcut' ⊢
    rw [Heap.cutChunk_of_le hle', realSize_eq hmod, Nat.mod_eq_of_lt hlt, hptr _ hcut']
  · have hs : s < 2 ^ 32 := hfit (Nat.lt_of_not_le hle')
    obtain ⟨g₁, hcut⟩ := inv.cutWhole hb hrest hle hs
    refine ⟨_, g₁, s, ?_, hcut⟩
    rw [Heap.cutChunk_of_lt (Nat.lt_of_not_le hle'), realSize_eq hbb.2.2.2.2, Nat.mod_eq_of_lt hs,
      hptr _ hcut.rest]

end Inv

/-! ## The ways to a new size -/

/-- The block `a` of `s` bytes of `g` is the block `b` of `t` bytes of `g'`, with room for `n`
bytes. -/
structure Moved (e : Prop) (h : Heap) (g : Layout) (a s n : Nat) (h' : Heap) (g' : Layout)
    (b t : Nat) :
    Prop where
  sound : Sound e h' g'
  rest : h'.rest = h.rest
  le : n + 4 ≤ t
  fresh : b = a ∨ g.live b = none
  live : g'.live = update (update g.live a none) b (some t)
  others : ∀ x r, x ≠ a → g.live x = some r → ∀ k, x + 8 ≤ k → k < x + r + 4 → g'.data k = g.data k
  bytes : ∀ k, k < min (s - 4) n → g'.data (b + 8 + k) = g.data (a + 8 + k)

/-- A chunk cut from the area where the block was. -/
theorem Cut.moved {h₀ : Heap} {g₀ : Layout} (hcut : Cut e h g b t h' g' r)
    (hrest : h.rest = h₀.rest)
    (hn : n + 4 ≤ t) (hfresh : b = a ∨ g₀.live b = none)
    (hlive : g.live = update g₀.live a none) (hdata : g.data = g₀.data)
    (hbytes : ∀ k, k < min (s - 4) n → h.mem (b + 8 + k) = g₀.data (a + 8 + k)) :
    Moved e h₀ g₀ a s n h' g' b r := by
  have hle := hcut.le
  refine ⟨hcut.sound, hcut.rest.trans hrest, by omega, hfresh, by rw [hcut.live, hlive],
    fun x r' hxa hx k hk hk' => ?_, fun k hk => ?_⟩
  · have hx' : g.live x = some r' := by rw [hlive, update_of_ne hxa, hx]
    rw [hcut.others x r' hx' k hk hk', hdata]
  · exact (hcut.bytes _ (by omega) (by omega)).trans (hbytes k hk)

namespace Sound

theorem settledBut_set (sound : Sound e h g) {v : Option Chunk} : SettledBut (g.set a v) a :=
  fun x c hx hne => sound.settled x c ((set_of_ne hne).symm.trans hx)

/-- A smaller size. -/
theorem shrink (sound : Sound e h g) (ha : g.chunk a = some ⟨s, .used⟩) (ht : 24 ≤ t)
    (hmod : t % 8 = 0) (hle : t ≤ s) (hn : n + 4 ≤ t) (hsplit : h.SplitOk (s - t)) :
    ∃ h' g' r, h.cutChunk a s t (h.tPreSizeAt a) (h.prevInuse a) = (h', a + 8) ∧
      Moved e h g a s n h' g' a r := by
  have hs := sound.size_le ha trivial
  rw [maxAllocSize] at hs
  obtain ⟨h', g', r, heq, hcut⟩ := (sound.setIdle ha (by simp)).cutChunk set_self
    sound.settledBut_set ht hmod hle (by omega) hsplit (by rw [maxAllocSize]; omega)
      (by omega) rfl rfl
  refine ⟨h', g', r, heq, hcut.moved rfl hn (.inl rfl) (live_set _ _ _) rfl fun k hk => ?_⟩
  exact sound.data a _ ha trivial _ (by omega) (by dsimp only; omega)

/-- The last block grows into the top. -/
theorem growTopBlock (sound : Sound e h g) (ha : g.chunk a = some ⟨s, .used⟩)
    (htop : a + s = h.hTop)
    (hmod : t % 8 = 0) (hlt : s < t) (htlt : t < 2 ^ 32) (hn : n + 4 ≤ t)
    (hfit : a + t + minSize ≤ h.tSize) {h₁ : Heap}
    (heq : h₁ = ((h.setSizeAt a t).setTPreSize (a + t) t).setTSize (a + t) 1) :
    ∃ g', Moved e h g a s n { h₁ with hTop := a + t } g' a t := by
  have hba := sound.tiled.bounds a _ ha
  dsimp only at hba
  have hself : (g.set a (some ⟨s, .idle⟩)).chunk a = some ⟨s, .idle⟩ := set_self
  have inv₁ := (sound.setIdle ha (by simp)).setSizeAt (v := t) hself htlt hmod
  have inv₂ : Inv e ((h.setSizeAt a t).setTPreSize (a + t) t) (g.set a (some ⟨s, .idle⟩)) :=
    inv₁.write_top fun k hk => Heap.mem_setTPreSize (by
      change k < h.hTop + 8 at hk
      omega)
  have inv₃ : Inv e h₁ (g.set a (some ⟨s, .idle⟩)) := heq ▸ inv₂.write_top fun k hk =>
    mem_setTSize (by
      change k < h.hTop + 8 at hk
      omega)
  have hframe (k : Nat) (hk : k < a + 4 ∨ a + 8 ≤ k) (hk' : k < a + t) : h₁.mem k = h.mem k := by
    rw [heq]
    refine (mem_setTSize (by omega)).trans ((Heap.mem_setTPreSize (by omega)).trans ?_)
    exact mem_setTSize hk
  have hpre : h₁.prevInuse (a + t) = true := by
    rw [heq, prevInuse, Heap.tSizeAt_setTSize (by decide)]
    rfl
  have hsize : h₁.chunkSize a = t := by
    refine Eq.trans (congrArg realSize (loadLe_congr fun k hk hk' => ?_))
      (Heap.setSizeAt_self (h := h) htlt hmod).1
    rw [heq]
    exact (mem_setTSize (by omega)).trans (Heap.mem_setTPreSize (by omega))
  have htop₁ : h₁.hTop = h.hTop := by rw [heq]; rfl
  have hrest₁ : h₁.rest = h.rest := by rw [heq]; rfl
  have inv₄ := inv₃.extendIdle hself (htop.trans htop₁.symm) hlt.le hmod
    (by rwa [Heap.tSize_of_rest hrest₁]) hpre
  have hsettled : SettledBut ((g.set a (some ⟨s, .idle⟩)).set a (some ⟨t, .idle⟩)) a :=
    fun x c hx hne =>
    sound.settledBut_set x c ((set_of_ne hne).symm.trans hx) hne
  refine ⟨_, inv₄.own_all set_self hsettled hsize hpre, hrest₁, hn, .inl rfl, ?_,
    fun x r hxa hx k hk hk' => ?_, fun k hk => ?_⟩
  · change (((g.set a _).set a _).set a _).live = _
    rw [live_set, live_set, live_set, update_idem, update_idem, update_idem]
    rfl
  · exact inv₃.data x _ ((set_of_ne hxa).trans (live_eq_some.mp hx)) trivial k hk hk'
  · refine (hframe _ (by omega) (by omega)).trans ?_
    exact sound.data a _ ha trivial _ (by omega) (by dsimp only; omega)

/-- A chunk whose bit behind is clear is free. -/
theorem free_of_clear (sound : Sound e h g) (ha : g.chunk a = some c)
    (hclear : h.prevInuse (a + c.size) = false) : g.chunk a = some ⟨c.size, .free⟩ := by
  rcases sound.settled a c ha with hu | hu
  · have hset := sound.pre_owned a c ha (by rw [hu]; trivial)
    rw [hset] at hclear
    cases hclear
  · rw [ha, ← hu]

/-- The block grows into the free chunk behind it. -/
theorem growNext (sound : Sound e h g) (ha : g.chunk a = some ⟨s, .used⟩)
    (hr : g.chunk (a + s) = some ⟨r, .free⟩) (ht : 24 ≤ t) (hmod : t % 8 = 0) (hlt : s < t)
    (htlt : t < 2 ^ 32) (hle : t ≤ s + r) (hn : n + 4 ≤ t) (hsplit : h.SplitOk (s + r - t))
    (hfit : s + r - t < h.getMinChunkSize → s + r < 2 ^ 32) :
    ∃ h' g' t', (h.unlinkBin (binIndex r) (a + s)).cutChunk a (s + r) t (h.tPreSizeAt a)
      (h.prevInuse a) = (h', a + 8) ∧ Moved e h g a s n h' g' a t' := by
  have hba := sound.tiled.bounds a _ ha
  dsimp only at hba
  have hne : a ≠ a + s := by omega
  have hrle := sound.size_le hr trivial
  have hsizes := sound.unlinkBin_sizes hr (.inr ⟨_, ha⟩)
  have hmin₁ := Heap.getMinChunkSize_of_rest (h.rest_unlinkBin (i := binIndex r) (p := a + s))
  have inv₁ := sound.unlinkBin hr
  have ha₁ : (g.unlink (a + s) r).chunk a = some ⟨s, .used⟩ := (set_of_ne hne).trans ha
  have inv₂ := (inv₁.setIdle ha₁ (by simp)).mergeIdle set_self
    ((set_of_ne hne.symm).trans set_self)
  have hsettled :
    SettledBut ((((g.unlink (a + s) r).set a (some ⟨s, .idle⟩)).set (a + s) none).set a
      (some ⟨s + r, .idle⟩)) a := fun x c hx hxa => by
    rw [set_of_ne hxa] at hx
    rcases update_eq_some_iff.mp hx with ⟨-, hc⟩ | ⟨hxs, hx⟩
    · cases hc
    · rw [set_of_ne hxa] at hx
      exact sound.settled_unlink hx hxs
  obtain ⟨h', g', t', heq, hcut⟩ := inv₂.cutChunk set_self hsettled ht hmod hle htlt
    (by rwa [Heap.SplitOk, hmin₁]) (by omega) (by rwa [hmin₁]) hsizes.2.symm
    (Heap.prevInuse_of_tSizeAt hsizes.1).symm
  refine ⟨h', g', t', heq, hcut.moved h.rest_unlinkBin hn (.inl rfl) ?_ rfl fun k hk => ?_⟩
  · rw [live_set, live_set, live_set, live_unlink hr]
    funext x
    by_cases hxa : x = a
    · rw [hxa, update_self, update_self]
      rfl
    · rw [update_of_ne hxa, update_of_ne hxa]
      by_cases hxs : x = a + s
      · rw [hxs, update_self, live_of_free hr]
        rfl
      · rw [update_of_ne hxs, update_of_ne hxa]
  · exact inv₁.data a _ ha₁ trivial _ (by omega) (by dsimp only; omega)

/-- The block slides down into the free chunk before it. -/
theorem slide (sound : Sound e h g) (hp : g.chunk p = some ⟨r, .free⟩)
    (ha : g.chunk (p + r) = some ⟨s, .used⟩) (ht : 24 ≤ t) (hmod : t % 8 = 0) (hlt : s < t)
    (htlt : t < 2 ^ 32) (hle : t ≤ s + r) (hn : n + 4 ≤ t) (hsplit : h.SplitOk (s + r - t))
    (hfit : s + r < 2 ^ 32) {h₁ h₂ : Heap} (hh₁ : h₁ = h.unlinkBin (binIndex r) p)
    (hh₂ : h₂ = { h₁ with
      mem := memmove h₁.mem (chunk2mem p) (chunk2mem (p + r)) (chunkSize2memSize s) }) :
    ∃ h' g' t', h₂.cutChunk p (s + r) t (h.tPreSizeAt p) (h.prevInuse p) = (h', p + 8) ∧
      Moved e h g (p + r) s n h' g' p t' := by
  have hbp := sound.tiled.bounds p _ hp
  have hba := sound.tiled.bounds _ _ ha
  dsimp only at hbp hba
  have hne : p + r ≠ p := by omega
  have hsle := sound.size_le ha trivial
  have hrle := sound.size_le hp trivial
  have hlen : chunkSize2memSize s = s - 4 := by
    rw [chunkSize2memSize]
    omega
  have hsizes := sound.unlinkBin_sizes hp (.inr ⟨_, hp⟩)
  rw [← hh₁] at hsizes
  have hrest₁ : h₁.rest = h.rest := by rw [hh₁, Heap.rest_unlinkBin]
  have inv₁ : Inv e h₁ (g.unlink p r) := hh₁ ▸ sound.unlinkBin hp
  have ha₁ : (g.unlink p r).chunk (p + r) = some ⟨s, .used⟩ := (set_of_ne hne).trans ha
  have inv₂ := (inv₁.setIdle ha₁ (by simp)).mergeIdle ((set_of_ne hne.symm).trans
    set_self) set_self
  have hsettled :
    SettledBut ((((g.unlink p r).set (p + r) (some ⟨s, .idle⟩)).set (p + r) none).set p
      (some ⟨r + s, .idle⟩)) p := fun x c hx hxp => by
    rw [set_of_ne hxp] at hx
    rcases update_eq_some_iff.mp hx with ⟨-, hc⟩ | ⟨hxs, hx⟩
    · cases hc
    · rw [set_of_ne hxs] at hx
      exact sound.settled_unlink hx hxp
  have hlive : ((((g.unlink p r).set (p + r) (some ⟨s, .idle⟩)).set (p + r) none).set p
      (some ⟨r + s, .idle⟩)).live = update g.live (p + r) none := by
    rw [live_set, live_set, live_set, live_unlink hp, update_idem]
    refine update_eq_self_iff.mpr ?_
    rw [update_of_ne hne.symm, live_of_free hp]
    rfl
  have hself : ((((g.unlink p r).set (p + r) (some ⟨s, .idle⟩)).set (p + r) none).set p
      (some ⟨r + s, .idle⟩)).chunk p = some ⟨r + s, .idle⟩ := set_self
  have hdata : ((((g.unlink p r).set (p + r) (some ⟨s, .idle⟩)).set (p + r) none).set p
      (some ⟨r + s, .idle⟩)).data = g.data := rfl
  generalize (((g.unlink p r).set (p + r) (some ⟨s, .idle⟩)).set (p + r) none).set p
    (some ⟨r + s, .idle⟩) = g₂ at inv₂ hsettled hlive hself hdata
  have hmove (k : Nat) (hk : k < p + 8 ∨ p + r + s + 4 ≤ k) : h₂.mem k = h₁.mem k := by
    rw [hh₂]
    refine memmove_apply_of_disjoint ?_
    rw [hlen, chunk2mem]
    omega
  have inv₃ : Inv e h₂ g₂ := by
    have hout (k : Nat) (hk : k < p + 8 ∨ p + (r + s) + 4 ≤ k) : h₂.mem k = h₁.mem k :=
      hmove k (by omega)
    have hwrite := inv₂.write_idle hself hout
    rw [hh₂] at hwrite ⊢
    exact hwrite
  have hmin₂ : h₂.getMinChunkSize = h.getMinChunkSize := by
    rw [← Heap.getMinChunkSize_of_rest hrest₁, hh₂]
    rfl
  have hpresize : h.tPreSizeAt p = h₂.tPreSizeAt p := by
    rw [← hsizes.2]
    exact loadLe_congr fun k hk hk' => (hmove k (by omega)).symm
  have htsize : h₂.tSizeAt p = h.tSizeAt p :=
    (loadLe_congr fun k hk hk' => hmove k (by omega)).trans hsizes.1
  have hpre := (Heap.prevInuse_of_tSizeAt htsize).symm
  rw [add_comm r s] at hself
  obtain ⟨h', g', t', heq, hcut⟩ := inv₃.cutChunk hself hsettled ht hmod hle htlt
    (by rwa [Heap.SplitOk, hmin₂]) (by omega) (fun _ => hfit) hpresize hpre
  have hrest₂ : h₂.rest = h.rest := by
    rw [hh₂, ← hrest₁]
    rfl
  refine ⟨h', g', t', heq, hcut.moved hrest₂ hn (.inr (live_of_free hp)) hlive hdata fun k hk => ?_⟩
  have hbyte : h₂.mem (chunk2mem p + k) = h₁.mem (chunk2mem (p + r) + k) := by
    rw [hh₂]
    exact memmove_apply (by omega)
  exact hbyte.trans (inv₁.data _ _ ha₁ trivial _ (by rw [chunk2mem]; omega)
    (by rw [chunk2mem]; dsimp only; omega))

/-- A write into a block. -/
theorem write_block (sound : Sound e h g) (hp : g.chunk p = some ⟨t, .used⟩)
    (hm : ∀ k, k < p + 8 ∨ p + t + 4 ≤ k → m' k = h.mem k) :
    Sound e { h with mem := m' } { g with data := m' } := by
  have hbp := sound.tiled.bounds p _ hp
  dsimp only at hbp
  have hself : (g.set p (some ⟨t, .idle⟩)).chunk p = some ⟨t, .idle⟩ := set_self
  have inv₁ := (sound.setIdle hp (by simp)).write_idle hself hm
  have hsize : { h with mem := m' }.chunkSize p = t :=
    (Heap.chunkSize_congr fun k hk hk' => hm k (by omega)).trans (sound.size_of hp trivial)
  have hpre : { h with mem := m' }.prevInuse (p + t) = true :=
    (Heap.prevInuse_congr fun k hk hk' => hm k (by omega)).trans (sound.pre_owned p _ hp trivial)
  have hown := inv₁.own_all hself sound.settledBut_set hsize hpre
  have hg : ({ (g.set p (some ⟨t, .idle⟩)).set p (some ⟨t, .used⟩) with data := m' } : Layout) =
      { g with data := m' } := by
    rw [Layout.set, Layout.set, update_idem, ← hp, update_eq_self]
  rw [← hg]
  exact hown

end Sound

namespace Heap

/-- The copy of a block. -/
def copied (h : Heap) (a s p : Nat) : Heap :=
  { h with mem := memmove h.mem p (chunk2mem a) (chunkSize2memSize s) }

/-- Where the freed block `a` goes to the top, no free chunk is left before it. -/
def TopJoins (h : Heap) (a s : Nat) : Prop :=
  (h.freeArea a s).1 + (h.freeArea a s).2 = h.hTop → h.prevInuse (h.freeArea a s).1 = true

end Heap

namespace Sound

/-- A new block, a copy, and the old block freed. -/
theorem copy (sound : Sound e h g) (ha : g.chunk a = some ⟨s, .used⟩) (hlt : s < request2size n)
    (hsplit : h.MallocSplitOk n)
    (hexact : e → ∀ h₁ p, h.interMalloc n = some (h₁, p) → p ≠ 0 →
      (h₁.copied a s p).TopJoins a s) :
    (∃ h', h.interMalloc n = some (h', 0) ∧ Sound e h' g ∧ h'.rest = h.rest) ∨
      ∃ h₁ g' p t, h.interMalloc n = some (h₁, p + 8) ∧
        Moved e h g a s n ((h₁.copied a s (p + 8)).interFree (chunk2mem a)).1 g' p t := by
  have hba := sound.tiled.bounds a _ ha
  have hsle := sound.size_le ha trivial
  dsimp only at hba
  have hlen : chunkSize2memSize s = s - 4 := by
    rw [chunkSize2memSize]
    rw [maxAllocSize] at hsle
    omega
  refine (sound.interMalloc hsplit).imp_right ?_
  rintro ⟨h₁, g₁, p, t, heq, hn, hall⟩
  have hp : g₁.chunk p = some ⟨t, .used⟩ := by
    rw [← live_eq_some, hall.live, update_self]
  have hne : a ≠ p := by
    rintro rfl
    have hfresh := hall.fresh
    rw [live_eq_some.mpr ha] at hfresh
    cases hfresh
  have ha₁ : g₁.chunk a = some ⟨s, .used⟩ := by
    rw [← live_eq_some, hall.live, update_of_ne hne]
    exact live_eq_some.mpr ha
  have hbp := hall.sound.tiled.bounds p _ hp
  dsimp only at hbp
  have hst : s ≤ t := by
    rw [request2size, minSize] at hlt
    split at hlt <;> omega
  -- the copy writes the new block only
  have hmove (k : Nat) (hk : k < p + 8 ∨ p + t + 4 ≤ k) :
    (h₁.copied a s (p + 8)).mem k = h₁.mem k := by
    rw [Heap.copied]
    refine memmove_apply_of_disjoint ?_
    rw [hlen]
    omega
  have hsound₂ :
    Sound e (h₁.copied a s (p + 8)) { g₁ with data := (h₁.copied a s (p + 8)).mem } := by
    have hwrite := hall.sound.write_block hp hmove
    exact hwrite
  obtain ⟨h₃, g₃, hfree, hsound₃, hrest₃, hreleased⟩ := hsound₂.interFree ha₁ fun he =>
    hexact he h₁ (p + 8) heq (by omega)
  have hresult :
    ((h₁.copied a s (p + 8)).interFree (chunk2mem a)).1 = h₃ := by rw [chunk2mem, hfree]
  have hrest₂ : (h₁.copied a s (p + 8)).rest = h.rest := by
    rw [← hall.rest]
    rfl
  refine ⟨h₁, g₃, p, t, heq, ?_⟩
  rw [hresult]
  refine ⟨hsound₃, hrest₃.trans hrest₂, hn, .inr hall.fresh, ?_, fun x r hxa hx k hk hk' => ?_,
    fun k hk => ?_⟩
  · rw [hreleased.live (by omega)]
    change update g₁.live a none = _
    rw [hall.live, update_comm hne]
  · rw [hreleased.data]
    have hxp : x ≠ p := by
      rintro rfl
      have hfresh := hall.fresh
      rw [hx] at hfresh
      cases hfresh
    have hx₁ : g₁.chunk x = some ⟨r, .used⟩ := by
      rw [← live_eq_some, hall.live, update_of_ne hxp, hx]
    have hbx := hall.sound.tiled.bounds x _ hx₁
    have hxle := hall.sound.tiled.start_le_or_le hx₁ (.inr ⟨_, hp⟩)
    have hple := hall.sound.tiled.start_le_or_le hp (.inr ⟨_, hx₁⟩)
    dsimp only at hbx hxle hple
    refine (hmove k (by omega)).trans ?_
    exact (hall.sound.data x _ hx₁ trivial k hk hk').trans (hall.bytes x r hx k hk hk')
  · rw [hreleased.data]
    have hbyte : (h₁.copied a s (p + 8)).mem (p + 8 + k) = h₁.mem (chunk2mem a + k) := by
      rw [Heap.copied]
      exact memmove_apply (by omega)
    refine hbyte.trans ?_
    rw [chunk2mem, hall.sound.data a _ ha₁ trivial _ (by omega) (by dsimp only; omega)]
    exact hall.bytes a s (live_eq_some.mpr ha) _ (by omega) (by omega)

end Sound

end ISearch.PtMalloc
